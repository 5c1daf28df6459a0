/-
The in-process conformance run: a workload that submits, a target that advances, polls, and the observer that judges.

The harness submits, lets the target advance, injects faults and polls in any order; `drive`, `settle` and `converge` are
the orders that its driver goes through. What happens while the target advances is up to the environment.

- `watched_step`: whatever happens, the samples are true of the replicas' logs, and as dense as the mode has them.
- `conformance_exact`: once the target has settled, the observer is right about every replica, what it reports stuck is
  behind, and what it reports as a divergence is one; where it gets every state, it misses no two logs whose hashes differ.
- `conformance_quiet`: it reports none where the logs agree.
-/
import Queso.Conformance.Sampling
import Queso.Conformance.Source
import Queso.Conformance.Verdict

namespace Queso

open Chain

/-! ## The transitions of a log -/

/-- the transitions of `commands`, from `state` on -/
def Chain.transitionsFrom (state : ChainState) : List Command → List Transition
  | [] => []
  | c :: commands => state.apply c :: transitionsFrom (state.apply c).after commands

/-- the transitions of a log from its start -/
def Chain.transitionsOf (log : List Command) : List Transition := transitionsFrom .genesis log

theorem Chain.transitionsFrom_append (state : ChainState) (l m : List Command) :
    transitionsFrom state (l ++ m) = transitionsFrom state l ++ transitionsFrom (Sampling.chained state l) m := by
  induction l generalizing state with
  | nil => rfl
  | cons c l ih => exact congrArg (state.apply c :: ·) (ih _)

theorem Chain.transitionsOf_snoc (log : List Command) (c : Command) :
    transitionsOf (log ++ [c]) = transitionsOf log ++ [(ChainState.fromLog log).apply c] :=
  transitionsFrom_append .genesis log [c]

@[simp] theorem Chain.transitionsOf_length (log : List Command) : (transitionsOf log).length = log.length := by
  induction log using List.reverseRecOn with
  | nil => rfl
  | append_singleton log c ih => rw [transitionsOf_snoc, List.length_append, ih, List.length_append]; rfl

namespace Observer

/-- a list of bounded size keeps its last elements -/
theorem keep_last {α : Type*} {cap : ℕ} (hcap : 0 < cap) (l : List α) (a : α) :
    (if (l.drop (l.length - cap)).length = cap then (l.drop (l.length - cap)).tail ++ [a] else l.drop (l.length - cap) ++ [a]) =
        (l ++ [a]).drop ((l ++ [a]).length - cap) ∧
      ((l.drop (l.length - cap)).length = cap ↔ cap ≤ l.length) := by
  rw [List.length_drop, List.length_append, List.length_singleton]
  have hiff : l.length - (l.length - cap) = cap ↔ cap ≤ l.length := by omega
  refine ⟨?_, hiff⟩
  by_cases hfull : cap ≤ l.length
  · have hnext : l.length - cap + 1 = l.length + 1 - cap := by omega
    rw [if_pos (hiff.2 hfull), List.tail_drop, hnext, List.drop_append_of_le_length (by omega)]
  · have hnone : l.length - cap = 0 := by omega
    have hnone' : l.length + 1 - cap = 0 := by omega
    rw [if_neg (fun h => hfull (hiff.1 h)), hnone, hnone', List.drop_zero, List.drop_zero]

/-- the view is at the end of `log`, and holds the last of its transitions but the first `skip` -/
structure Shows (cap skip : ℕ) (log : List Command) (view : ReplicaView) : Prop where
  latest : view.latest = .fromLog log
  skip_le : skip ≤ log.length
  transitions : view.transitions = ((transitionsOf log).drop skip).drop (((transitionsOf log).drop skip).length - cap)
  truncated : view.transitionsTruncated = true ↔ cap < ((transitionsOf log).drop skip).length

theorem Shows.see_same {cap skip : ℕ} {log : List Command} {view : ReplicaView} (h : Shows cap skip log view) {s : Sample}
    (hs : s.state = .fromLog log) : view.see cap s = view := by
  unfold ReplicaView.see
  rw [if_neg]
  rw [h.latest, hs]
  exact lt_irrefl _

theorem Shows.see_next {cap skip : ℕ} {log : List Command} {view : ReplicaView} (hcap : 0 < cap) (h : Shows cap skip log view)
    {s : Sample} {c : Command} (hs : s.state = .fromLog (log ++ [c])) (hd : s.commandDigest = some (commandDigest c)) :
    Shows cap skip (log ++ [c]) (view.see cap s) := by
  have hn : s.state.n = view.latest.n + 1 := by rw [hs, h.latest, ChainState.fromLog_n, ChainState.fromLog_n]; simp
  have hlong : ((transitionsOf (log ++ [c])).drop skip) =
      (transitionsOf log).drop skip ++ [(ChainState.fromLog log).apply c] := by
    rw [transitionsOf_snoc, List.drop_append_of_le_length]
    simpa using h.skip_le
  have htransition : (⟨view.latest, s.state, commandDigest c⟩ : Transition) = (ChainState.fromLog log).apply c := by
    rw [h.latest, hs, ChainState.fromLog_snoc]
    rfl
  obtain ⟨hkeep, hfull⟩ := keep_last hcap ((transitionsOf log).drop skip) ((ChainState.fromLog log).apply c)
  unfold ReplicaView.see
  rw [if_pos (by omega), hd]
  dsimp only
  rw [if_pos hn, htransition]
  unfold ReplicaView.push
  rw [h.transitions]
  refine ⟨hs, h.skip_le.trans (by simp), ?_, ?_⟩
  · rw [hlong, ← hkeep]
    split_ifs <;> rfl
  · rw [hlong, List.length_append, List.length_singleton]
    split_ifs with hroom
    · exact iff_of_true rfl (Nat.lt_succ_of_le (hfull.1 hroom))
    · have hshort := fun hle => hroom (hfull.2 hle)
      show view.transitionsTruncated = true ↔ _
      rw [h.truncated]
      omega

/-- a replica that is first seen: its transitions up to there are not known -/
theorem shows_new {cap : ℕ} {log : List Command} {s : Sample} (hs : s.state = .fromLog log) :
    Shows cap log.length log ((ReplicaView.new s).see cap s) := by
  have hsame : (ReplicaView.new s).see cap s = .new s := by
    unfold ReplicaView.see
    rw [if_neg]
    exact lt_irrefl _
  rw [hsame]
  have hnil : (transitionsOf log).drop log.length = [] := List.drop_of_length_le (by simp)
  refine ⟨hs, le_rfl, ?_, ?_⟩
  · rw [hnil]
    simp [ReplicaView.new]
  · rw [hnil]
    simp [ReplicaView.new]

/-! ## One poll of one replica -/

open Sampling

variable {replica : NodeId} {now : ℕ}

/-- the pending samples of a poll are the states that the new commands pass through, with their digests -/
theorem foldCommands_snoc (state : ChainState) (commands : List Command) (c : Command) :
    (foldCommands replica now state (commands ++ [c])).1 = (foldCommands replica now state commands).1 ++
      [⟨replica, now, chained state (commands ++ [c]), some (commandDigest c)⟩] := by
  induction commands generalizing state with
  | nil => rfl
  | cons d commands ih => exact congrArg (_ :: ·) (ih _)

/-- a view follows the pending samples of a poll -/
theorem Shows.follow {cap skip : ℕ} {log : List Command} {view : ReplicaView} (hcap : 0 < cap)
    (h : Shows cap skip log view) (fresh : List Command) :
    Shows cap skip (log ++ fresh)
      ((foldCommands replica now (.fromLog log) fresh).1.foldl (fun view s => view.see cap s) view) := by
  induction fresh using List.reverseRecOn with
  | nil =>
    rw [List.append_nil]
    exact h
  | append_singleton fresh c ih =>
    rw [foldCommands_snoc, List.foldl_append, ← List.append_assoc]
    refine ih.see_next hcap ?_ rfl
    show chained (.fromLog log) (fresh ++ [c]) = _
    rw [chained_fromLog, List.append_assoc]

/-- after the first sample a view only follows -/
theorem viewed_append {cap : ℕ} {samples : List Sample} {view : ReplicaView} (h : viewed cap samples = some view)
    (more : List Sample) : viewed cap (samples ++ more) = some (more.foldl (fun view s => view.see cap s) view) := by
  induction more using List.reverseRecOn with
  | nil => rwa [List.append_nil]
  | append_singleton more s ih => rw [← List.append_assoc, viewed_snoc, ih, List.foldl_append]; rfl

/-- a poll that gets every state emits those that the new commands pass through, or else where the replica is -/
theorem pollReplica_full (seen fresh : List Command) :
    (pollReplica .fullPrefix now replica (.fromLog seen) (seen ++ fresh)).1 =
      if (foldCommands replica now (.fromLog seen) fresh).1.isEmpty = true then
        [⟨replica, now, chained (.fromLog seen) fresh,
          (foldCommands replica now (.fromLog seen) fresh).1.getLast?.bind (·.commandDigest)⟩]
      else (foldCommands replica now (.fromLog seen) fresh).1 := by
  have hresume : resumeFrom (.fromLog seen) (seen ++ fresh) = .fromLog seen := by
    unfold resumeFrom
    rw [if_neg]
    simp
  unfold pollReplica
  dsimp only
  rw [hresume, ChainState.fromLog_n, List.length_append, min_eq_left (Nat.le_add_right ..), List.drop_left,
    foldCommands_last]
  rfl

/-- a poll that gets every state brings the view to the end of the log; what a view lacks is what its replica had when it
was first seen -/
theorem viewed_poll {cap : ℕ} (hcap : 0 < cap) {samples : List Sample} {seen fresh : List Command}
    (h : viewed cap samples = none ∧ seen = [] ∨ ∃ first view, samples.head? = some first ∧ first.state.n ≤ 1 ∧
      viewed cap samples = some view ∧ Shows cap first.state.n seen view) :
    let polled := samples ++ (pollReplica .fullPrefix now replica (.fromLog seen) (seen ++ fresh)).1
    ∃ first view, polled.head? = some first ∧ first.state.n ≤ 1 ∧ viewed cap polled = some view ∧
      Shows cap first.state.n (seen ++ fresh) view := by
  intro polled
  have hkeep {first : Sample} (hfirst : samples.head? = some first) : polled.head? = some first := by
    rw [List.head?_append, hfirst]
    rfl
  have hpolled : polled = samples ++ _ := rfl
  rw [pollReplica_full] at hpolled
  cases fresh with
  | nil =>
    have hnone : (foldCommands replica now (.fromLog seen) []).1 = [] := rfl
    rw [hnone, List.isEmpty_nil, if_pos rfl] at hpolled
    rw [List.append_nil]
    rcases h with ⟨hnew, rfl⟩ | ⟨first, view, hfirst, hn, hview, hshows⟩
    · obtain rfl := (viewed_peak cap samples).1.1 hnew
      let empty : Sample := ⟨replica, now, .fromLog [], none⟩
      have hempty : Shows cap [].length [] ((ReplicaView.new empty).see cap empty) := shows_new rfl
      have hn : empty.state.n = 0 := ChainState.fromLog_n []
      have hview : viewed cap [empty] = some ((ReplicaView.new empty).see cap empty) := rfl
      have hone : polled = [empty] := hpolled
      refine ⟨empty, (ReplicaView.new empty).see cap empty, by rw [hone]; rfl, by omega, ?_, ?_⟩
      · rw [hone, hview]
      · rw [hn]
        exact hempty
    · refine ⟨first, view, hkeep hfirst, hn, ?_, hshows⟩
      rw [hpolled, viewed_snoc, hview, Option.getD_some, hshows.see_same rfl]
  | cons c fresh =>
    have hsome : (foldCommands replica now (.fromLog seen) (c :: fresh)).1 =
        ⟨replica, now, .fromLog (seen ++ [c]), some (commandDigest c)⟩ ::
          (foldCommands replica now (.fromLog (seen ++ [c])) fresh).1 := by
      rw [ChainState.fromLog_snoc]
      rfl
    have hsplit : seen ++ c :: fresh = (seen ++ [c]) ++ fresh := by simp
    rw [hsome, List.isEmpty_cons, if_neg (by simp)] at hpolled
    rcases h with ⟨hnew, rfl⟩ | ⟨first, view, hfirst, hn, hview, hshows⟩
    · obtain rfl := (viewed_peak cap samples).1.1 hnew
      let first : Sample := ⟨replica, now, .fromLog [c], some (commandDigest c)⟩
      have hstart : Shows cap [c].length [c] ((ReplicaView.new first).see cap first) := shows_new rfl
      have hn : first.state.n = 1 := ChainState.fromLog_n [c]
      have hview : viewed cap [first] = some ((ReplicaView.new first).see cap first) := rfl
      have hrest : polled = [first] ++ (foldCommands replica now (.fromLog [c]) fresh).1 := hpolled
      refine ⟨first, _, by rw [hrest]; rfl, hn.le, by rw [hrest]; exact viewed_append hview _, ?_⟩
      rw [hn, hsplit]
      exact hstart.follow hcap fresh
    · rw [← hsome] at hpolled
      refine ⟨first, _, hkeep hfirst, hn, by rw [hpolled]; exact viewed_append hview _, hshows.follow hcap (c :: fresh)⟩

end Observer

/-! ## A poll of all replicas -/

namespace Sampler

open Sampling

/-- a poll moves the cursor of each replica, and changes nothing else -/
theorem foldl_cursor {l : List NodeId} (hl : l.Nodup) (out : List Sample) (t : Sampler) (p : Presented) (i : NodeId) :
    let r := l.foldl (sample p) (out, t)
    r.2.size = t.size ∧ r.2.observability = t.observability ∧ r.2.cursor i =
      if i ∈ l then (pollReplica t.observability p.now i (t.cursor i) (p.appliedLog i)).2 else t.cursor i := by
  intro r
  induction l generalizing out t with
  | nil => exact ⟨rfl, rfl, rfl⟩
  | cons j l ih =>
    obtain ⟨hj, hl⟩ := List.nodup_cons.1 hl
    generalize hp : pollReplica t.observability p.now j (t.cursor j) (p.appliedLog j) = polled
    have hr : r = l.foldl (sample p) (out ++ polled.1, { t with cursors := t.cursors.insert j polled.2 }) := by
      rw [← hp]
      rfl
    obtain ⟨hsize, hobs, hcursor⟩ := ih hl (out ++ polled.1) { t with cursors := t.cursors.insert j polled.2 }
    rw [hr]
    refine ⟨hsize, hobs, hcursor.trans ?_⟩
    by_cases hij : i = j
    · subst hij
      rw [if_neg hj, if_pos List.mem_cons_self, hp]
      unfold cursor
      rw [AList.lookup_insert]
      rfl
    · have hkept : cursor { t with cursors := t.cursors.insert j polled.2 } i = t.cursor i := by
        unfold cursor
        rw [AList.lookup_insert_ne hij]
      rw [hkept]
      simp [hij]

/-- where what was folded is a state of the log that is presented, it becomes the state of all of it -/
theorem poll_cursor {t : Sampler} {p : Presented} {i : NodeId} (hi : i < t.size) {seen : List Command}
    (hcursor : t.cursor i = .fromLog seen) (hlog : seen <+: p.appliedLog i) :
    (t.step p).cursor i = .fromLog (p.appliedLog i) := by
  obtain ⟨-, -, hmoved⟩ := foldl_cursor List.nodup_range [] t p i
  obtain ⟨fresh, hfresh⟩ := hlog
  have hresume : resumeFrom (.fromLog seen) (p.appliedLog i) = .fromLog seen := by
    unfold resumeFrom
    rw [if_neg]
    rw [← hfresh]
    simp
  obtain ⟨hlast, -⟩ := pollReplica_last t.observability p.now i (t.cursor i) (p.appliedLog i)
  refine hmoved.trans ?_
  rw [if_pos (List.mem_range.2 hi), hlast, hcursor, hresume, ChainState.fromLog_n, ← hfresh, List.drop_left,
    chained_fromLog]

/-- nothing is emitted for a replica that there is none of -/
theorem samplesOf_beyond {t : Sampler} {p : Presented} {i : NodeId} (hi : t.size ≤ i) : t.samplesOf p i = [] := by
  have h := foldl_sample (List.nodup_range (n := t.size)) [] t p i
  rw [List.filter_nil, List.nil_append, if_neg (fun hmem => absurd (List.mem_range.1 hmem) (not_lt.2 hi))] at h
  exact h

end Sampler

/-! ## The harness -/

/-- the target, what it folds when it is polled, and the samples that the observer was given -/
structure Harness where
  target : SimCluster
  sampler : Sampler
  samples : List Sample

inductive HarnessOp where
  | target (op : SimOp)
  | poll

/-- the environment restarts a replica -/
def HarnessOp.restarts : HarnessOp → Bool
  | .target (.env (.restart _ _)) => true
  | _ => false

/-- how a run interleaves submissions and polls -/
structure RunConfig where
  commands : ℕ
  pollEvery : ℕ

namespace Harness

def new (s : Smr.Setup) (observability : Observability) : Harness := ⟨.new s, .new s.size observability, []⟩

def presented (h : Harness) : Presented := ⟨h.target.cluster.now, h.target.cluster.appliedLog⟩

def observer (h : Harness) : Observer := .observeAll h.samples

def step (h : Harness) : HarnessOp → Harness
  | .target op => { h with target := h.target.step op }
  | .poll =>
    let (samples, sampler) := h.sampler.pollSamples h.presented
    { h with sampler := sampler, samples := h.samples ++ samples }

abbrev run (s : Smr.Setup) (observability : Observability) (ops : List HarnessOp) : Harness :=
  Runs.run step (new s observability) ops

/-! ### The driver -/

/-- what happens while the target advances -/
def advance (events : List (EnvOp (NodeId → Draw))) : List HarnessOp := events.map fun op => .target (.env op)

def settle (events : List (EnvOp (NodeId → Draw))) : List HarnessOp := advance events ++ [.poll]

/-- `run`: submit, advance, poll now and then; `between i` is what happens after submission `i` -/
def drive (config : RunConfig) (workload : CobWorkload) (between : ℕ → List (EnvOp (NodeId → Draw)))
    (settling : List (EnvOp (NodeId → Draw))) : List HarnessOp :=
  ((workload.commands config.commands).zipIdx.flatMap fun (command, i) =>
    .target (.submit command) :: (advance (between i) ++
      if (i + 1) % max config.pollEvery 1 = 0 then [.poll] else [])) ++ settle settling

/-- `converge`: each round submits a command for each of the replicas, and settles -/
def converge (replicas rounds : ℕ) (workload : CobWorkload) (during : ℕ → List (EnvOp (NodeId → Draw))) : List HarnessOp :=
  (List.range rounds).flatMap fun round =>
    (((workload.commands (rounds * max replicas 1)).drop (round * max replicas 1)).take (max replicas 1)).map
      (fun command => .target (.submit command)) ++ settle (during round)

/-! ### What the observer is given -/

open Sampling Observer

/-- every state that the new commands pass through is a pending sample -/
theorem foldCommands_dense {replica : NodeId} {now : ℕ} (state : ChainState) (commands : List Command) {n : ℕ} (hpos : 0 < n)
    (hn : n ≤ commands.length) :
    ∃ s ∈ (foldCommands replica now state commands).1, s.replica = replica ∧ s.state = chained state (commands.take n) := by
  induction commands generalizing state n with
  | nil => exact absurd hn (by simpa using hpos.ne')
  | cons c commands ih =>
    cases n with
    | zero => exact absurd hpos (lt_irrefl _)
    | succ n =>
      rcases Nat.eq_zero_or_pos n with rfl | hpos
      · exact ⟨_, List.mem_cons_self, rfl, rfl⟩
      · obtain ⟨s, hs, hr, hstate⟩ := ih (state.apply c).after hpos (Nat.le_of_succ_le_succ hn)
        exact ⟨s, List.mem_cons_of_mem _ hs, hr, hstate⟩

/-- the observer goes by `seen`, what each replica had applied at the last poll -/
structure Follows (size : ℕ) (mode : Observability) (seen : NodeId → List Command) (h : Harness) : Prop where
  replicas : h.sampler.size = size
  observes : h.sampler.observability = mode
  sane : Smr.Sane size h.target.cluster
  grown : ∀ i, seen i <+: h.target.cluster.appliedLog i
  cursors : ∀ i < size, h.sampler.cursor i = .fromLog (seen i)
  truthful : Truthful seen h.samples
  within : ∀ s ∈ h.samples, s.replica < size
  views : mode = .fullPrefix → ∀ i < size,
    viewed 4096 (h.samples.filter fun s => s.replica == i) = none ∧ seen i = [] ∨
      ∃ first view, (h.samples.filter fun s => s.replica == i).head? = some first ∧ first.state.n ≤ 1 ∧
        viewed 4096 (h.samples.filter fun s => s.replica == i) = some view ∧ Shows 4096 first.state.n (seen i) view
  dense : mode = .fullPrefix → ∀ i < size, ∀ n, 0 < n → n ≤ (seen i).length →
    ∃ s ∈ h.samples, s.replica = i ∧ s.state = .fromLog ((seen i).take n)

section Run

variable {size : ℕ} {mode : Observability} {seen : NodeId → List Command} {h : Harness}

theorem follows_new (s : Smr.Setup) (mode : Observability) : Follows s.size mode (fun _ => []) (new s mode) where
  replicas := rfl
  observes := rfl
  sane := Smr.sane_cluster s
  grown := fun _ => List.nil_prefix
  cursors := fun _ _ => rfl
  truthful := fun _ hs => absurd hs List.not_mem_nil
  within := fun _ hs => absurd hs List.not_mem_nil
  views := fun _ _ _ => .inl ⟨rfl, rfl⟩
  dense := fun _ _ _ _ hpos hn => absurd hn (by simpa using hpos.ne')

/-- no step of the target takes back what was applied -/
theorem target_step {t : SimCluster} (h : Smr.Sane size t.cluster) (op : SimOp) :
    Smr.Sane size (t.step op).cluster ∧ ∀ i, t.cluster.appliedLog i <+: (t.step op).cluster.appliedLog i := by
  cases op with
  | env op => exact ⟨Smr.sane_step h (.env op), fun i => (Smr.applied_step h (.env op) i).2⟩
  | submit command =>
    show Smr.Sane size (t.submit command).cluster ∧ ∀ i, _ <+: (t.submit command).cluster.appliedLog i
    unfold SimCluster.submit
    split
    · exact ⟨h, fun _ => List.prefix_rfl⟩
    · rename_i replica _
      let op : SmrOp := .submit replica (command.retag (t.seq + 1))
      exact ⟨Smr.sane_step h op, fun i => (Smr.applied_step h op i).2⟩

/-- what was folded is a state of what is presented -/
theorem Follows.kept (hf : Follows size mode seen h) : Sampler.Kept h.sampler h.presented := by
  intro i hi
  right
  rw [hf.cursors i (hf.replicas ▸ hi), ChainState.fromLog_n]
  obtain ⟨more, hmore⟩ := hf.grown i
  show ChainState.fromLog (seen i) = .fromLog ((h.target.cluster.appliedLog i).take (seen i).length)
  rw [← hmore, List.take_left]

/-- **A poll** takes the observer to the logs as they are -/
theorem Follows.poll (hf : Follows size mode seen h) :
    Follows size mode (fun i => if i < size then h.target.cluster.appliedLog i else seen i) (h.step .poll) := by
  obtain ⟨hsize, hmode, -⟩ := Sampler.foldl_cursor List.nodup_range [] h.sampler h.presented 0
  have hsamples : (h.step .poll).samples = h.samples ++ (h.sampler.pollSamples h.presented).1 := rfl
  have hsampler : (h.step .poll).sampler = h.sampler.step h.presented := rfl
  have hactual := Sampler.poll_actual hf.kept
  have hnew : ∀ s ∈ (h.sampler.pollSamples h.presented).1, s.replica < size ∧
      ∃ part, part <+: h.target.cluster.appliedLog s.replica ∧ s.state = .fromLog part := by
    intro s hs
    have hof : s ∈ h.sampler.samplesOf h.presented s.replica := List.mem_filter.2 ⟨hs, by simp⟩
    by_cases hi : s.replica < h.sampler.size
    · exact ⟨hf.replicas ▸ hi, (hactual s.replica hi).2 s hof⟩
    · rw [Sampler.samplesOf_beyond (not_lt.1 hi)] at hof
      exact absurd hof List.not_mem_nil
  have hgrown : ∀ i, seen i <+: if i < size then h.target.cluster.appliedLog i else seen i := by
    intro i
    split_ifs
    · exact hf.grown i
    · exact List.prefix_rfl
  have hof : ∀ i < size, h.sampler.samplesOf h.presented i =
      (pollReplica mode h.presented.now i (.fromLog (seen i)) (h.target.cluster.appliedLog i)).1 := by
    intro i hi
    rw [Sampler.samplesOf_eq (hf.replicas ▸ hi), hf.cursors i hi, hf.observes]
    rfl
  refine ⟨hsize.trans hf.replicas, hmode.trans hf.observes, hf.sane, fun i => ?_, fun i hi => ?_, fun s hs => ?_, fun s hs => ?_,
    fun hfull i hi => ?_, fun hfull i hi n hpos hn => ?_⟩
  · split_ifs
    · exact List.prefix_rfl
    · exact hf.grown i
  · rw [hsampler, if_pos hi]
    exact Sampler.poll_cursor (hf.replicas ▸ hi) (hf.cursors i hi) (hf.grown i)
  · rw [hsamples] at hs
    rcases List.mem_append.1 hs with hs | hs
    · obtain ⟨part, hpart, hstate⟩ := hf.truthful s hs
      exact ⟨part, hpart.trans (hgrown s.replica), hstate⟩
    · obtain ⟨hi, part, hpart, hstate⟩ := hnew s hs
      exact ⟨part, by rwa [if_pos hi], hstate⟩
  · rw [hsamples] at hs
    rcases List.mem_append.1 hs with hs | hs
    · exact hf.within s hs
    · exact (hnew s hs).1
  · right
    obtain ⟨fresh, hfresh⟩ := hf.grown i
    have hpolled : ((h.step .poll).samples.filter fun s => s.replica == i) =
        (h.samples.filter fun s => s.replica == i) ++
          (pollReplica .fullPrefix h.presented.now i (.fromLog (seen i)) (seen i ++ fresh)).1 := by
      rw [hsamples, List.filter_append, hfresh, ← hfull, ← hof i hi]
      rfl
    rw [if_pos hi, hpolled, ← hfresh]
    exact viewed_poll (by decide) (hf.views hfull i hi)
  · rw [if_pos hi] at hn ⊢
    rw [hsamples]
    obtain ⟨fresh, hfresh⟩ := hf.grown i
    by_cases hold : n ≤ (seen i).length
    · obtain ⟨s, hs, hr, hstate⟩ := hf.dense hfull i hi n hpos hold
      refine ⟨s, List.mem_append_left _ hs, hr, ?_⟩
      rw [← hfresh, List.take_append_of_le_length hold]
      exact hstate
    · have hlen : n - (seen i).length ≤ fresh.length := by
        rw [← hfresh, List.length_append] at hn
        omega
      obtain ⟨s, hs, hr, hstate⟩ := foldCommands_dense (.fromLog (seen i)) fresh
        (Nat.sub_pos_of_lt (not_le.1 hold)) hlen
      have hmem : s ∈ h.sampler.samplesOf h.presented i := by
        rw [hof i hi, hfull, ← hfresh, pollReplica_full, if_neg]
        · exact hs
        · rw [List.isEmpty_iff]
          exact List.ne_nil_of_mem hs
      refine ⟨s, List.mem_append_right _ (List.mem_filter.1 hmem).1, hr, hstate.trans ?_⟩
      rw [chained_fromLog, ← hfresh, List.take_append, List.take_of_length_le (not_le.1 hold).le]

/-- **Step lemma.** -/
theorem watched_step (hf : Follows size mode seen h) (op : HarnessOp) : ∃ seen', Follows size mode seen' (h.step op) := by
  cases op with
  | poll => exact ⟨_, hf.poll⟩
  | target op =>
    obtain ⟨hsane, hgrown⟩ := target_step hf.sane op
    exact ⟨seen, hf.replicas, hf.observes, hsane, fun i => (hf.grown i).trans (hgrown i), hf.cursors, hf.truthful,
      hf.within, hf.views, hf.dense⟩

/-- **Run lemma.** -/
theorem watched_run (s : Smr.Setup) (mode : Observability) (ops : List HarnessOp) :
    ∃ seen, Follows s.size mode seen (run s mode ops) :=
  Runs.run_invariant (I := fun h => ∃ seen, Follows s.size mode seen h) (P := fun _ _ => True)
    (fun _ op ⟨_, hf⟩ _ => watched_step hf op) ⟨_, follows_new s mode⟩ (Runs.along_true ..)

/-- a replica is last seen at the end of its log -/
theorem Follows.latest (hf : Follows size mode seen h) {i : NodeId} {x : Sample}
    (hx : Peak (h.samples.filter fun s => s.replica == i) x) {s : Sample} (hs : s ∈ h.samples) (hr : s.replica = i)
    (hstate : s.state = .fromLog (seen i)) : x.state = .fromLog (seen i) := by
  obtain ⟨hxmem, hxr⟩ := List.mem_filter.1 hx.mem
  have hxr : x.replica = i := beq_iff_eq.1 hxr
  obtain ⟨part, hpart, hxstate⟩ := hf.truthful x hxmem
  have hle : s.state.n ≤ x.state.n := hx.le (List.mem_filter.2 ⟨hs, beq_iff_eq.2 hr⟩)
  rw [hstate, hxstate, ChainState.fromLog_n, ChainState.fromLog_n] at hle
  have hpart : part <+: seen i := hxr ▸ hpart
  rw [hxstate, hpart.eq_of_length_le hle]

/-- a poll emits where each replica is -/
theorem Follows.poll_frontier (hf : Follows size mode seen h) {i : NodeId} (hi : i < size) :
    ∃ x ∈ (h.step .poll).samples, x.replica = i ∧ x.state = .fromLog (h.target.cluster.appliedLog i) := by
  obtain ⟨hlast, -⟩ := Sampler.poll_actual hf.kept i (hf.replicas.symm ▸ hi)
  obtain ⟨x, hx, hstate⟩ := Option.map_eq_some_iff.1 hlast
  obtain ⟨hmem, hr⟩ := List.mem_filter.1 (List.mem_of_getLast? hx)
  exact ⟨x, List.mem_append_right _ hmem, beq_iff_eq.1 hr, hstate⟩

/-- once the target has settled, the observer goes by the logs as they are -/
theorem settled (s : Smr.Setup) (mode : Observability) (ops : List HarnessOp) (events : List (EnvOp (NodeId → Draw)))
    {h : Harness} (hh : h = run s mode (ops ++ settle events)) : ∃ seen, Follows s.size mode seen h ∧ ∀ i < s.size,
      seen i = h.target.cluster.appliedLog i ∧ ∃ x ∈ h.samples, x.replica = i ∧ x.state = .fromLog (seen i) := by
  obtain ⟨seen, hf⟩ := watched_run s mode (ops ++ advance events)
  rw [settle, ← List.append_assoc, run, Runs.run_snoc] at hh
  rw [hh]
  refine ⟨_, hf.poll, fun i hi => ⟨if_pos hi, ?_⟩⟩
  rw [if_pos hi]
  exact hf.poll_frontier hi

end Run

/-- **The observer is right once the target has settled**, in every run and in every mode: it has every replica at the end of
its log; a divergence that it reports is one between two logs; a replica that it reports stuck
is reported where its log ends, and another log is longer. Where it gets every state, it first sees a replica at height 0
or 1 and holds the last 4096 of the transitions from there to the end of its log; and it reports a divergence whenever
the hashes of two logs differ at a height that both have reached. -/
theorem conformance_exact (s : Smr.Setup) (mode : Observability) (ops : List HarnessOp)
    (events : List (EnvOp (NodeId → Draw))) :
    let h := run s mode (ops ++ settle events)
    let logOf := h.target.cluster.appliedLog
    (∀ i < s.size, ∃ view, h.observer.replicas.lookup i = some view ∧ view.latest = .fromLog (logOf i) ∧
      (mode = .fullPrefix → ∃ first, (h.samples.filter fun s => s.replica == i).head? = some first ∧ first.state.n ≤ 1 ∧
        Shows 4096 first.state.n (logOf i) view)) ∧
    (∀ a ∈ h.observer.divergences, a.n ≤ (logOf a.first.1).length ∧ a.n ≤ (logOf a.other.1).length ∧
      (logOf a.first.1).take a.n ≠ (logOf a.other.1).take a.n) ∧
    (∀ now budget, ∀ st ∈ h.observer.stalls now budget, st.stuckAt = .fromLog (logOf st.replica) ∧
      ∃ j < s.size, (logOf st.replica).length < (logOf j).length) ∧
    (mode = .fullPrefix → ∀ i < s.size, ∀ j < s.size, ∀ n, n ≤ (logOf i).length → n ≤ (logOf j).length →
      (ChainState.fromLog ((logOf i).take n)).h ≠ (ChainState.fromLog ((logOf j).take n)).h →
        ∃ a ∈ h.observer.divergences, a.n = n) := by
  intro h logOf
  obtain ⟨seen, hf, hpolled⟩ := settled s mode ops events (h := h) rfl
  have hseen : ∀ i < s.size, seen i = logOf i := fun i hi => (hpolled i hi).1
  have hreal : ∀ a ∈ h.observer.divergences, a.first.1 < s.size ∧ a.other.1 < s.size := by
    intro a ha
    obtain ⟨w, hw, x, hx, -, -, hfirst, hother⟩ := observe_sound ha
    rw [hfirst, hother]
    exact ⟨hf.within w hw, hf.within x hx⟩
  refine ⟨fun i hi => ?_, fun a ha => ?_, fun now budget st hst => ?_, fun hfull i hi j hj n hni hnj hdiff => ?_⟩
  · obtain ⟨-, x, hx, hr, hstate⟩ := hpolled i hi
    have hmem : x ∈ h.samples.filter fun s => s.replica == i := List.mem_filter.2 ⟨hx, beq_iff_eq.2 hr⟩
    obtain ⟨y, hy⟩ := exists_peak (List.ne_nil_of_mem hmem)
    obtain ⟨view, hview, hlatest, -⟩ := peak_entry hy
    have hlookup : h.observer.replicas.lookup i = some view := List.mem_dlookup (AList.nodupKeys _) hview
    refine ⟨view, hlookup, ?_, fun hfull => ?_⟩
    · rw [hlatest, hf.latest hy hx hr hstate, hseen i hi]
    · rw [observer, replicas_lookup] at hlookup
      rcases hf.views hfull i hi with ⟨hnone, -⟩ | ⟨first, view', hfirst, hn, hview', hshows⟩
      · rw [hnone] at hlookup
        exact absurd hlookup (by simp)
      · rw [hview'] at hlookup
        obtain rfl := Option.some.inj hlookup
        exact ⟨first, hfirst, hn, hseen i hi ▸ hshows⟩
  · obtain ⟨hfirst, hother⟩ := hreal a ha
    have h := hf.truthful.real ha
    rwa [hseen _ hfirst, hseen _ hother] at h
  · obtain ⟨x, y, hx, hy, -, hlt, -, heq⟩ := (stalls_exact h.samples now budget).1 st |>.1 hst
    obtain ⟨hxmem, hxr⟩ := List.mem_filter.1 hx.mem
    have hxr : x.replica = st.replica := beq_iff_eq.1 hxr
    have hst' : st.replica < s.size := hxr ▸ hf.within x hxmem
    obtain ⟨-, z, hz, hzr, hzstate⟩ := hpolled st.replica hst'
    have hxstate := hf.latest hx hz hzr hzstate
    obtain ⟨part, hpart, hystate⟩ := hf.truthful y hy
    have hylt := hf.within y hy
    rw [hxstate, hystate, ChainState.fromLog_n, ChainState.fromLog_n] at hlt
    have hstuck : st.stuckAt = x.state := by rw [heq]
    refine ⟨?_, y.replica, hylt, ?_⟩
    · rw [hstuck, hxstate, hseen _ hst']
    · show (logOf st.replica).length < (logOf y.replica).length
      rw [← hseen _ hst', ← hseen _ hylt]
      exact hlt.trans_le hpart.length_le
  · have hpos : 0 < n := by
      rcases Nat.eq_zero_or_pos n with rfl | hpos
      · exact absurd rfl hdiff
      · exact hpos
    obtain ⟨x, hx, hxr, hxstate⟩ := hf.dense hfull i hi n hpos (by rw [hseen i hi]; exact hni)
    obtain ⟨y, hy, hyr, hystate⟩ := hf.dense hfull j hj n hpos (by rw [hseen j hj]; exact hnj)
    rw [hseen i hi] at hxstate
    rw [hseen j hj] at hystate
    have hxn : x.state.n = n := by rw [hxstate, ChainState.fromLog_n, List.length_take_of_le hni]
    have hyn : y.state.n = n := by rw [hystate, ChainState.fromLog_n, List.length_take_of_le hnj]
    have hconflict : Conflict x y := by
      refine ⟨fun hsame => hdiff ?_, hxn.trans hyn.symm, ?_⟩
      · rw [← hxr, ← hyr, hsame]
      · rw [hxstate, hystate]
        exact hdiff
    obtain ⟨a, ha, hat⟩ := hf.truthful.conflict_reported hx hy hconflict
    exact ⟨a, ha, hat.trans hxn⟩

/-- the run in which a restart splits the log, under the harness -/
def splitUnderHarness : List HarnessOp :=
  ([.put 0 0 0 10, .put 1 0 0 11, .put 2 0 0 12].map fun c => .target (.submit c)) ++
    settle ((Smr.beforeCrash ++ Smr.afterRestart).filterMap fun
      | .env op => some op
      | .submit _ _ => none)

example : (run (.leader 3 none) .fullPrefix splitUnderHarness).observer.divergences.map (·.n) = [1] := by
  decide +kernel

/-! ### Where the logs agree -/

/-- a step that the environment takes in the target is covered -/
def Fair (h : Harness) : HarnessOp → Prop
  | .target (.env op) => Smr.CoveredStep h.target.cluster (.env op)
  | _ => True

instance (h : Harness) (op : HarnessOp) : Decidable (Fair h op) := by
  unfold Fair
  split <;> infer_instance

section Quiet

variable {size : ℕ} {h : Harness} {op : HarnessOp}

theorem spread_target (hsane : Smr.Sane size h.target.cluster) (hs : Smr.Spread size h.target.cluster) (hfair : Fair h op) :
    Smr.Spread size (h.step op).target.cluster := by
  cases op with
  | poll => exact hs
  | target op =>
    cases op with
    | env op => exact Smr.spread_step hsane hs hfair
    | submit command =>
      show Smr.Spread size (h.target.submit command).cluster
      unfold SimCluster.submit
      split
      · exact hs
      · rename_i replica _
        have hcov : Smr.CoveredStep h.target.cluster (.submit replica (command.retag (h.target.seq + 1))) := trivial
        exact Smr.spread_step hsane hs hcov

theorem steady_target (hs : Smr.Steady size h.target.cluster) (hop : op.restarts = false) :
    Smr.Steady size (h.step op).target.cluster := by
  cases op with
  | poll => exact hs
  | target op =>
    cases op with
    | env op =>
      have hnone : Smr.restarted (.env op) = none := by
        cases op <;> first | rfl | exact absurd hop (by simp [HarnessOp.restarts])
      exact Smr.steady_step hs hnone
    | submit command =>
      show Smr.Steady size (h.target.submit command).cluster
      unfold SimCluster.submit
      split
      · exact hs
      · rename_i replica _
        have hnone : Smr.restarted (.submit replica (command.retag (h.target.seq + 1))) = none := rfl
        exact Smr.steady_step hs hnone

end Quiet

/-- **The observer reports no divergence**, in any mode, of a cluster whose steps are covered or whose replicas are not
restarted. -/
theorem conformance_quiet (s : Smr.Setup) (mode : Observability) (ops : List HarnessOp)
    (hguard : Runs.Along step Fair (new s mode) ops ∨ ∀ op ∈ ops, op.restarts = false) :
    (run s mode ops).observer.divergences = [] := by
  obtain ⟨seen, hf⟩ := watched_run s mode ops
  have hspread : Smr.Spread s.size (run s mode ops).target.cluster := by
    rcases hguard with hfair | hrestart
    · let I : Harness → Prop := fun h => Smr.Sane s.size h.target.cluster ∧ Smr.Spread s.size h.target.cluster
      have hstep : ∀ h op, I h → Fair h op → I (h.step op) := by
        rintro h op ⟨hsane, hs⟩ hop
        refine ⟨?_, spread_target hsane hs hop⟩
        cases op with
        | poll => exact hsane
        | target op => exact (target_step hsane op).1
      exact (Runs.run_invariant hstep ⟨Smr.sane_cluster s, Smr.spread_cluster s⟩ hfair).2
    · have hsteady : Smr.Steady s.size (run s mode ops).target.cluster :=
        Runs.run_invariant (I := fun h : Harness => Smr.Steady s.size h.target.cluster)
          (fun _ op hs hop => steady_target hs (hrestart op hop)) (Smr.steady_cluster s) (Runs.along_mem ..)
      exact hsteady.spread
  refine hf.truthful.quiet fun i j n hi hj => ?_
  apply List.ext_getElem?
  intro k
  by_cases hk : k < n
  · have hread : ∀ i, n ≤ (seen i).length → ((seen i).take n)[k]? = ((run s mode ops).target.cluster.appliedLog i)[k]? ∧
        k < (run s mode ops).target.cluster.nextSlot i := by
      intro i hle
      obtain ⟨more, hmore⟩ := hf.grown i
      rw [List.getElem?_take_of_lt hk, ← hf.sane.length_eq, ← hmore, List.getElem?_append_left (hk.trans_le hle)]
      exact ⟨rfl, by simp; omega⟩
    rw [(hread i hi).1, (hread j hj).1]
    exact hf.sane.logs_agree hspread (hread i hi).2 (hread j hj).2
  · rw [List.getElem?_eq_none (by simp; omega), List.getElem?_eq_none (by simp; omega)]

/-- the leader decides the command; replica 1 crashes, restarts, and learns it by its probe -/
def decidedAndLearned : List (EnvOp (NodeId → Draw)) :=
  [.tick 1, .fire 0 (drawing 1)] ++ [0, 0, 1, 1].map (fun k => .deliver k (drawing 1)) ++
    [.crash 1, .restart 1 (drawing 1)] ++ [1, 1, 2, 2].map (fun k => .deliver k (drawing 1))

def learnedThenConverged : List HarnessOp :=
  drive ⟨1, 1⟩ SimCluster.oneClient (fun _ => decidedAndLearned) [] ++
    converge 3 1 SimCluster.oneClient.nextCommand.2 (fun _ => [])

theorem conformance_quiet_learned :
    let h := run (.leader 3 (some 0)) .fullPrefix learnedThenConverged
    h.samples.map (fun s => (s.replica, s.state.n)) = [(0, 1), (1, 1), (2, 0), (0, 1), (1, 1), (2, 0), (0, 1), (1, 1), (2, 0)] ∧
      h.observer.divergences = [] := by
  refine ⟨by decide +kernel, conformance_quiet (.leader 3 (some 0)) .fullPrefix _ (.inl ?_)⟩
  decide +kernel

end Harness

end Queso
