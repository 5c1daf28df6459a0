/-
The deployed cluster under the eyes of the harness: every process folds its own chain, and the harness asks for it and
compares what it gets.

A live process folds what it has applied, after its boot and after each batch. The report it serves is written when it is
asked for, also in the middle of a pass, when the table holds checkpoints that the published frontier has not reached. A
process that goes down takes its table with it, and the next boot folds its log from the start; the harness keeps its
cursors and all that it has seen.

`history` lists the steps of the processes. No step reads it.

- `shown_step`: all that the harness has seen of a replica are chain states of the log on its disk.
- `alarm_exact`: so a divergence is reported exactly when two samples are in conflict, it is one between logs on disk, and
  none that the polls came in time for is missed.
- `no_false_alarm`: none is reported where the cluster has one log.
-/
import Queso.Conformance.Polling
import Queso.Conformance.Verdict
import Queso.Net.Accord

namespace Queso.Net

open Chain Observer

/-- the chain of a live process -/
structure Hook where
  chain : ChainFolder × ChainCheckpoints
  /-- the commands of the current pass that have not been folded -/
  unfolded : Option (List Command)

namespace Hook

def boot (every : ℕ) : Hook := ⟨ChainFolder.boot every, none⟩

/-- a pass begins -/
def start (nd : SmrNode) (h : Hook) : Hook := { h with unfolded := some (nd.appliedFrom h.chain.1.state.n) }

/-- a pass folds its next command, or ends -/
def advance (h : Hook) : Hook :=
  match h.unfolded with
  | none => h
  | some [] => ⟨ChainFolder.publish h.chain, none⟩
  | some (c :: rest) => ⟨ChainFolder.foldCommand h.chain c, some rest⟩

end Hook

structure Monitored where
  cluster : Cluster
  history : List ClusterOp
  hooks : NodeId → Hook
  /-- the highest checkpoint of each replica that became a sample -/
  emitted : NodeId → ℕ
  samples : List Sample

inductive MonitorOp where
  | process (o : ClusterOp)
  /-- the pass of a live process goes on -/
  | fold (i : NodeId)
  | poll (replica : NodeId) (observedAt : ℕ)

namespace Monitored

def blank : Monitored := ⟨.blank, [], fun _ => .boot 0, fun _ => 0, []⟩

/-- a process takes a batch between its passes, and can be killed at any time -/
def ready (m : Monitored) (o : ClusterOp) : Bool :=
  match o.op with
  | .boot _ _ _ _ => (m.cluster o.id).running.isNone
  | .batch _ _ _ => (m.cluster o.id).running.isSome && (m.hooks o.id).unfolded.isNone
  | .kill => true

/-- the chain of a process after a step: a boot starts from the genesis -/
def hooked (every : ℕ) (p p' : Process) (h : Hook) : Hook :=
  match p'.running with
  | none => h
  | some r => (if p.running.isSome then h else .boot every).start r.node

def step (fromStr : List Char → Option Json) (b : Bincode) (d : Deployment) (every : NodeId → ℕ) (m : Monitored) :
    MonitorOp → Monitored
  | .process o =>
    if m.ready o then
      let c := m.cluster.step b d o
      { m with
        cluster := c
        history := m.history ++ [o]
        hooks := Function.update m.hooks o.id (hooked (every o.id) (m.cluster o.id) (c o.id) (m.hooks o.id)) }
    else m
  | .fold i =>
    if (m.cluster i).running.isSome then { m with hooks := Function.update m.hooks i (m.hooks i).advance } else m
  | .poll replica observedAt =>
    if (m.cluster replica).running.isSome then
      -- a report that does not parse is as if there was none
      match parseChain fromStr (m.hooks replica).chain.2.toJson with
      | none => m
      | some report =>
        let r := samplesFromChain replica observedAt report.frontier report.checkpoints (m.emitted replica)
        { m with emitted := Function.update m.emitted replica r.2, samples := m.samples ++ r.1 }
    else m

abbrev run (fromStr : List Char → Option Json) (b : Bincode) (d : Deployment) (every : NodeId → ℕ)
    (ops : List MonitorOp) : Monitored :=
  Runs.run (step fromStr b d every) blank ops

/-- the log on the disk of a replica -/
def logOf (m : Monitored) (i : NodeId) : List Command := (onDisk (m.cluster i).saves).appliedLog

/-- a poll comes before the table drops a checkpoint that the harness has not seen -/
def InTime (every : NodeId → ℕ) (m : Monitored) : MonitorOp → Prop
  | .poll i _ => (m.cluster i).running.isSome = true →
      (m.hooks i).chain.1.state.n / max (every i) 1 ≤ m.emitted i / max (every i) 1 + CHECKPOINT_RING_CAPACITY
  | _ => True

instance (every : NodeId → ℕ) (m : Monitored) (op : MonitorOp) : Decidable (InTime every m op) := by
  unfold InTime; cases op <;> infer_instance

end Monitored

/-! ## The chain of a process -/

/-- what a live process has folded and what is left of its pass are the log, and it has published some of it -/
structure Hook.Follows (every : ℕ) (log : List Command) (h : Hook) : Prop where
  folded : ∃ done, Folded every done h.chain ∧ done ++ h.unfolded.getD [] = log
  frontier : ∃ shown, shown <+: log ∧ h.chain.2.published.frontier = .fromLog shown

section Hook

variable {every : ℕ} {log : List Command} {h : Hook}

theorem follows_boot (every : ℕ) : (Hook.boot every).Follows every [] where
  folded := ⟨[], folded_boot every, rfl⟩
  frontier := ⟨[], List.prefix_rfl, rfl⟩

theorem Hook.Follows.start (hf : h.Follows every log) (hdone : h.unfolded = none) {nd : SmrNode}
    (hgrow : log <+: nd.durable.appliedLog) : (h.start nd).Follows every nd.durable.appliedLog := by
  obtain ⟨done, hfolded, hlog⟩ := hf.folded
  obtain ⟨shown, hshown, hfrontier⟩ := hf.frontier
  rw [hdone, Option.getD_none, List.append_nil] at hlog
  subst hlog
  refine ⟨⟨done, hfolded, ?_⟩, ⟨shown, hshown.trans hgrow, hfrontier⟩⟩
  obtain ⟨fresh, hfresh⟩ := hgrow
  show done ++ nd.appliedFrom h.chain.1.state.n = nd.durable.appliedLog
  unfold SmrNode.appliedFrom
  rw [hfolded.state, ChainState.fromLog_n, ← hfresh, List.length_append, min_eq_left (Nat.le_add_right _ _),
    List.drop_left]

theorem Hook.Follows.advance (hf : h.Follows every log) : h.advance.Follows every log := by
  obtain ⟨done, hfolded, hlog⟩ := hf.folded
  obtain ⟨shown, hshown, hfrontier⟩ := hf.frontier
  unfold Hook.advance
  match hu : h.unfolded with
  | none => exact hf
  | some [] =>
    rw [hu, Option.getD_some, List.append_nil] at hlog
    subst hlog
    exact ⟨⟨done, hfolded.publish, by simp⟩, ⟨done, List.prefix_rfl, hfolded.state⟩⟩
  | some (c :: rest) =>
    rw [hu, Option.getD_some] at hlog
    refine ⟨⟨done ++ [c], hfolded.foldCommand c, ?_⟩, ⟨shown, hshown, (foldCommand_frontier h.chain c).trans hfrontier⟩⟩
    simpa using hlog

/-- what the process can be asked for is of 64 bits -/
theorem Hook.Follows.fits (hf : h.Follows every log) (hevery : every < 2 ^ 64) (hlog : log.length < 2 ^ 64) :
    Fits h.chain.2 := by
  obtain ⟨done, hfolded, rfl⟩ := hf.folded
  obtain ⟨shown, hshown, hfrontier⟩ := hf.frontier
  have hdone : done.length < 2 ^ 64 := (List.prefix_append done _).length_le.trans_lt hlog
  refine ⟨?_, ?_, fun s hs => ?_⟩
  · rw [hfolded.sinkSpacing]
    exact max_lt hevery (by decide)
  · rw [hfrontier, ChainState.fromLog_n]
    exact hshown.length_le.trans_lt hlog
  · rw [hfolded.table] at hs
    exact (checkpoints_n_le (List.mem_of_mem_drop hs)).trans_lt hdone

end Hook

/-! ## What the harness is shown -/

theorem mem_emitted {replica : NodeId} {observedAt : ℕ} (l : List ChainState) {out : List Sample} {cursor : ℕ} {s : Sample}
    (hs : s ∈ (l.foldl (emitCheckpoint replica observedAt) (out, cursor)).1) :
    s ∈ out ∨ s.replica = replica ∧ s.state ∈ l := by
  induction l generalizing out cursor with
  | nil => exact .inl hs
  | cons c l ih =>
    rw [List.foldl_cons, emitCheckpoint] at hs
    split_ifs at hs with hpast
    · rcases ih hs with hout | ⟨hr, hmem⟩
      · rcases List.mem_append.1 hout with hout | hnew
        · exact .inl hout
        · obtain rfl := List.mem_singleton.1 hnew
          exact .inr ⟨rfl, List.mem_cons_self⟩
      · exact .inr ⟨hr, List.mem_cons_of_mem _ hmem⟩
    · exact (ih hs).imp_right fun h => ⟨h.1, List.mem_cons_of_mem _ h.2⟩

/-- a sample is a state of the report that it was made from -/
theorem mem_samplesFromChain {replica : NodeId} {observedAt : ℕ} {frontier : ChainState} {checkpoints : List ChainState}
    {cursor : ℕ} {s : Sample} (hs : s ∈ (samplesFromChain replica observedAt frontier checkpoints cursor).1) :
    s.replica = replica ∧ (s.state ∈ checkpoints ∨ s.state = frontier) := by
  rcases List.mem_append.1 hs with hs | hs
  · rcases mem_emitted checkpoints hs with hs | ⟨hr, hmem⟩
    · exact absurd hs List.not_mem_nil
    · exact ⟨hr, .inl hmem⟩
  · obtain rfl := List.mem_singleton.1 hs
    exact ⟨rfl, .inr rfl⟩

/-- a checkpoint is the state of a first part of the log -/
theorem checkpoints_prefix_state {every : ℕ} {log : List Command} {s : ChainState} (hs : s ∈ checkpoints every log) :
    ∃ part, part <+: log ∧ s = .fromLog part := by
  obtain ⟨i, -, rfl⟩ := List.mem_map.1 hs
  exact ⟨_, List.take_prefix _ _, rfl⟩

/-- all that the harness has seen of a replica are chain states of the log on its disk -/
structure Shown (b : Bincode) (every : NodeId → ℕ) (m : Monitored) : Prop where
  sound : ∀ i, Sound b (m.cluster i)
  hooks : ∀ i, (m.cluster i).running.isSome = true → (m.hooks i).Follows (every i) (m.logOf i)
  samples : Truthful m.logOf m.samples

section Run

variable {fromStr : List Char → Option Json} {b : Bincode} {d : Deployment} {every : NodeId → ℕ} {m : Monitored}

theorem shown_blank (b : Bincode) (every : NodeId → ℕ) : Shown b every .blank where
  sound := fun _ => sound_blank b
  hooks := fun _ h => absurd h (by simp [Monitored.blank, Cluster.blank, Process.blank])
  samples := fun _ hs => absurd hs List.not_mem_nil

/-- a process steps, or none does -/
theorem Monitored.step_cluster (fromStr : List Char → Option Json) (b : Bincode) (d : Deployment) (every : NodeId → ℕ)
    (m : Monitored) (op : MonitorOp) :
    (m.step fromStr b d every op).cluster = m.cluster ∧ (m.step fromStr b d every op).history = m.history ∨
      ∃ o, (m.step fromStr b d every op).cluster = m.cluster.step b d o ∧
        (m.step fromStr b d every op).history = m.history ++ [o] := by
  cases op with
  | process o =>
    unfold Monitored.step
    dsimp only
    split_ifs
    · exact .inr ⟨o, rfl, rfl⟩
    · exact .inl ⟨rfl, rfl⟩
  | fold i =>
    left
    unfold Monitored.step
    dsimp only
    split_ifs <;> exact ⟨rfl, rfl⟩
  | poll replica observedAt =>
    left
    unfold Monitored.step
    dsimp only
    split_ifs
    · split <;> exact ⟨rfl, rfl⟩
    · exact ⟨rfl, rfl⟩

theorem Monitored.run_history (fromStr : List Char → Option Json) (b : Bincode) (d : Deployment) (every : NodeId → ℕ)
    (ops : List MonitorOp) : (run fromStr b d every ops).cluster = Cluster.run b d (run fromStr b d every ops).history := by
  induction ops using List.reverseRecOn with
  | nil => rfl
  | append_singleton ops op ih =>
    rw [run, Runs.run_snoc]
    rcases step_cluster fromStr b d every (run fromStr b d every ops) op with ⟨hc, hh⟩ | ⟨o, hc, hh⟩
    · rw [hc, hh]
      exact ih
    · rw [hc, hh, Cluster.run, Runs.run_snoc]
      exact congrArg (fun c => Cluster.step b d c o) ih

/-- the logs on disk only grow -/
theorem Monitored.grows (hb : b.RoundTrips) {i : NodeId} (h : Sound b (m.cluster i)) (fromStr : List Char → Option Json)
    (d : Deployment) (every : NodeId → ℕ) (op : MonitorOp) :
    Sound b ((m.step fromStr b d every op).cluster i) ∧ m.logOf i <+: (m.step fromStr b d every op).logOf i := by
  unfold Monitored.logOf
  rcases Monitored.step_cluster fromStr b d every m op with ⟨hc, -⟩ | ⟨o, hc, -⟩
  · rw [hc]
    exact ⟨h, List.prefix_rfl⟩
  · rw [hc, Cluster.step]
    by_cases hi : i = o.id
    · subst hi
      rw [Function.update_self]
      obtain ⟨hsound, hgrows⟩ := sound_step (d.config o.id) hb h o.op
      exact ⟨hsound, hgrows.log⟩
    · rw [Function.update_of_ne hi]
      exact ⟨h, List.prefix_rfl⟩

/-- the chain of a process after a step -/
theorem Shown.hooked (h : Shown b every m) (hb : b.RoundTrips) (d : Deployment) {o : ClusterOp} (hready : m.ready o = true)
    {p' : Process} (hp' : p' = (m.cluster o.id).step b (d.config o.id) o.op) (hup : p'.running.isSome = true) :
    (Monitored.hooked (every o.id) (m.cluster o.id) p' (m.hooks o.id)).Follows (every o.id)
      (onDisk p'.saves).appliedLog := by
  obtain ⟨hsound, hgrows⟩ := sound_step (d.config o.id) hb (h.sound o.id) o.op
  rw [← hp'] at hsound hgrows
  obtain ⟨r, hr⟩ := Option.isSome_iff_exists.1 hup
  have hdisk : r.node.durable = onDisk p'.saves := (hsound.running r hr).2.1
  unfold Monitored.hooked
  rw [hr]
  dsimp only
  rw [← hdisk]
  split_ifs with hbefore
  · -- it was up, so it ran a batch, and its passes had ended
    have hidle : (m.hooks o.id).unfolded = none := by
      unfold Monitored.ready at hready
      match hop : o.op with
      | .boot _ _ _ _ =>
        rw [hop] at hready
        rw [Option.isNone_iff_eq_none.1 hready] at hbefore
        exact absurd hbefore (by simp)
      | .batch _ _ _ =>
        rw [hop] at hready
        exact Option.isNone_iff_eq_none.1 (Bool.and_eq_true_iff.1 hready).2
      | .kill =>
        rw [hp', hop] at hr
        exact absurd hr (by simp [Process.step])
    exact (h.hooks o.id hbefore).start hidle (hdisk ▸ hgrows.log)
  · exact (follows_boot _).start rfl List.nil_prefix

/-- the report of a live process is read as it was written -/
theorem Shown.poll (h : Shown b every m) (hread : Json.Reads fromStr) (hevery : ∀ i, every i < 2 ^ 64)
    (hlogs : ∀ i, (m.logOf i).length < 2 ^ 64) (d : Deployment) {replica : NodeId}
    (hlive : (m.cluster replica).running.isSome = true) (observedAt : ℕ) {r : List Sample × ℕ}
    (hr : r = samplesFromChain replica observedAt (m.hooks replica).chain.2.published.frontier
      (m.hooks replica).chain.2.published.table (m.emitted replica)) :
    m.step fromStr b d every (.poll replica observedAt) =
      { m with emitted := Function.update m.emitted replica r.2, samples := m.samples ++ r.1 } := by
  have hparse := parseChain_toJson hread ((h.hooks replica hlive).fits (hevery replica) (hlogs replica))
  subst hr
  unfold Monitored.step
  dsimp only
  rw [if_pos hlive, hparse]

/-- **Step lemma.** Whatever a step does, the harness is shown chain states of logs on disk. -/
theorem shown_step (hread : Json.Reads fromStr) (hb : b.RoundTrips) (hevery : ∀ i, every i < 2 ^ 64)
    (h : Shown b every m) (hlogs : ∀ i, (m.logOf i).length < 2 ^ 64) (op : MonitorOp) :
    Shown b every (m.step fromStr b d every op) := by
  have hgrows := fun i => Monitored.grows hb (h.sound i) fromStr d every op
  have hold : Truthful (m.step fromStr b d every op).logOf m.samples := by
    intro s hs
    obtain ⟨part, hpart, hstate⟩ := h.samples s hs
    exact ⟨part, hpart.trans (hgrows s.replica).2, hstate⟩
  refine ⟨fun i => (hgrows i).1, fun i hup => ?_, fun s hs => ?_⟩
  · cases op with
    | process o =>
      unfold Monitored.step at hup ⊢
      dsimp only at hup ⊢
      split_ifs at hup ⊢ with hready
      · unfold Monitored.logOf
        dsimp only at hup ⊢
        by_cases hi : i = o.id
        · subst hi
          rw [Cluster.step, Function.update_self] at hup ⊢
          rw [Function.update_self]
          exact h.hooked hb d hready rfl hup
        · rw [Cluster.step, Function.update_of_ne hi] at hup ⊢
          rw [Function.update_of_ne hi]
          exact h.hooks i hup
      · exact h.hooks i hup
    | fold j =>
      unfold Monitored.step at hup ⊢
      dsimp only at hup ⊢
      split_ifs at hup ⊢ with hj
      · by_cases hi : i = j
        · subst hi
          dsimp only
          rw [Function.update_self]
          exact (h.hooks i hj).advance
        · dsimp only
          rw [Function.update_of_ne hi]
          exact h.hooks i hup
      · exact h.hooks i hup
    | poll replica observedAt =>
      unfold Monitored.step at hup ⊢
      dsimp only at hup ⊢
      split_ifs at hup ⊢ with hj
      · split at hup <;> exact h.hooks i hup
      · exact h.hooks i hup
  · cases op with
    | process o =>
      apply hold s
      unfold Monitored.step at hs
      dsimp only at hs
      split_ifs at hs <;> exact hs
    | fold j =>
      apply hold s
      unfold Monitored.step at hs
      dsimp only at hs
      split_ifs at hs <;> exact hs
    | poll replica observedAt =>
      by_cases hlive : (m.cluster replica).running.isSome = true
      · have hfollows := h.hooks replica hlive
        have hparse := parseChain_toJson hread (hfollows.fits (hevery replica) (hlogs replica))
        have hsamples : (m.step fromStr b d every (.poll replica observedAt)).samples = m.samples ++
            (samplesFromChain replica observedAt (m.hooks replica).chain.2.published.frontier
              (m.hooks replica).chain.2.published.table (m.emitted replica)).1 := by
          unfold Monitored.step
          dsimp only
          rw [if_pos hlive, hparse]
        rw [hsamples] at hs
        rcases List.mem_append.1 hs with hs | hs
        · exact hold s hs
        · obtain ⟨hr, hstate⟩ := mem_samplesFromChain hs
          have hlog := (hgrows replica).2
          rw [hr]
          rcases hstate with hmem | hfrontier
          · obtain ⟨done, hfolded, hdone⟩ := hfollows.folded
            rw [hfolded.table] at hmem
            obtain ⟨part, hpart, hpst⟩ := checkpoints_prefix_state (List.mem_of_mem_drop hmem)
            exact ⟨part, (hpart.trans ⟨_, hdone⟩).trans hlog, hpst⟩
          · obtain ⟨shown, hshown, hsh⟩ := hfollows.frontier
            exact ⟨shown, hshown.trans hlog, hfrontier.trans hsh⟩
      · apply hold s
        unfold Monitored.step at hs
        dsimp only at hs
        rwa [if_neg hlive] at hs

theorem Monitored.run_sound (hb : b.RoundTrips) (fromStr : List Char → Option Json) (d : Deployment)
    (every : NodeId → ℕ) (ops : List MonitorOp) (i : NodeId) : Sound b ((run fromStr b d every ops).cluster i) :=
  Runs.run_invariant (I := fun m : Monitored => Sound b (m.cluster i)) (P := fun _ _ => True)
    (fun _ op h _ => (Monitored.grows hb h fromStr d every op).1) (sound_blank b) (Runs.along_true ..)

/-- the logs on disk were no longer before a step -/
theorem Monitored.shorter_before (hb : b.RoundTrips) {ops : List MonitorOp} {op : MonitorOp} {bound : ℕ}
    (hlogs : ∀ i, ((run fromStr b d every (ops ++ [op])).logOf i).length < bound) (i : NodeId) :
    ((run fromStr b d every ops).logOf i).length < bound := by
  have hlast := hlogs i
  rw [run, Runs.run_snoc, ← run] at hlast
  exact (Monitored.grows hb (run_sound hb fromStr d every ops i) fromStr d every op).2.length_le.trans_lt hlast

/-- **Run lemma.** -/
theorem shown_run (hread : Json.Reads fromStr) (hb : b.RoundTrips) (hevery : ∀ i, every i < 2 ^ 64)
    (ops : List MonitorOp) (hlogs : ∀ i, ((Monitored.run fromStr b d every ops).logOf i).length < 2 ^ 64) :
    Shown b every (Monitored.run fromStr b d every ops) := by
  induction ops using List.reverseRecOn with
  | nil => exact shown_blank b every
  | append_singleton ops op ih =>
    have hbefore := Monitored.shorter_before hb hlogs
    rw [Monitored.run, Runs.run_snoc]
    exact shown_step hread hb hevery (ih hbefore) hbefore op

/-! ## What the harness is told in time -/

/-- every checkpoint up to the cursor of a replica has become a sample of its log -/
structure Told (every : ℕ) (i : NodeId) (m : Monitored) : Prop where
  dvd : max every 1 ∣ m.emitted i
  le : m.emitted i ≤ (m.logOf i).length
  seen : ∀ n, 0 < n → max every 1 ∣ n → n ≤ m.emitted i →
    ∃ s ∈ m.samples, s.replica = i ∧ s.state = .fromLog ((m.logOf i).take n)

theorem told_blank (every : ℕ) (i : NodeId) : Told every i .blank where
  dvd := dvd_zero _
  le := Nat.zero_le _
  seen := fun _ hpos _ hle => absurd hpos (Nat.not_lt.2 hle)

/-- the log grows, and the harness forgets nothing -/
theorem Told.mono {every : ℕ} {i : NodeId} {m m' : Monitored} (h : Told every i m) (hlog : m.logOf i <+: m'.logOf i)
    (hcursor : m'.emitted i = m.emitted i) (hsamples : m.samples ⊆ m'.samples) : Told every i m' := by
  refine ⟨hcursor ▸ h.dvd, hcursor ▸ h.le.trans hlog.length_le, fun n hpos hdvd hle => ?_⟩
  rw [hcursor] at hle
  obtain ⟨s, hs, hr, hstate⟩ := h.seen n hpos hdvd hle
  obtain ⟨more, hmore⟩ := hlog
  refine ⟨s, hsamples hs, hr, ?_⟩
  rw [← hmore, List.take_append_of_le_length (hle.trans h.le)]
  exact hstate

/-- nothing is past the cursor -/
theorem samplesFromChain_passed {replica : NodeId} {observedAt cursor : ℕ} {frontier : ChainState} {l : List ChainState}
    (h : ∀ s ∈ l, s.n ≤ cursor) :
    samplesFromChain replica observedAt frontier l cursor = ([chainSample replica observedAt frontier], cursor) := by
  unfold samplesFromChain
  rw [emit_passed h]
  rfl

/-- a checkpoint of the log by its height -/
theorem mem_checkpoints_drop {every : ℕ} {log : List Command} {n k : ℕ} (hpos : 0 < n) (hdvd : every ∣ n)
    (hle : n ≤ log.length) (hk : k * every < n) : .fromLog (log.take n) ∈ (checkpoints every log).drop k := by
  obtain ⟨q, rfl⟩ := hdvd
  have hevery : 0 < every := Nat.pos_of_mul_pos_right hpos
  have hkq : k < q := Nat.lt_of_mul_lt_mul_left (by rwa [Nat.mul_comm k] at hk)
  have hq : q ≤ log.length / every := (Nat.le_div_iff_mul_le hevery).2 (by rwa [Nat.mul_comm])
  have hat : (checkpoints every log)[q - 1]? = some (.fromLog (log.take (every * q))) := by
    unfold checkpoints
    rw [List.getElem?_map, List.getElem?_range (by omega), Option.map_some, Nat.sub_add_cancel (by omega), Nat.mul_comm]
  have hdrop : ((checkpoints every log).drop k)[q - 1 - k]? = some (.fromLog (log.take (every * q))) := by
    rw [List.getElem?_drop, Nat.add_sub_cancel' (by omega)]
    exact hat
  exact List.mem_of_getElem? hdrop

/-- **Step lemma.** A poll in time tells the harness every checkpoint that was folded. -/
theorem told_step (hread : Json.Reads fromStr) (hb : b.RoundTrips) (hevery : ∀ i, every i < 2 ^ 64)
    (hshown : Shown b every m) (hlogs : ∀ i, (m.logOf i).length < 2 ^ 64) {op : MonitorOp} (htime : m.InTime every op)
    {i : NodeId} (h : Told (every i) i m) : Told (every i) i (m.step fromStr b d every op) := by
  have hgrows := (Monitored.grows hb (hshown.sound i) fromStr d every op).2
  cases op with
  | process o =>
    refine h.mono hgrows ?_ ?_
    · unfold Monitored.step
      dsimp only
      split_ifs <;> rfl
    · unfold Monitored.step
      dsimp only
      split_ifs <;> exact List.Subset.refl _
  | fold j =>
    refine h.mono hgrows ?_ ?_
    · unfold Monitored.step
      dsimp only
      split_ifs <;> rfl
    · unfold Monitored.step
      dsimp only
      split_ifs <;> exact List.Subset.refl _
  | poll replica observedAt =>
    by_cases hlive : (m.cluster replica).running.isSome = true
    · rw [hshown.poll hread hevery hlogs d hlive observedAt rfl] at hgrows ⊢
      by_cases hi : i = replica
      · subst hi
        obtain ⟨k, hk⟩ := h.dvd
        obtain ⟨done, hfolded, hdone⟩ := (hshown.hooks i hlive).folded
        have hpos : 0 < max (every i) 1 := lt_max_of_lt_right Nat.one_pos
        have hroom := htime hlive
        rw [hfolded.state, ChainState.fromLog_n, hk, Nat.mul_div_cancel_left _ hpos] at hroom
        rw [Nat.mul_comm] at hk
        rw [hfolded.table]
        have hprefix : done <+: m.logOf i := ⟨_, hdone⟩
        by_cases hahead : k ≤ done.length / max (every i) 1
        · -- the checkpoints past the cursor are in the table
          rw [hk, samplesFromChain_table hpos hahead hroom]
          refine ⟨?_, ?_, fun n hn hdvd hle => ?_⟩
          · dsimp only
            rw [Function.update_self]
            exact Nat.dvd_mul_left _ _
          · dsimp only
            rw [Function.update_self]
            exact (Nat.div_mul_le_self _ _).trans hprefix.length_le
          · dsimp only at hle ⊢
            rw [Function.update_self] at hle
            by_cases hold : n ≤ m.emitted i
            · obtain ⟨s, hs, hr, hstate⟩ := h.seen n hn hdvd hold
              exact ⟨s, List.mem_append_left _ hs, hr, hstate⟩
            · have hlen : n ≤ done.length := hle.trans (Nat.div_mul_le_self _ _)
              have hmem := mem_checkpoints_drop hn hdvd hlen (hk ▸ not_le.1 hold)
              refine ⟨chainSample i observedAt (.fromLog (done.take n)), ?_, rfl, ?_⟩
              · exact List.mem_append_right _ (List.mem_append_left _ (List.mem_map_of_mem hmem))
              · show ChainState.fromLog (done.take n) = .fromLog ((m.logOf i).take n)
                rw [← hdone, List.take_append_of_le_length hlen]
        · -- the log is folded anew, and has not come to the cursor
          have hpassed : ∀ s ∈ (checkpoints (max (every i) 1) done).drop
              ((checkpoints (max (every i) 1) done).length - CHECKPOINT_RING_CAPACITY), s.n ≤ m.emitted i := by
            intro s hs
            have hn := checkpoints_n_le (List.mem_of_mem_drop hs)
            have hlt := (Nat.div_lt_iff_lt_mul hpos).1 (not_le.1 hahead)
            exact hn.trans (hk ▸ hlt.le)
          rw [samplesFromChain_passed hpassed]
          refine h.mono List.prefix_rfl ?_ (List.subset_append_left _ _)
          dsimp only
          rw [Function.update_self]
      · refine h.mono List.prefix_rfl ?_ (List.subset_append_left _ _)
        dsimp only
        rw [Function.update_of_ne hi]
    · have hsame : m.step fromStr b d every (.poll replica observedAt) = m := by
        unfold Monitored.step
        dsimp only
        rw [if_neg hlive]
      rw [hsame]
      exact h

/-- **Run lemma.** -/
theorem told_run (hread : Json.Reads fromStr) (hb : b.RoundTrips) (hevery : ∀ i, every i < 2 ^ 64)
    (ops : List MonitorOp) (hlogs : ∀ i, ((Monitored.run fromStr b d every ops).logOf i).length < 2 ^ 64)
    (htime : Runs.Along (Monitored.step fromStr b d every) (Monitored.InTime every) .blank ops) (i : NodeId) :
    Told (every i) i (Monitored.run fromStr b d every ops) := by
  induction ops using List.reverseRecOn with
  | nil => exact told_blank _ i
  | append_singleton ops op ih =>
    obtain ⟨hpast, hlast, -⟩ := Runs.along_append.1 htime
    have hbefore := Monitored.shorter_before hb hlogs
    rw [Monitored.run, Runs.run_snoc]
    exact told_step hread hb hevery (shown_run hread hb hevery ops hbefore) hbefore hlast (ih hbefore hpast)

/-! ## The verdict -/

/-- what the harness reports -/
def Monitored.alarms (m : Monitored) : List Divergence := (observeAll m.samples).divergences

/-- **The alarm goes off exactly when it should**, whatever the processes are told and whenever they die: a divergence is
reported iff two samples are in conflict; what is reported is a divergence of two logs on disk; and if every poll came
before its table dropped a checkpoint that was not seen, then logs whose hashes differ at a checkpoint that both replicas
were seen at are reported there. -/
theorem alarm_exact (fromStr : List Char → Option Json) (hread : Json.Reads fromStr) {b : Bincode} (hb : b.RoundTrips)
    (d : Deployment) (every : NodeId → ℕ) (hevery : ∀ i, every i < 2 ^ 64) (ops : List MonitorOp) {m : Monitored}
    (hm : m = Monitored.run fromStr b d every ops) (hlogs : ∀ i, (m.logOf i).length < 2 ^ 64) :
    (m.alarms ≠ [] ↔ ∃ s ∈ m.samples, ∃ t ∈ m.samples, Conflict s t) ∧
    (∀ a ∈ m.alarms, a.n ≤ (m.logOf a.first.1).length ∧ a.n ≤ (m.logOf a.other.1).length ∧
      (m.logOf a.first.1).take a.n ≠ (m.logOf a.other.1).take a.n) ∧
    (Runs.Along (Monitored.step fromStr b d every) (Monitored.InTime every) .blank ops →
      ∀ i j n, 0 < n → max (every i) 1 ∣ n → max (every j) 1 ∣ n → n ≤ m.emitted i → n ≤ m.emitted j →
        (ChainState.fromLog ((m.logOf i).take n)).h ≠ (ChainState.fromLog ((m.logOf j).take n)).h →
          ∃ a ∈ m.alarms, a.n = n) := by
  have hshown : Shown b every m := by
    subst hm
    exact shown_run hread hb hevery ops hlogs
  refine ⟨hshown.samples.reported_iff, fun a ha => hshown.samples.real ha, ?_⟩
  intro htime i j n hpos hi hj hni hnj hdiff
  have htold : ∀ k, Told (every k) k m := by
    subst hm
    exact told_run hread hb hevery ops hlogs htime
  obtain ⟨s, hs, hsr, hsn⟩ := (htold i).seen n hpos hi hni
  obtain ⟨t, ht, htr, htn⟩ := (htold j).seen n hpos hj hnj
  have hheight : ∀ k, n ≤ m.emitted k → (ChainState.fromLog ((m.logOf k).take n)).n = n := fun k hk => by
    rw [ChainState.fromLog_n, List.length_take_of_le (hk.trans (htold k).le)]
  have hconflict : Conflict s t := by
    refine ⟨fun hsame => hdiff ?_, ?_, ?_⟩
    · rw [← hsr, ← htr, hsame]
    · rw [hsn, htn, hheight i hni, hheight j hnj]
    · rw [hsn, htn]
      exact hdiff
  obtain ⟨a, ha, hat⟩ := hshown.samples.conflict_reported hs ht hconflict
  refine ⟨a, ha, ?_⟩
  rw [hat, hsn, hheight i hni]

/-- a replica that took no step has nothing on disk -/
theorem Monitored.logOf_beyond {ops : List MonitorOp} {n : ℕ} (hids : ∀ o ∈ (run fromStr b d every ops).history, o.id < n)
    {i : NodeId} (hi : n ≤ i) : (run fromStr b d every ops).logOf i = [] := by
  unfold logOf
  rw [run_history, unbooted_blank b d fun o ho hid => absurd (hids o ho) (hid ▸ not_lt.2 hi)]
  rfl

end Run

/-- each step of a process, and the passes after it -/
def underWatch (ops : List ClusterOp) : List MonitorOp := ops.flatMap fun o => [.process o, .fold o.id, .fold o.id]

/-- replica `i` proposes, and is told that two recorders hold the leader's proposal of its command -/
def toldToDecide (i : NodeId) (command : Command) : List ClusterOp :=
  [⟨i, .boot none 0 (drawing 1) none⟩, ⟨i, .batch (atBoot (.clientSubmit command)) [atBoot (.timer .kickoff)] none⟩,
    ⟨i, .batch (atBoot (.message 0 (.response (Recorder.new.handle (firstRequest command)).2)))
      [atBoot (.message 1 (.response (Recorder.new.handle (firstRequest command)).2))] none⟩]

/-- two replicas are told of different proposals -/
def splitDecisions : List MonitorOp :=
  underWatch (toldToDecide 0 (.put 2 1 7 9) ++ toldToDecide 1 (.put 3 1 7 8)) ++ [.poll 0 5, .poll 1 6]

/-- the durable state of a replica that applied one command and recorded nothing -/
def appliedOnly (command : Command) : Durable :=
  { Durable.default with kv := (Kv.new.apply command).1, appliedLog := [command], nextSlot := 1 }

theorem alarm_exact_splitDecisions :
    let m := Monitored.run Json.readDocument (.table [⟨appliedOnly (.put 2 1 7 9), 0⟩, ⟨appliedOnly (.put 3 1 7 8), 0⟩])
      Cluster.ledByFirst (fun _ => 1) splitDecisions
    (∃ a ∈ m.alarms, a.n = 1) ∧ ∀ a ∈ m.alarms, (m.logOf a.first.1).take a.n ≠ (m.logOf a.other.1).take a.n := by
  intro m
  have hlogs : ∀ i, (m.logOf i).length < 2 ^ 64 := by
    intro i
    by_cases hi : i < 2
    · interval_cases i <;> decide +kernel
    · rw [Monitored.logOf_beyond (n := 2) (by decide +kernel) (not_lt.1 hi)]
      decide
  obtain ⟨-, hreal, hseen⟩ := alarm_exact Json.readDocument Json.readDocument_reads
    (Bincode.table_roundTrips (by decide)) Cluster.ledByFirst (fun _ => 1) (fun _ => by decide) splitDecisions rfl hlogs
  refine ⟨hseen (by decide +kernel) 0 1 1 (by decide) (by decide) (by decide) ?_ ?_ ?_, fun a ha => (hreal a ha).2.2⟩
  · decide +kernel
  · decide +kernel
  · decide +kernel

section Run

variable {fromStr : List Char → Option Json} {b : Bincode} {d : Deployment} {every : NodeId → ℕ} {m : Monitored}

/-- **No false alarm**: none is raised over a cluster that meets the conditions under which it has one log. -/
theorem no_false_alarm (fromStr : List Char → Option Json) (hread : Json.Reads fromStr) {b : Bincode} (hb : b.RoundTrips)
    (d : Deployment) (every : NodeId → ℕ) (hevery : ∀ i, every i < 2 ^ 64) (ops : List MonitorOp) {m : Monitored}
    (hm : m = Monitored.run fromStr b d every ops) (hlogs : ∀ i, (m.logOf i).length < 2 ^ 64)
    (hadm : Runs.Along (Cluster.step b d) (Cluster.Admits d) .blank m.history)
    (hguard : Cluster.Guarded b d m.history) : m.alarms = [] := by
  have hshown : Shown b every m := by
    subst hm
    exact shown_run hread hb hevery ops hlogs
  have hone : OneLog m.history m.cluster := by
    have hcluster : m.cluster = Cluster.run b d m.history := by
      subst hm
      exact Monitored.run_history ..
    rw [hcluster]
    exact hguard.oneLog hb hadm
  obtain ⟨log, hdisks, -⟩ := hone
  have htake : ∀ i n, n ≤ (m.logOf i).length → (m.logOf i).take n = log.take n := by
    intro i n hle
    obtain ⟨more, hmore⟩ := hdisks i
    rw [← hmore]
    exact (List.take_append_of_le_length hle).symm
  exact hshown.samples.quiet fun i j n hi hj => (htake i n hi).trans (htake j n hj).symm

end Run

/-- the leader decides and is polled, is killed and comes back, and is polled again -/
def polledTwice (command : Command) : List MonitorOp :=
  underWatch (countedFirst command none) ++ [.poll 0 5, .poll 1 5] ++
    underWatch [⟨0, .kill⟩, Cluster.bootFirst] ++ [.fold 0, .poll 0 9]

theorem no_false_alarm_polledTwice :
    let m := Monitored.run Json.readDocument (twoSnapshots (.put 2 1 7 9)) Cluster.ledByFirst (fun _ => 1)
      (polledTwice (.put 2 1 7 9))
    m.samples.map (fun s => (s.replica, s.state.n)) = [(0, 1), (0, 1), (1, 0), (0, 1)] ∧ m.alarms = [] := by
  intro m
  have hlogs : ∀ i, (m.logOf i).length < 2 ^ 64 := by
    intro i
    by_cases hi : i < 2
    · interval_cases i <;> decide +kernel
    · rw [Monitored.logOf_beyond (n := 2) (by decide +kernel) (not_lt.1 hi)]
      decide
  refine ⟨by decide +kernel, no_false_alarm Json.readDocument Json.readDocument_reads
    (Bincode.table_roundTrips (by decide)) Cluster.ledByFirst (fun _ => 1) (fun _ => by decide) (polledTwice (.put 2 1 7 9)) rfl
    hlogs ?_ (.inr ⟨?_, ?_⟩)⟩
  · decide +kernel
  · decide +kernel
  · decide +kernel

end Queso.Net
