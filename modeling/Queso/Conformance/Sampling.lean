/-
What the in-process target observes of its replicas: it reads their applied logs and folds them into chain states.

For each replica the target keeps the chain state that it has folded so far, and at the next poll it folds the commands
after that many. A log that got shorter is folded from the genesis again. A log that was rewritten in place is not: the
target goes on from a state that is no state of it.

- `poll_actual`: one poll, if what was folded is a state of the log that is presented, or the log got shorter.
- `sampled_as_it_is`: all polls of a run in which every log presented continues the last one, or is shorter;
  `sampled_as_it_was` is a run with a log that was rewritten.
-/
import Queso.Conformance.Observer
import Queso.Lib.Runs

namespace Queso

/-- how densely a source reports the chain states that a replica passed through -/
inductive Observability where
  | fullPrefix
  | frontierOnly
  | checkpoints (every : ℕ)
deriving DecidableEq, Repr

namespace Sampling

/-- fold `commands` onto `state`: a sample of each state passed through, and the last state -/
def foldCommands (replica : NodeId) (now : ℕ) : ChainState → List Command → List Sample × ChainState
  | state, [] => ([], state)
  | state, c :: commands =>
    let transition := state.apply c
    let (pending, last) := foldCommands replica now transition.after commands
    (⟨replica, now, transition.after, some transition.commandDigest⟩ :: pending, last)

/-- one pending sample: kept at a multiple of `every`, and then it may be the frontier's -/
def keepCheckpoint (every frontier : ℕ) (r : List Sample × Bool) (sample : Sample) : List Sample × Bool :=
  if sample.state.n % every = 0 then (r.1 ++ [sample], decide (sample.state.n = frontier)) else r

/-- what is reported of the pending samples -/
def emit (observability : Observability) (pending : List Sample) (frontierSample : Sample) : List Sample :=
  match observability with
  | .fullPrefix => if pending.isEmpty then [frontierSample] else pending
  | .checkpoints every =>
    let (samples, emittedFrontier) :=
      pending.foldl (keepCheckpoint (max every 1) frontierSample.state.n) ([], false)
    if emittedFrontier then samples else samples ++ [frontierSample]
  | .frontierOnly => [pending.getLast?.getD frontierSample]

/-- the chain state that the fold of `log` goes on from -/
def resumeFrom (cursor : ChainState) (log : List Command) : ChainState :=
  if log.length < cursor.n then .genesis else cursor

/-- one replica: its samples, and its cursor after them -/
def pollReplica (observability : Observability) (now : ℕ) (replica : NodeId) (cursor : ChainState) (log : List Command) :
    List Sample × ChainState :=
  let start := resumeFrom cursor log
  let (pending, state) := foldCommands replica now start (log.drop (min start.n log.length))
  let frontierSample : Sample := ⟨replica, now, state, pending.getLast?.bind (·.commandDigest)⟩
  (emit observability pending frontierSample, state)

end Sampling

/-- the observing side of the target; its replicas are `0..size` -/
structure Sampler where
  size : ℕ
  observability : Observability
  cursors : AList fun _ : NodeId => ChainState

/-- what a poll finds: the time, and the applied log of each replica -/
structure Presented where
  now : ℕ
  appliedLog : NodeId → List Command

namespace Sampler

open Sampling

def new (size : ℕ) (observability : Observability) : Sampler := ⟨size, observability, ∅⟩

/-- the state folded so far for a replica -/
def cursor (t : Sampler) (replica : NodeId) : ChainState := (t.cursors.lookup replica).getD .genesis

/-- one replica of a poll -/
def sample (p : Presented) (r : List Sample × Sampler) (replica : NodeId) : List Sample × Sampler :=
  let (samples, state) := pollReplica r.2.observability p.now replica (r.2.cursor replica) (p.appliedLog replica)
  (r.1 ++ samples, { r.2 with cursors := r.2.cursors.insert replica state })

/-- `poll_samples` -/
def pollSamples (t : Sampler) (p : Presented) : List Sample × Sampler :=
  (List.range t.size).foldl (sample p) ([], t)

/-- the target after a poll -/
def step (t : Sampler) (p : Presented) : Sampler := (t.pollSamples p).2

/-- the samples that a poll emits for a replica -/
def samplesOf (t : Sampler) (p : Presented) (replica : NodeId) : List Sample :=
  (t.pollSamples p).1.filter fun s => s.replica == replica

end Sampler

/-! ## One replica -/

namespace Sampling

variable {replica : NodeId} {now : ℕ}

/-- the chain state after `commands`, from `state` on -/
def chained (state : ChainState) (commands : List Command) : ChainState :=
  commands.foldl (fun state c => (state.apply c).after) state

theorem chained_n (state : ChainState) (commands : List Command) :
    (chained state commands).n = state.n + commands.length := by
  induction commands generalizing state with
  | nil => rfl
  | cons c commands ih =>
    show (chained (state.apply c).after commands).n = _
    rw [ih, ChainState.apply_n, List.length_cons]
    omega

theorem chained_fromLog (log more : List Command) :
    chained (ChainState.fromLog log) more = ChainState.fromLog (log ++ more) := by
  unfold chained ChainState.fromLog
  rw [List.foldl_append]

theorem foldCommands_last (state : ChainState) (commands : List Command) :
    (foldCommands replica now state commands).2 = chained state commands := by
  induction commands generalizing state with
  | nil => rfl
  | cons c commands ih => exact ih (state.apply c).after

/-- a pending sample is one of the replica, in a state that was passed through -/
theorem foldCommands_passed {state : ChainState} {commands : List Command} {sample : Sample}
    (h : sample ∈ (foldCommands replica now state commands).1) :
    sample.replica = replica ∧ ∃ k ≤ commands.length, sample.state = chained state (commands.take k) := by
  induction commands generalizing state with
  | nil => exact absurd h List.not_mem_nil
  | cons c commands ih =>
    rcases List.mem_cons.1 h with rfl | h
    · exact ⟨rfl, 1, by simp, rfl⟩
    · obtain ⟨hrep, k, hk, hst⟩ := ih h
      exact ⟨hrep, k + 1, by simpa using hk, hst⟩

theorem foldCommands_getLast {state : ChainState} {commands : List Command} {sample : Sample}
    (h : (foldCommands replica now state commands).1.getLast? = some sample) :
    sample.state = chained state commands := by
  induction commands generalizing state with
  | nil => exact absurd h (by simp [foldCommands])
  | cons c commands ih =>
    change (_ :: (foldCommands replica now (state.apply c).after commands).1).getLast? = some sample at h
    rw [List.getLast?_cons] at h
    cases hl : (foldCommands replica now (state.apply c).after commands).1.getLast? with
    | some last =>
      rw [hl] at h
      obtain rfl : last = sample := Option.some.inj h
      exact ih hl
    | none =>
      rw [hl] at h
      obtain rfl := Option.some.inj h
      cases commands with
      | nil => rfl
      | cons d commands => exact absurd (List.getLast?_eq_none_iff.1 hl) (by simp [foldCommands])

/-- the kept samples are pending ones, and the last of them is the frontier's if that was noted -/
theorem keepCheckpoint_kept (every frontier : ℕ) (pending : List Sample) {out : List Sample} {noted : Bool}
    (h : noted = true → ∃ s, out.getLast? = some s ∧ s.state.n = frontier) :
    let r := pending.foldl (keepCheckpoint every frontier) (out, noted)
    (∀ s ∈ r.1, s ∈ out ∨ s ∈ pending) ∧ (r.2 = true → ∃ s, r.1.getLast? = some s ∧ s.state.n = frontier) := by
  induction pending generalizing out noted with
  | nil => exact ⟨fun s hs => .inl hs, h⟩
  | cons sample pending ih =>
    intro r
    by_cases hn : sample.state.n % every = 0
    · have hstep : keepCheckpoint every frontier (out, noted) sample =
          (out ++ [sample], decide (sample.state.n = frontier)) := if_pos hn
      have hnoted : decide (sample.state.n = frontier) = true →
          ∃ s, (out ++ [sample]).getLast? = some s ∧ s.state.n = frontier := fun hd =>
        ⟨sample, List.getLast?_concat, of_decide_eq_true hd⟩
      obtain ⟨hmem, hlast⟩ := ih hnoted
      have hr : r = pending.foldl (keepCheckpoint every frontier) (out ++ [sample],
          decide (sample.state.n = frontier)) := by
        rw [← hstep]
        rfl
      rw [hr]
      refine ⟨fun s hs => ?_, hlast⟩
      rcases hmem s hs with hs | hs
      · rcases List.mem_append.1 hs with hs | hs
        · exact .inl hs
        · exact .inr (List.mem_singleton.1 hs ▸ List.mem_cons_self)
      · exact .inr (List.mem_cons_of_mem _ hs)
    · have hstep : keepCheckpoint every frontier (out, noted) sample = (out, noted) := if_neg hn
      obtain ⟨hmem, hlast⟩ := ih h
      have hr : r = pending.foldl (keepCheckpoint every frontier) (out, noted) := by
        rw [← hstep]
        rfl
      rw [hr]
      exact ⟨fun s hs => (hmem s hs).imp_right (List.mem_cons_of_mem _), hlast⟩

/-- **Every mode ends with the frontier**, and reports pending samples before it -/
theorem emit_frontier (observability : Observability) (frontierSample : Sample) {pending : List Sample}
    (hlast : ∀ s, pending.getLast? = some s → s.state = frontierSample.state)
    (honly : ∀ s ∈ pending, s.state.n = frontierSample.state.n → s.state = frontierSample.state) :
    (∃ s, (emit observability pending frontierSample).getLast? = some s ∧ s.state = frontierSample.state) ∧
      ∀ s ∈ emit observability pending frontierSample, s ∈ pending ∨ s = frontierSample := by
  cases observability with
  | fullPrefix =>
    cases pending with
    | nil => exact ⟨⟨frontierSample, rfl, rfl⟩, fun s hs => .inr (List.mem_singleton.1 hs)⟩
    | cons sample pending =>
      refine ⟨?_, fun s hs => .inl hs⟩
      obtain ⟨s, hs⟩ := Option.isSome_iff_exists.1 (List.getLast?_isSome.2 (List.cons_ne_nil sample pending))
      exact ⟨s, hs, hlast s hs⟩
  | frontierOnly =>
    cases hl : pending.getLast? with
    | none => exact ⟨⟨frontierSample, by simp [emit, hl], rfl⟩, fun s hs => .inr (by simpa [emit, hl] using hs)⟩
    | some sample =>
      refine ⟨⟨sample, by simp [emit, hl], hlast sample hl⟩, fun s hs => .inl ?_⟩
      obtain rfl : s = sample := by simpa [emit, hl] using hs
      exact List.mem_of_getLast? hl
  | checkpoints every =>
    have hnone : false = true → ∃ s, ([] : List Sample).getLast? = some s ∧ s.state.n = frontierSample.state.n := by simp
    obtain ⟨hmem, hnoted⟩ := keepCheckpoint_kept (max every 1) frontierSample.state.n pending hnone
    unfold emit
    dsimp only
    generalize pending.foldl (keepCheckpoint (max every 1) frontierSample.state.n) ([], false) = r at hmem hnoted
    have hkept : ∀ s ∈ r.1, s ∈ pending := fun s hs => (hmem s hs).resolve_left List.not_mem_nil
    split_ifs with hr
    · obtain ⟨s, hs, hn⟩ := hnoted hr
      exact ⟨⟨s, hs, honly s (hkept s (List.mem_of_getLast? hs)) hn⟩, fun s hs => .inl (hkept s hs)⟩
    · refine ⟨⟨frontierSample, List.getLast?_concat, rfl⟩, fun s hs => ?_⟩
      rcases List.mem_append.1 hs with hs | hs
      · exact .inl (hkept s hs)
      · exact .inr (List.mem_singleton.1 hs)

/-- what the cursor holds is a state of the log, or the log got shorter -/
def Continues (cursor : ChainState) (log : List Command) : Prop :=
  log.length < cursor.n ∨ cursor = ChainState.fromLog (log.take cursor.n)

instance (cursor : ChainState) (log : List Command) : Decidable (Continues cursor log) := by
  unfold Continues; infer_instance

theorem resumeFrom_prefix {cursor : ChainState} {log : List Command} (h : Continues cursor log) :
    resumeFrom cursor log = ChainState.fromLog (log.take (resumeFrom cursor log).n) := by
  unfold resumeFrom
  split_ifs with hshort
  · rfl
  · exact h.resolve_left hshort

theorem resumeFrom_le (cursor : ChainState) (log : List Command) : (resumeFrom cursor log).n ≤ log.length := by
  unfold resumeFrom
  split_ifs with hshort
  · exact Nat.zero_le _
  · exact not_lt.1 hshort

/-- the last state of a poll is the one that the new commands chain to -/
theorem pollReplica_last (observability : Observability) (now : ℕ) (replica : NodeId) (cursor : ChainState)
    (log : List Command) :
    let r := pollReplica observability now replica cursor log
    r.2 = chained (resumeFrom cursor log) (log.drop (resumeFrom cursor log).n) ∧
      (∃ s, r.1.getLast? = some s ∧ s.state = r.2) ∧
      ∀ s ∈ r.1, s.replica = replica ∧ ∃ k ≤ (log.drop (resumeFrom cursor log).n).length,
        s.state = chained (resumeFrom cursor log) ((log.drop (resumeFrom cursor log).n).take k) := by
  intro r
  have hmin : min (resumeFrom cursor log).n log.length = (resumeFrom cursor log).n := min_eq_left (resumeFrom_le _ _)
  generalize hst : resumeFrom cursor log = start at hmin
  generalize hnew : log.drop start.n = new
  have hstate : (foldCommands replica now start new).2 = chained start new := foldCommands_last start new
  have hr : r = (emit observability (foldCommands replica now start new).1
      ⟨replica, now, (foldCommands replica now start new).2,
        (foldCommands replica now start new).1.getLast?.bind (·.commandDigest)⟩,
      (foldCommands replica now start new).2) := by
    show pollReplica observability now replica cursor log = _
    unfold pollReplica
    dsimp only
    rw [hst, hmin, hnew]
  -- only the last pending sample is as high as the frontier
  have honly : ∀ s ∈ (foldCommands replica now start new).1, s.state.n = (foldCommands replica now start new).2.n →
      s.state = (foldCommands replica now start new).2 := by
    intro s hs hn
    obtain ⟨-, k, hk, hsk⟩ := foldCommands_passed hs
    rw [hsk, hstate, chained_n, chained_n, List.length_take, min_eq_left hk] at hn
    rw [hsk, hstate, Nat.add_left_cancel hn, List.take_length]
  rw [hr]
  obtain ⟨hlast, hmem⟩ := emit_frontier observability
    ⟨replica, now, (foldCommands replica now start new).2,
      (foldCommands replica now start new).1.getLast?.bind (·.commandDigest)⟩
    (fun s hs => (foldCommands_getLast hs).trans hstate.symm) honly
  refine ⟨hstate, hlast, fun s hs => ?_⟩
  rcases hmem s hs with hs | rfl
  · exact foldCommands_passed hs
  · exact ⟨rfl, new.length, le_refl _, by rw [List.take_length]; exact hstate⟩

end Sampling

/-! ## Every replica -/

namespace Sampler

open Sampling

variable {t : Sampler} {p : Presented}

/-- the replicas of a poll do not touch each other -/
theorem foldl_sample {l : List NodeId} (hl : l.Nodup) (out : List Sample) (t : Sampler) (p : Presented) (i : NodeId) :
    let r := l.foldl (sample p) (out, t)
    r.1.filter (fun s => s.replica == i) = out.filter (fun s => s.replica == i) ++
        (if i ∈ l then (pollReplica t.observability p.now i (t.cursor i) (p.appliedLog i)).1 else []) := by
  intro r
  induction l generalizing out t with
  | nil => exact (List.append_nil _).symm
  | cons j l ih =>
    obtain ⟨hj, hl⟩ := List.nodup_cons.1 hl
    obtain ⟨-, -, hpolled⟩ := pollReplica_last t.observability p.now j (t.cursor j) (p.appliedLog j)
    generalize hp : pollReplica t.observability p.now j (t.cursor j) (p.appliedLog j) = polled at hpolled
    have hr : r = l.foldl (sample p) (out ++ polled.1, { t with cursors := t.cursors.insert j polled.2 }) := by
      rw [← hp]
      rfl
    have hnext := ih hl (out ++ polled.1) { t with cursors := t.cursors.insert j polled.2 }
    rw [hr, hnext, List.filter_append, List.append_assoc]
    congr 1
    by_cases hij : i = j
    · subst hij
      rw [if_neg hj, if_pos List.mem_cons_self, List.append_nil, hp]
      exact List.filter_eq_self.2 fun s hs => beq_iff_eq.2 (hpolled s hs).1
    · have hnone : polled.1.filter (fun s => s.replica == i) = [] :=
        List.filter_eq_nil_iff.2 fun s hs heq => hij ((beq_iff_eq.1 heq).symm.trans (hpolled s hs).1)
      have hcursor : cursor { t with cursors := t.cursors.insert j polled.2 } i = t.cursor i := by
        unfold cursor
        rw [AList.lookup_insert_ne hij]
      rw [hnone, List.nil_append, hcursor]
      simp [hij]

theorem samplesOf_eq {i : NodeId} (hi : i < t.size) :
    t.samplesOf p i = (pollReplica t.observability p.now i (t.cursor i) (p.appliedLog i)).1 := by
  have hnodup : (List.range t.size).Nodup := List.nodup_range
  have h := foldl_sample hnodup [] t p i
  rw [List.filter_nil, List.nil_append, if_pos (List.mem_range.2 hi)] at h
  exact h

/-- every replica's last sample is the state of the log it presents, and each of them a state of some prefix of it -/
def Actual (t : Sampler) (p : Presented) : Prop :=
  ∀ i < t.size, (t.samplesOf p i).getLast?.map Sample.state = some (ChainState.fromLog (p.appliedLog i)) ∧
    ∀ s ∈ t.samplesOf p i, ∃ log, log <+: p.appliedLog i ∧ s.state = ChainState.fromLog log

/-- no log is rewritten below what was folded of it -/
def Kept (t : Sampler) (p : Presented) : Prop := ∀ i < t.size, Continues (t.cursor i) (p.appliedLog i)

/-- **One poll** -/
theorem poll_actual (h : Kept t p) : Actual t p := by
  intro i hi
  rw [samplesOf_eq hi]
  obtain ⟨hlast, ⟨s, hs, hstate⟩, hpassed⟩ :=
    pollReplica_last t.observability p.now i (t.cursor i) (p.appliedLog i)
  have hstart := resumeFrom_prefix (h i hi)
  generalize resumeFrom (t.cursor i) (p.appliedLog i) = start at hlast hpassed hstart
  -- the states passed through are those of the log
  have hchained : ∀ k, chained start ((p.appliedLog i).drop start.n |>.take k) =
      ChainState.fromLog ((p.appliedLog i).take (start.n + k)) := by
    intro k
    rw [List.take_add, ← chained_fromLog, ← hstart]
  refine ⟨?_, fun s' hs' => ?_⟩
  · rw [hs, Option.map_some, hstate, hlast]
    have hall := hchained ((p.appliedLog i).drop start.n).length
    rw [List.take_length, List.take_of_length_le (by rw [List.length_drop]; omega)] at hall
    rw [hall]
  · obtain ⟨-, k, -, hk⟩ := hpassed s' hs'
    exact ⟨_, List.take_prefix _ _, hk.trans (hchained k)⟩

/-- if a poll is right, then the new commands lead from what was folded to the state of the log -/
theorem poll_chained (h : Actual t p) {i : NodeId} (hi : i < t.size) :
    (p.appliedLog i).length < (t.cursor i).n ∨
      chained (t.cursor i) ((p.appliedLog i).drop (t.cursor i).n) = ChainState.fromLog (p.appliedLog i) := by
  obtain ⟨hlast, -⟩ := h i hi
  rw [samplesOf_eq hi] at hlast
  obtain ⟨hstate, ⟨s, hs, hs'⟩, -⟩ := pollReplica_last t.observability p.now i (t.cursor i) (p.appliedLog i)
  by_cases hshort : (p.appliedLog i).length < (t.cursor i).n
  · exact .inl hshort
  · have hstart : resumeFrom (t.cursor i) (p.appliedLog i) = t.cursor i := if_neg hshort
    rw [hs, Option.map_some, Option.some.injEq, hs', hstate, hstart] at hlast
    exact .inr hlast

/-- **The log as it is.** In a run in which what was folded of a log is always a state of the log presented next, or that
one is shorter, every poll is right. And wherever a poll is right, the log is shorter, or its new commands chain what was
folded to its own state. -/
theorem sampled_as_it_is (size : ℕ) (observability : Observability) (polls : List Presented) :
    (Runs.Along step Kept (new size observability) polls → Runs.Along step Actual (new size observability) polls) ∧
      ∀ t p, Actual t p → ∀ i < t.size, (p.appliedLog i).length < (t.cursor i).n ∨
        chained (t.cursor i) ((p.appliedLog i).drop (t.cursor i).n) = ChainState.fromLog (p.appliedLog i) :=
  ⟨fun h => h.imp fun _ _ hkept => poll_actual hkept, fun _ _ hactual _ hi => poll_chained hactual hi⟩

/-- the logs of a single replica, poll by poll -/
def presented (logs : List (List Command)) : List Presented := logs.map fun log => ⟨0, fun _ => log⟩

instance (t : Sampler) (p : Presented) : Decidable (Kept t p) := by unfold Kept; infer_instance

/-- growth, truncation, growth -/
theorem sampled_after_truncation : Runs.Along step Actual (new 1 (.checkpoints 2))
    (presented [[.get 2 1 7, .get 2 2 7], [.get 2 1 8], [.get 2 1 8, .get 2 2 8, .get 2 3 8]]) := by
  refine (sampled_as_it_is 1 (.checkpoints 2) _).1 ?_
  decide +kernel

/-- **A log rewritten in place is sampled as it was.** It is as long as what was folded, so nothing is folded again. -/
theorem sampled_as_it_was : ¬ ∀ size observability polls, Runs.Along step Actual (new size observability) polls := by
  intro h
  have hsecond : Actual ((new 1 .fullPrefix).step ⟨0, fun _ => [.get 2 1 7]⟩) ⟨0, fun _ => [.get 2 1 8]⟩ :=
    (h 1 .fullPrefix (presented [[.get 2 1 7], [.get 2 1 8]])).2.1
  have hlast := (hsecond 0 (by decide)).1
  exact absurd hlast (by decide +kernel)

end Sampler

end Queso
