/-
What a node publishes of its chain: its position, and its hash at fixed heights.

A folder turns the commands that its replica has applied since the last pass into chain states. At every multiple of
the spacing it records the state in a table of bounded size, and at the end of a pass it publishes where it is.

`passes_folded`: after each pass over a log that only grows, the frontier is the chain state of the log and the table
holds its last checkpoints, whatever the passes were.
-/
import Queso.Chain.State
import Queso.Smr.Replica

namespace Queso

/-- what the replica has applied from a slot on -/
def SmrNode.appliedFrom (fromSlot : ℕ) (nd : SmrNode) : List Command :=
  nd.durable.appliedLog.drop (min fromSlot nd.durable.appliedLog.length)

namespace Chain

def CHECKPOINT_RING_CAPACITY : ℕ := 256

structure Published where
  frontier : ChainState
  /-- oldest first -/
  table : List ChainState
  truncated : Bool
deriving DecidableEq

structure ChainCheckpoints where
  every : ℕ
  published : Published
deriving DecidableEq

structure ChainFolder where
  /-- `state.n` is the first slot that has not been folded -/
  state : ChainState
  every : ℕ
deriving DecidableEq

/-! ## Folding -/

namespace ChainCheckpoints

def new (every : ℕ) : ChainCheckpoints := ⟨max every 1, ⟨.genesis, [], false⟩⟩

/-- a full table drops its oldest entry, and says so -/
def record (state : ChainState) (sink : ChainCheckpoints) : ChainCheckpoints :=
  let p := sink.published
  let p := if p.table.length = CHECKPOINT_RING_CAPACITY then { p with table := p.table.tail, truncated := true } else p
  { sink with published := { p with table := p.table ++ [state] } }

def setFrontier (state : ChainState) (sink : ChainCheckpoints) : ChainCheckpoints :=
  { sink with published := { sink.published with frontier := state } }

end ChainCheckpoints

namespace ChainFolder

def new (every : ℕ) : ChainFolder := ⟨.genesis, max every 1⟩

/-- one command of a pass -/
def foldCommand (r : ChainFolder × ChainCheckpoints) (c : Command) : ChainFolder × ChainCheckpoints :=
  let state := (r.1.state.apply c).after
  ({ r.1 with state := state }, if state.n % r.1.every = 0 then r.2.record state else r.2)

/-- the end of a pass -/
def publish (r : ChainFolder × ChainCheckpoints) : ChainFolder × ChainCheckpoints := (r.1, r.2.setFrontier r.1.state)

def fold (r : ChainFolder × ChainCheckpoints) (nd : SmrNode) : ChainFolder × ChainCheckpoints :=
  publish ((nd.appliedFrom r.1.state.n).foldl foldCommand r)

/-- a process from its start, with a fresh folder and a fresh table -/
def boot (every : ℕ) : ChainFolder × ChainCheckpoints := (new every, .new every)

/-- the passes of a process -/
def passes (every : ℕ) (nodes : List SmrNode) : ChainFolder × ChainCheckpoints := nodes.foldl fold (boot every)

end ChainFolder

/-! ## Checkpoints -/

/-- the chain states of a log at the positive multiples of the spacing -/
def checkpoints (every : ℕ) (log : List Command) : List ChainState :=
  (List.range (log.length / every)).map fun i => .fromLog (log.take ((i + 1) * every))

@[simp] theorem checkpoints_length (every : ℕ) (log : List Command) :
    (checkpoints every log).length = log.length / every := by
  simp [checkpoints]

/-- a command adds the checkpoint that it reaches, if any -/
theorem checkpoints_snoc {every : ℕ} (log : List Command) (c : Command) :
    checkpoints every (log ++ [c]) =
      checkpoints every log ++ if every ∣ log.length + 1 then [.fromLog (log ++ [c])] else [] := by
  have hold : ∀ i ∈ List.range (log.length / every),
      (ChainState.fromLog ((log ++ [c]).take ((i + 1) * every))) = .fromLog (log.take ((i + 1) * every)) := by
    intro i hi
    have hle : (i + 1) * every ≤ log.length := (Nat.mul_le_mul_right every (List.mem_range.1 hi)).trans
      (Nat.div_mul_le_self _ _)
    rw [List.take_append_of_le_length hle]
  unfold checkpoints
  rw [List.length_append, List.length_singleton, Nat.succ_div]
  split_ifs with hdvd
  · rw [List.range_succ, List.map_append, List.map_congr_left hold]
    have hdiv : (log.length + 1) / every = log.length / every + 1 := by rw [Nat.succ_div, if_pos hdvd]
    have hlast : (log.length / every + 1) * every = log.length + 1 := by rw [← hdiv, Nat.div_mul_cancel hdvd]
    rw [List.map_singleton, hlast, List.take_of_length_le (by simp)]
  · rw [Nat.add_zero, List.append_nil, List.map_congr_left hold]

/-- a checkpoint stands at its multiple of the spacing -/
theorem checkpoints_height {every : ℕ} {log : List Command} {i : ℕ} {s : ChainState}
    (hs : (checkpoints every log)[i]? = some s) : i < log.length / every ∧ s.n = (i + 1) * every := by
  unfold checkpoints at hs
  rw [List.getElem?_map] at hs
  obtain ⟨j, hj, rfl⟩ := Option.map_eq_some_iff.1 hs
  obtain ⟨hi, rfl⟩ := List.getElem?_eq_some_iff.1 hj
  have hi : i < log.length / every := by simpa using hi
  have hle : (i + 1) * every ≤ log.length := (Nat.mul_le_mul_right every hi).trans (Nat.div_mul_le_self _ _)
  rw [List.getElem_range, ChainState.fromLog_n, List.length_take_of_le hle]
  exact ⟨hi, rfl⟩

theorem checkpoints_n_le {every : ℕ} {log : List Command} {s : ChainState} (hs : s ∈ checkpoints every log) :
    s.n ≤ log.length := by
  obtain ⟨i, hi⟩ := List.mem_iff_getElem?.1 hs
  obtain ⟨hlt, hn⟩ := checkpoints_height hi
  rw [hn]
  exact (Nat.mul_le_mul_right every hlt).trans (Nat.div_mul_le_self _ _)

/-- the checkpoints of a log are the first ones of a longer one -/
theorem checkpoints_prefix {every : ℕ} {log log' : List Command} (h : log <+: log') :
    checkpoints every log = (checkpoints every log').take (log.length / every) := by
  have hcount : log.length / every ≤ log'.length / every := Nat.div_le_div_right h.length_le
  unfold checkpoints
  rw [← List.map_take, List.take_range, min_eq_left hcount]
  apply List.map_congr_left
  intro i hi
  have hle : (i + 1) * every ≤ log.length := (Nat.mul_le_mul_right every (List.mem_range.1 hi)).trans
    (Nat.div_mul_le_self _ _)
  obtain ⟨more, rfl⟩ := h
  rw [List.take_append_of_le_length hle]

/-- the heights of the checkpoints grow -/
theorem checkpoints_increasing {every : ℕ} (hpos : 0 < every) (log : List Command) :
    (checkpoints every log).Pairwise fun a b => a.n < b.n := by
  apply List.pairwise_iff_getElem.2
  intro i j hi hj hij
  rw [(checkpoints_height (List.getElem?_eq_getElem hi)).2, (checkpoints_height (List.getElem?_eq_getElem hj)).2]
  exact Nat.mul_lt_mul_of_pos_right (Nat.succ_lt_succ hij) hpos

/-- the commands of `log` have been folded -/
structure Folded (every : ℕ) (log : List Command) (r : ChainFolder × ChainCheckpoints) : Prop where
  state : r.1.state = .fromLog log
  spacing : r.1.every = max every 1
  sinkSpacing : r.2.every = max every 1
  table : r.2.published.table = (checkpoints (max every 1) log).drop
    ((checkpoints (max every 1) log).length - CHECKPOINT_RING_CAPACITY)
  truncated : r.2.published.truncated = decide (CHECKPOINT_RING_CAPACITY < (checkpoints (max every 1) log).length)

variable {every : ℕ} {log : List Command} {r : ChainFolder × ChainCheckpoints}

theorem folded_boot (every : ℕ) : Folded every [] (ChainFolder.boot every) where
  state := rfl
  spacing := rfl
  sinkSpacing := rfl
  table := by simp [ChainFolder.boot, ChainCheckpoints.new, checkpoints]
  truncated := by simp [ChainFolder.boot, ChainCheckpoints.new]

/-- a state is recorded behind the last ones -/
theorem record_table {sink : ChainCheckpoints} {l : List ChainState} (state : ChainState)
    (ht : sink.published.table = l.drop (l.length - CHECKPOINT_RING_CAPACITY))
    (hd : sink.published.truncated = decide (CHECKPOINT_RING_CAPACITY < l.length)) :
    (sink.record state).published.table =
        (l ++ [state]).drop ((l ++ [state]).length - CHECKPOINT_RING_CAPACITY) ∧
      (sink.record state).published.truncated = decide (CHECKPOINT_RING_CAPACITY < (l ++ [state]).length) := by
  have hlen : sink.published.table.length = l.length - (l.length - CHECKPOINT_RING_CAPACITY) := by
    rw [ht, List.length_drop]
  have hcap : 0 < CHECKPOINT_RING_CAPACITY := by decide
  unfold ChainCheckpoints.record
  dsimp only
  rw [List.length_append, List.length_singleton]
  split_ifs with hfull
  · rw [hlen] at hfull
    have hover : CHECKPOINT_RING_CAPACITY < l.length + 1 := by omega
    have hdrop : l.length - CHECKPOINT_RING_CAPACITY + 1 = l.length + 1 - CHECKPOINT_RING_CAPACITY := by omega
    refine ⟨?_, (decide_eq_true hover).symm⟩
    rw [ht, List.tail_drop, hdrop, List.drop_append_of_le_length (by omega)]
  · rw [hlen] at hfull
    have hroom : l.length - CHECKPOINT_RING_CAPACITY = l.length + 1 - CHECKPOINT_RING_CAPACITY := by omega
    refine ⟨?_, ?_⟩
    · rw [ht, hroom, List.drop_append_of_le_length (by omega)]
    · rw [hd, decide_eq_decide]
      omega

/-- **Step lemma.** -/
theorem Folded.foldCommand (h : Folded every log r) (c : Command) :
    Folded every (log ++ [c]) (ChainFolder.foldCommand r c) := by
  have hstate : (r.1.state.apply c).after = .fromLog (log ++ [c]) := by
    rw [h.state, ChainState.fromLog_snoc]
  have hdvd : (r.1.state.apply c).after.n % r.1.every = 0 ↔ max every 1 ∣ log.length + 1 := by
    rw [hstate, ChainState.fromLog_n, h.spacing, Nat.dvd_iff_mod_eq_zero, List.length_append, List.length_singleton]
  unfold ChainFolder.foldCommand
  by_cases hmul : max every 1 ∣ log.length + 1
  · have hkept := record_table (.fromLog (log ++ [c])) h.table h.truncated
    dsimp only
    rw [if_pos (hdvd.2 hmul), hstate]
    refine ⟨rfl, h.spacing, h.sinkSpacing, ?_, ?_⟩
    · rw [checkpoints_snoc, if_pos hmul]
      exact hkept.1
    · rw [checkpoints_snoc, if_pos hmul]
      exact hkept.2
  · dsimp only
    rw [if_neg (fun h => hmul (hdvd.1 h)), hstate]
    refine ⟨rfl, h.spacing, h.sinkSpacing, ?_, ?_⟩
    · rw [checkpoints_snoc, if_neg hmul, List.append_nil]
      exact h.table
    · rw [checkpoints_snoc, if_neg hmul, List.append_nil]
      exact h.truncated

/-- a pass publishes its frontier at its end only -/
theorem foldCommand_frontier (r : ChainFolder × ChainCheckpoints) (c : Command) :
    (ChainFolder.foldCommand r c).2.published.frontier = r.2.published.frontier := by
  unfold ChainFolder.foldCommand ChainCheckpoints.record
  dsimp only
  split_ifs <;> rfl

theorem Folded.publish (h : Folded every log r) : Folded every log (ChainFolder.publish r) :=
  ⟨h.state, h.spacing, h.sinkSpacing, h.table, h.truncated⟩

theorem Folded.foldCommands (h : Folded every log r) (commands : List Command) :
    Folded every (log ++ commands) (commands.foldl ChainFolder.foldCommand r) := by
  induction commands generalizing log r with
  | nil =>
    rw [List.append_nil]
    exact h
  | cons c commands ih =>
    have hrest := ih (h.foldCommand c)
    rw [List.append_assoc, List.singleton_append] at hrest
    exact hrest

/-- a pass folds what the replica has applied since -/
theorem Folded.fold (h : Folded every log r) {nd : SmrNode} (hgrow : log <+: nd.durable.appliedLog) :
    Folded every nd.durable.appliedLog (ChainFolder.fold r nd) ∧
      (ChainFolder.fold r nd).2.published.frontier = .fromLog nd.durable.appliedLog := by
  obtain ⟨fresh, hfresh⟩ := hgrow
  have hfrom : nd.appliedFrom r.1.state.n = fresh := by
    unfold SmrNode.appliedFrom
    rw [h.state, ChainState.fromLog_n, ← hfresh, List.length_append, min_eq_left (Nat.le_add_right _ _), List.drop_left]
  have hall := h.foldCommands fresh
  rw [hfresh] at hall
  unfold ChainFolder.fold
  rw [hfrom]
  exact ⟨hall.publish, hall.state⟩

/-- each pass sees what the one before saw, and perhaps more -/
def Growing (nodes : List SmrNode) : Prop :=
  nodes.Pairwise fun a b => a.durable.appliedLog <+: b.durable.appliedLog

/-- **Run lemma**, for the passes of a process. -/
theorem passes_folded (every : ℕ) (nodes : List SmrNode) (nd : SmrNode) (hgrow : Growing (nodes ++ [nd])) :
    Folded every nd.durable.appliedLog (ChainFolder.passes every (nodes ++ [nd])) ∧
      (ChainFolder.passes every (nodes ++ [nd])).2.published.frontier = .fromLog nd.durable.appliedLog := by
  induction nodes using List.reverseRecOn generalizing nd with
  | nil => exact (folded_boot every).fold (List.nil_prefix)
  | append_singleton nodes last ih =>
    have hsplit := List.pairwise_append.1 hgrow
    have hlast : last.durable.appliedLog <+: nd.durable.appliedLog :=
      hsplit.2.2 last (List.mem_append_right _ (List.mem_singleton_self _)) nd (List.mem_singleton_self _)
    have hsnoc : ChainFolder.passes every (nodes ++ [last] ++ [nd]) =
        ChainFolder.fold (ChainFolder.passes every (nodes ++ [last])) nd := by
      simp [ChainFolder.passes]
    rw [hsnoc]
    exact (ih last hsplit.1).1.fold hlast

end Chain

end Queso
