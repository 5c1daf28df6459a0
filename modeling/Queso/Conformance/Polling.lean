/-
From a node's published chain to the observer's samples.

A process folds its log and publishes; a harness polls its report, parses it, and turns what is new into samples. One
cursor, the height of the last checkpoint it has turned into a sample, is all that the harness keeps. A poll may fall
anywhere, also inside a pass, and then it sees the checkpoints of the pass so far with the frontier of the last one.

`pipeline_faithful`: after every pass the table is the last checkpoints of the log and the report reads back as it was
written; over the polls of one process every checkpoint is emitted once, in order, while no more than a table of them is
crossed between two polls, and every poll ends with the frontier.
-/
import Queso.Chain.Report
import Queso.Conformance.Observer
import Queso.Lib.Runs

namespace Queso

open Chain

/-! ## Samples of a report -/

def chainSample (replica : NodeId) (observedAt : ℕ) (state : ChainState) : Sample := ⟨replica, observedAt, state, none⟩

/-- one checkpoint: emitted if it is past the cursor, which then stands at it -/
def emitCheckpoint (replica : NodeId) (observedAt : ℕ) (r : List Sample × ℕ) (checkpoint : ChainState) : List Sample × ℕ :=
  if r.2 < checkpoint.n then (r.1 ++ [chainSample replica observedAt checkpoint], checkpoint.n) else r

/-- `samples_from_chain`: the samples and the cursor after them -/
def samplesFromChain (replica : NodeId) (observedAt : ℕ) (frontier : ChainState) (checkpoints : List ChainState)
    (emittedThrough : ℕ) : List Sample × ℕ :=
  let r := checkpoints.foldl (emitCheckpoint replica observedAt) ([], emittedThrough)
  (r.1 ++ [chainSample replica observedAt frontier], r.2)

variable {replica : NodeId} {observedAt : ℕ}

/-- what the cursor has passed is not emitted again -/
theorem emit_passed {l : List ChainState} {out : List Sample} {cursor : ℕ} (h : ∀ s ∈ l, s.n ≤ cursor) :
    l.foldl (emitCheckpoint replica observedAt) (out, cursor) = (out, cursor) := by
  induction l with
  | nil => rfl
  | cons s l ih =>
    have hs : ¬ cursor < s.n := not_lt.2 (h s List.mem_cons_self)
    rw [List.foldl_cons, emitCheckpoint, if_neg hs]
    exact ih fun t ht => h t (List.mem_cons_of_mem _ ht)

/-- what is past the cursor and grows is emitted, and the cursor stands at the last of it -/
theorem emit_ahead {l : List ChainState} {out : List Sample} {cursor : ℕ} (hl : l.Pairwise fun a b => a.n < b.n)
    (h : ∀ s ∈ l, cursor < s.n) :
    l.foldl (emitCheckpoint replica observedAt) (out, cursor) =
      (out ++ l.map (chainSample replica observedAt), (l.getLast?.map (·.n)).getD cursor) := by
  induction l generalizing out cursor with
  | nil => simp
  | cons s l ih =>
    obtain ⟨hs, hl⟩ := List.pairwise_cons.1 hl
    rw [List.foldl_cons, emitCheckpoint, if_pos (h s List.mem_cons_self), ih hl hs]
    rw [List.map_cons, List.append_assoc, List.singleton_append, List.getLast?_cons]
    cases l.getLast? <;> rfl

/-! ## Polls of one process -/

inductive ChainEvent where
  /-- a command of a pass is folded -/
  | apply (c : Command)
  /-- a pass ends -/
  | publish
  | poll (observedAt : ℕ)

/-- a process and the harness that polls it -/
structure Watch where
  process : ChainFolder × ChainCheckpoints
  cursor : ℕ
  /-- the samples of each poll -/
  polls : List (List Sample)

namespace Watch

def init (every : ℕ) : Watch := ⟨ChainFolder.boot every, 0, []⟩

/-- a report that does not parse is as if there was none -/
def step (fromStr : List Char → Option Json) (replica : NodeId) (w : Watch) : ChainEvent → Watch
  | .apply c => { w with process := ChainFolder.foldCommand w.process c }
  | .publish => { w with process := ChainFolder.publish w.process }
  | .poll observedAt =>
    match parseChain fromStr w.process.2.toJson with
    | none => w
    | some report =>
      let r := samplesFromChain replica observedAt report.frontier report.checkpoints w.cursor
      { w with cursor := r.2, polls := w.polls ++ [r.1] }

def run (fromStr : List Char → Option Json) (replica : NodeId) (every : ℕ) (events : List ChainEvent) : Watch :=
  Runs.run (step fromStr replica) (init every) events

end Watch

/-- what has been applied, what of it the last pass published, and what the last poll saw of it -/
structure Ledger where
  log : List Command
  published : List Command
  told : List Command

namespace Ledger

def init : Ledger := ⟨[], [], []⟩

def step (l : Ledger) : ChainEvent → Ledger
  | .apply c => { l with log := l.log ++ [c] }
  | .publish => { l with published := l.log }
  | .poll _ => { l with told := l.log }

def run (events : List ChainEvent) : Ledger := Runs.run step init events

/-- no more checkpoints are crossed between two polls than a table holds -/
def Spaced (every : ℕ) (events : List ChainEvent) : Prop :=
  Runs.Along step (fun l ev => ∀ t, ev = .poll t →
    l.log.length / every ≤ l.told.length / every + CHECKPOINT_RING_CAPACITY) init events

end Ledger

/-! ## The polls against the ledger -/

/-- the checkpoints up to a height, and those past it -/
theorem checkpoints_split {every : ℕ} {log : List Command} {m : ℕ} :
    (∀ s ∈ (checkpoints every log).take m, s.n ≤ m * every) ∧
      (0 < every → ∀ s ∈ (checkpoints every log).drop m, m * every < s.n) := by
  constructor
  · intro s hs
    obtain ⟨i, hi⟩ := List.mem_iff_getElem?.1 hs
    rw [List.getElem?_take] at hi
    split_ifs at hi with hlt
    rw [(checkpoints_height hi).2]
    exact Nat.mul_le_mul_right every hlt
  · intro hpos s hs
    obtain ⟨i, hi⟩ := List.mem_iff_getElem?.1 hs
    rw [List.getElem?_drop] at hi
    rw [(checkpoints_height hi).2]
    exact Nat.mul_lt_mul_of_pos_right (by omega) hpos

/-- the last checkpoint, if it is past `m` others -/
theorem checkpoints_last {every : ℕ} {log : List Command} {m : ℕ} (hm : m ≤ log.length / every) :
    ((((checkpoints every log).drop m).getLast?.map (·.n)).getD (m * every)) = log.length / every * every := by
  rw [List.getLast?_drop, checkpoints_length]
  split_ifs with hall
  · rw [le_antisymm hm hall]
    rfl
  · rw [List.getLast?_eq_getElem?, checkpoints_length]
    cases hs : (checkpoints every log)[log.length / every - 1]? with
    | none =>
      rw [List.getElem?_eq_none_iff, checkpoints_length] at hs
      omega
    | some s =>
      have hheight := (checkpoints_height hs).2
      rw [Nat.sub_add_cancel (by omega)] at hheight
      exact hheight

/-- a poll emits the checkpoints past the cursor, if the table still holds them, and the frontier -/
theorem samplesFromChain_table {every : ℕ} {log : List Command} (hpos : 0 < every) {m : ℕ}
    (hm : m ≤ log.length / every) (hroom : log.length / every ≤ m + CHECKPOINT_RING_CAPACITY) (frontier : ChainState) :
    samplesFromChain replica observedAt frontier
        ((checkpoints every log).drop ((checkpoints every log).length - CHECKPOINT_RING_CAPACITY)) (m * every) =
      (((checkpoints every log).drop m).map (chainSample replica observedAt) ++
        [chainSample replica observedAt frontier], log.length / every * every) := by
  have hold : log.length / every - CHECKPOINT_RING_CAPACITY ≤ m := by omega
  rw [checkpoints_length]
  generalize log.length / every - CHECKPOINT_RING_CAPACITY = a at hold
  have hsplit : (checkpoints every log).drop a =
      ((checkpoints every log).take m).drop a ++ (checkpoints every log).drop m := by
    rw [← List.drop_append_of_le_length, List.take_append_drop]
    rw [List.length_take, checkpoints_length]
    omega
  have hpassed : ∀ s ∈ ((checkpoints every log).take m).drop a, s.n ≤ m * every := fun s hs =>
    checkpoints_split.1 s (List.mem_of_mem_drop hs)
  have hahead : ∀ s ∈ (checkpoints every log).drop m, m * every < s.n := checkpoints_split.2 hpos
  have hgrows : ((checkpoints every log).drop m).Pairwise fun a b => a.n < b.n :=
    (checkpoints_increasing hpos log).sublist (List.drop_sublist _ _)
  unfold samplesFromChain
  rw [hsplit, List.foldl_append, emit_passed hpassed, emit_ahead hgrows hahead, checkpoints_last hm]
  simp

/-- how a watched process stands to what has been applied, published and told -/
structure Watched (every : ℕ) (l : Ledger) (w : Watch) : Prop where
  folded : Folded every l.log w.process
  frontier : w.process.2.published.frontier = .fromLog l.published
  shown : l.published.length ≤ l.log.length
  told : l.told <+: l.log
  cursor : w.cursor = l.told.length / max every 1 * max every 1
  emitted : (w.polls.flatMap List.dropLast).map (·.state) = checkpoints (max every 1) l.told

variable {fromStr : List Char → Option Json} {every : ℕ} {l : Ledger} {w : Watch}

theorem watched_init (every : ℕ) : Watched every .init (.init every) where
  folded := folded_boot every
  frontier := rfl
  shown := le_rfl
  told := List.nil_prefix
  cursor := by simp [Ledger.init, Watch.init]
  emitted := by simp [Ledger.init, Watch.init, checkpoints]

theorem Watched.fits (h : Watched every l w) (hevery : every < 2 ^ 64) (hlog : l.log.length < 2 ^ 64) :
    Fits w.process.2 where
  every := by
    rw [h.folded.sinkSpacing]
    exact max_lt hevery (by decide)
  frontier := by
    rw [h.frontier, ChainState.fromLog_n]
    exact h.shown.trans_lt hlog
  table := fun s hs => by
    rw [h.folded.table] at hs
    exact (checkpoints_n_le (List.mem_of_mem_drop hs)).trans_lt hlog

/-- what a poll returns: the checkpoints that have not been told, and the frontier -/
def freshSamples (every : ℕ) (replica : NodeId) (observedAt : ℕ) (l : Ledger) : List Sample :=
  ((checkpoints (max every 1) l.log).drop (l.told.length / max every 1)).map (chainSample replica observedAt) ++
    [chainSample replica observedAt (.fromLog l.published)]

variable (replica) in
theorem Watched.poll (h : Watched every l w) (hread : Json.Reads fromStr) (hevery : every < 2 ^ 64)
    (hlog : l.log.length < 2 ^ 64)
    (hroom : l.log.length / max every 1 ≤ l.told.length / max every 1 + CHECKPOINT_RING_CAPACITY) :
    (w.step fromStr replica (.poll observedAt)).polls = w.polls ++ [freshSamples every replica observedAt l] ∧
      Watched every (l.step (.poll observedAt)) (w.step fromStr replica (.poll observedAt)) := by
  have hpos : 0 < max every 1 := lt_max_of_lt_right Nat.one_pos
  have hcount : l.told.length / max every 1 ≤ l.log.length / max every 1 := Nat.div_le_div_right h.told.length_le
  have hstep : w.step fromStr replica (.poll observedAt) =
      { w with
        cursor := l.log.length / max every 1 * max every 1
        polls := w.polls ++ [freshSamples every replica observedAt l] } := by
    unfold Watch.step
    dsimp only
    rw [parseChain_toJson hread (h.fits hevery hlog)]
    dsimp only
    rw [h.folded.table, h.cursor, samplesFromChain_table hpos hcount hroom, h.frontier]
    rfl
  rw [hstep]
  refine ⟨rfl, ?_⟩
  constructor
  · exact h.folded
  · exact h.frontier
  · exact h.shown
  · exact List.prefix_rfl
  · rfl
  · have hall := List.take_append_drop (l.told.length / max every 1) (checkpoints (max every 1) l.log)
    rw [← checkpoints_prefix h.told] at hall
    simp [Ledger.step, freshSamples, List.flatMap_append, h.emitted, Function.comp_def, chainSample, hall]

/-- **Step lemma.** -/
theorem Watched.step (h : Watched every l w) (hread : Json.Reads fromStr) (hevery : every < 2 ^ 64)
    (hlog : l.log.length < 2 ^ 64) {ev : ChainEvent} (hroom : ∀ t, ev = .poll t →
      l.log.length / max every 1 ≤ l.told.length / max every 1 + CHECKPOINT_RING_CAPACITY) :
    Watched every (l.step ev) (w.step fromStr replica ev) := by
  cases ev with
  | apply c =>
    refine ⟨h.folded.foldCommand c, ?_, ?_, ?_, h.cursor, h.emitted⟩
    · exact (foldCommand_frontier w.process c).trans h.frontier
    · exact h.shown.trans (by simp [Ledger.step])
    · exact h.told.trans (List.prefix_append _ _)
  | publish => exact ⟨h.folded.publish, h.folded.state, le_rfl, h.told, h.cursor, h.emitted⟩
  | poll observedAt => exact (h.poll replica hread hevery hlog (hroom observedAt rfl)).2

theorem ledger_grows (l : Ledger) (ev : ChainEvent) : l.log.length ≤ (l.step ev).log.length := by
  cases ev with
  | apply c => simp [Ledger.step]
  | publish => exact le_rfl
  | poll t => exact le_rfl

variable (replica) in
/-- **Run lemma.** -/
theorem watched_run (hread : Json.Reads fromStr) (hevery : every < 2 ^ 64) (events : List ChainEvent)
    (hlog : (Ledger.run events).log.length < 2 ^ 64) (hspaced : Ledger.Spaced (max every 1) events) :
    Watched every (Ledger.run events) (Watch.run fromStr replica every events) := by
  induction events using List.reverseRecOn with
  | nil => exact watched_init every
  | append_singleton events ev ih =>
    have hl : Ledger.run (events ++ [ev]) = (Ledger.run events).step ev := Runs.run_snoc _ _ _ _
    have hw : Watch.run fromStr replica every (events ++ [ev]) =
        (Watch.run fromStr replica every events).step fromStr replica ev := Runs.run_snoc _ _ _ _
    rw [hl] at hlog ⊢
    rw [hw]
    have hlog' := (ledger_grows _ ev).trans_lt hlog
    obtain ⟨hpast, hlast, -⟩ := Runs.along_append.1 hspaced
    exact (ih hlog' hpast).step hread hevery hlog' hlast

/-- **The chain of a node reaches the observer as it is.** With a reader of JSON, for every spacing:
after any passes of a process over a growing log, the frontier is the log's chain state, the table its last checkpoints,
and the report reads back as it was written; and when no more checkpoints are crossed between polls than a table holds, a
poll emits those that no poll has emitted, in order of height, and then the frontier, so that all are emitted once. -/
theorem pipeline_faithful (fromStr : List Char → Option Json) (hread : Json.Reads fromStr) (every : ℕ)
    (hevery : every < 2 ^ 64) :
    (∀ (nodes : List SmrNode) (nd : SmrNode), Growing (nodes ++ [nd]) →
      ∀ sink log all, sink = (ChainFolder.passes every (nodes ++ [nd])).2 → log = nd.durable.appliedLog →
        all = checkpoints (max every 1) log →
        sink.published.frontier = .fromLog log ∧
        sink.published.table = all.drop (all.length - CHECKPOINT_RING_CAPACITY) ∧
        (sink.published.truncated = true ↔ CHECKPOINT_RING_CAPACITY < all.length) ∧
        (log.length < 2 ^ 64 → parseChain fromStr sink.toJson = some ⟨.fromLog log, sink.published.table⟩)) ∧
    (∀ (replica : NodeId) (events : List ChainEvent) (observedAt : ℕ), (Ledger.run events).log.length < 2 ^ 64 →
      Ledger.Spaced (max every 1) (events ++ [.poll observedAt]) →
      ∀ polls all, polls = (Watch.run fromStr replica every (events ++ [.poll observedAt])).polls →
        all = checkpoints (max every 1) (Ledger.run events).log →
        polls = (Watch.run fromStr replica every events).polls ++
          [freshSamples every replica observedAt (Ledger.run events)] ∧
        (polls.flatMap List.dropLast).map (·.state) = all ∧ all.Pairwise fun a b => a.n < b.n) := by
  have hpos : 0 < max every 1 := lt_max_of_lt_right Nat.one_pos
  constructor
  · rintro nodes nd hgrow sink log all rfl rfl rfl
    obtain ⟨hfolded, hfrontier⟩ := passes_folded every nodes nd hgrow
    refine ⟨hfrontier, hfolded.table, ?_, fun hlog => ?_⟩
    · rw [hfolded.truncated, decide_eq_true_iff]
    · have hfits : Fits (ChainFolder.passes every (nodes ++ [nd])).2 := by
        refine ⟨?_, ?_, fun s hs => ?_⟩
        · rw [hfolded.sinkSpacing]
          exact max_lt hevery (by decide)
        · rw [hfrontier, ChainState.fromLog_n]
          exact hlog
        · rw [hfolded.table] at hs
          exact (checkpoints_n_le (List.mem_of_mem_drop hs)).trans_lt hlog
      rw [parseChain_toJson hread hfits, hfrontier]
  · rintro replica events observedAt hlog hspaced polls all rfl rfl
    obtain ⟨hpast, hlast, -⟩ := Runs.along_append.1 hspaced
    have hw : Watch.run fromStr replica every (events ++ [.poll observedAt]) =
        (Watch.run fromStr replica every events).step fromStr replica (.poll observedAt) := Runs.run_snoc _ _ _ _
    have hwatched := watched_run replica hread hevery events hlog hpast
    obtain ⟨hpolls, hthen⟩ := hwatched.poll replica hread hevery hlog (hlast observedAt rfl)
    rw [hw]
    exact ⟨hpolls, hthen.emitted, checkpoints_increasing hpos _⟩

/-- a replica that has applied five writes -/
def fiveWrites : SmrNode :=
  { SmrNode.new 1 with
    durable := { (SmrNode.new 1).durable with appliedLog := (List.range 5).map fun i => .put 0 i 0 (i * 7) } }

theorem pipeline_faithful_fiveWrites :
    parseChain Json.readDocument (ChainFolder.passes 2 [fiveWrites]).2.toJson =
        some ⟨.fromLog fiveWrites.durable.appliedLog, (ChainFolder.passes 2 [fiveWrites]).2.published.table⟩ ∧
      ((Watch.run Json.readDocument 0 2 [.apply (.get 1 0 0), .apply (.get 1 1 0), .publish, .poll 9]).polls.flatMap
        List.dropLast).map (·.state) = checkpoints 2 [.get 1 0 0, .get 1 1 0] := by
  have h := pipeline_faithful Json.readDocument Json.readDocument_reads 2 (by decide)
  have hpass := h.1 [] fiveWrites (by simp [Growing]) _ _ _ rfl rfl rfl
  have hpoll := h.2 0 [.apply (.get 1 0 0), .apply (.get 1 1 0), .publish] 9 (by decide)
    (by simp [Ledger.Spaced, Ledger.step, Ledger.init, CHECKPOINT_RING_CAPACITY]) _ _ rfl rfl
  exact ⟨hpass.2.2.2 (by decide), hpoll.2.1⟩

end Queso
