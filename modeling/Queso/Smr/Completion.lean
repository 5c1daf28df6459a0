/-
Recorded runs with pending operations. The checker gets the completed operations only; a history with pending operations
is linearizable when some of these, each given an outcome and a late completion, can be added to the completed ones.

- `linearizes_completed`: pending operations that no completed one may have observed can be taken out of an order.
- `pending_put_observed`: a pending `Put` that a completed `Get` observed cannot; dropping it turns the verdict.
- `pending_puts_dropped`: the verdict is that of the completions without pending `Put`s, and that of all completions
  when no completed operation may have observed a pending `Put`.
-/
import Queso.Smr.Checker

namespace Queso

open Backtrack

namespace Checker

/-- the operation never completed -/
def Pending (r : OpRecord) : Prop := r.completedAt = none ∨ r.outcome = none

instance (r : OpRecord) : Decidable (Pending r) := by
  unfold Pending
  infer_instance

/-- `added` gives some of the pending operations an outcome and a completion later than every recorded event -/
structure Completes (records : AList fun _ : OpId => OpRecord) (added : List HistoryOp) : Prop where
  nodup : (added.map HistoryOp.opId).Nodup
  pending : ∀ op ∈ added, ∃ r, records.lookup op.opId = some r ∧ Pending r ∧ op.command = r.command ∧
    op.invokedAt = r.invokedAt
  later : ∀ op ∈ added, ∀ id r, records.lookup id = some r →
    r.invokedAt < op.completedAt ∧ ∀ t, r.completedAt = some t → t < op.completedAt

/-- the completed operation `q` may have observed the pending `Put` `p`: it did not precede `p`, and it is a `Get` that
returned what `p` writes or a `Put` that `p` can make a duplicate -/
def MayObserve (p q : HistoryOp) : Prop :=
  ¬ Precedes q p ∧
    match p.command, q.command with
    | .put _ _ key value, .get _ _ key' => key' = key ∧ q.outcome = .get (some value)
    | .put client seq _ _, .put client' seq' _ _ => client' = client ∧ seq' ≤ seq
    | .get _ _ _, _ => False

/-- no completed operation of the records may have observed a pending `Put` -/
def Unobserved (records : AList fun _ : OpId => OpRecord) : Prop :=
  ∀ id r, records.lookup id = some r → Pending r → ∀ q ∈ historyFromRecords records,
    ∀ completedAt outcome, ¬ MayObserve ⟨id, r.command, r.invokedAt, completedAt, outcome⟩ q

/-! ## Taking operations out of an order -/

section Drop

variable {kept : HistoryOp → Bool} {op : HistoryOp} {l : List HistoryOp} {full part full' : Kv}

/-- `full` is the store after all operations so far and `part` the one after the kept ones, with the operations `l` to
come: a kept `Put` of `l` is a duplicate in both or in neither, and no kept `Get` of `l` returned what they differ in -/
structure Agree (kept : HistoryOp → Bool) (l : List HistoryOp) (full part : Kv) : Prop where
  dup : ∀ q ∈ l, kept q = true → ∀ c s k v, q.command = .put c s k v → full.isDuplicate c s = part.isDuplicate c s
  map : ∀ k, full.map.lookup k = part.map.lookup k ∨ ∃ v, full.map.lookup k = some v ∧
    ∀ q ∈ l, kept q = true → ∀ c s, q.command = .get c s k → q.outcome ≠ .get (some v)

theorem Agree.tail (h : Agree kept (op :: l) full part) : Agree kept l full part where
  dup := fun q hq => h.dup q (List.mem_cons_of_mem _ hq)
  map := fun k => (h.map k).imp_right fun ⟨v, hv, hno⟩ => ⟨v, hv, fun q hq => hno q (List.mem_cons_of_mem _ hq)⟩

theorem opStep_eq_some (h : opStep op full = some full') :
    observedMatches op.outcome (full.apply op.command).2 = true ∧ full' = (full.apply op.command).1 := by
  rw [opStep] at h
  split_ifs at h with hm
  exact ⟨hm, (Option.some.inj h).symm⟩

/-- a dropped operation leaves the stores in agreement -/
theorem Agree.drop (h : Agree kept (op :: l) full part) (hstep : opStep op full = some full')
    (hno : ∀ q ∈ l, kept q = true → ¬ MayObserve op q) (hreal : ∀ q ∈ l, ¬ Precedes q op) :
    Agree kept l full' part := by
  obtain ⟨-, rfl⟩ := opStep_eq_some hstep
  cases hc : op.command with
  | get c s k => exact h.tail
  | put c s k v =>
    constructor
    · intro q hq hkept c' s' k' v' hq'
      rw [← h.tail.dup q hq hkept c' s' k' v' hq', Bool.eq_iff_iff, Kv.isDuplicate_apply]
      refine ⟨fun hd => hd.resolve_right ?_, .inl⟩
      rintro ⟨s₀, k₀, v₀, heq, hle⟩
      obtain ⟨rfl, rfl, -, -⟩ := Command.put.injEq .. ▸ heq
      exact hno q hq hkept ⟨hreal q hq, by rw [hc, hq']; exact ⟨rfl, hle⟩⟩
    · intro k'
      rw [Kv.apply_put]
      split_ifs with hdup
      · exact h.tail.map k'
      · rcases eq_or_ne k' k with rfl | hk
        · refine .inr ⟨v, AList.lookup_insert _, fun q hq hkept c' s' hq' hout => ?_⟩
          exact hno q hq hkept ⟨hreal q hq, by rw [hc, hq']; exact ⟨rfl, hout⟩⟩
        · simpa only [AList.lookup_insert_ne hk] using h.tail.map k'

/-- a kept operation does the same on both stores -/
theorem Agree.keep (h : Agree kept (op :: l) full part) (hkept : kept op = true) (hstep : opStep op full = some full') :
    ∃ part', opStep op part = some part' ∧ Agree kept l full' part' := by
  obtain ⟨hmatch, rfl⟩ := opStep_eq_some hstep
  cases hc : op.command with
  | get c s k =>
    have hsame : full.map.lookup k = part.map.lookup k := by
      rcases h.map k with heq | ⟨v, hv, hno⟩
      · exact heq
      · rw [hc] at hmatch
        have hout : op.outcome ≠ .get (some v) := hno op List.mem_cons_self hkept c s hc
        cases ho : op.outcome with
        | put => simp [ho, Kv.apply, observedMatches] at hmatch
        | get w =>
          simp only [ho, Kv.apply, observedMatches, beq_iff_eq, hv] at hmatch
          exact absurd (by rw [ho, hmatch]) hout
    have hout : (full.apply op.command).2 = (part.apply op.command).2 := by
      rw [hc]
      exact congrArg Applied.get hsame
    refine ⟨(part.apply op.command).1, if_pos (hout ▸ hmatch), ?_⟩
    rw [hc]
    exact h.tail
  | put c s k v =>
    have hdup : full.isDuplicate c s = part.isDuplicate c s := h.dup op List.mem_cons_self hkept c s k v hc
    have hout : (full.apply op.command).2 = (part.apply op.command).2 := by
      rw [hc, Kv.apply_put, Kv.apply_put, hdup]
      split_ifs
      · rfl
      · rfl
    refine ⟨(part.apply op.command).1, if_pos (hout ▸ hmatch), ?_⟩
    rw [hc]
    constructor
    · intro q hq hkq c' s' k' v' hq'
      rw [Bool.eq_iff_iff, Kv.isDuplicate_apply, Kv.isDuplicate_apply, h.tail.dup q hq hkq c' s' k' v' hq']
    · intro k'
      rw [Kv.apply_put, Kv.apply_put, hdup]
      split_ifs with hd
      · exact h.tail.map k'
      · rcases eq_or_ne k' k with rfl | hk
        · left
          rw [AList.lookup_insert, AList.lookup_insert]
        · simpa only [AList.lookup_insert_ne hk] using h.tail.map k'

theorem runs_filter (hreal : l.Pairwise fun p q => ¬ Precedes q p)
    (hno : ∀ p ∈ l, kept p = false → ∀ q ∈ l, kept q = true → ¬ MayObserve p q) (h : Agree kept l full part)
    (hruns : Runs opStep l full) : Runs opStep (l.filter kept) part := by
  induction l generalizing full part with
  | nil => trivial
  | cons op l ih =>
    obtain ⟨full', hstep, hruns⟩ := hruns
    obtain ⟨hop, hreal⟩ := List.pairwise_cons.1 hreal
    have hno' : ∀ p ∈ l, kept p = false → ∀ q ∈ l, kept q = true → ¬ MayObserve p q :=
      fun p hp hk q hq => hno p (List.mem_cons_of_mem _ hp) hk q (List.mem_cons_of_mem _ hq)
    cases hk : kept op with
    | true =>
      obtain ⟨part', hpart, hagree⟩ := h.keep hk hstep
      rw [List.filter_cons_of_pos hk]
      exact ⟨part', hpart, ih hreal hno' hagree hruns⟩
    | false =>
      rw [List.filter_cons_of_neg (by simp [hk])]
      exact ih hreal hno' (h.drop hstep (fun q hq => hno op List.mem_cons_self hk q (List.mem_cons_of_mem _ hq)) hop)
        hruns

end Drop

/-- **Unobserved operations can be taken out.** -/
theorem linearizes_completed {history added order : List HistoryOp} (h : Linearizes (history ++ added) order)
    (hdisj : ∀ p ∈ added, p ∉ history) (hno : ∀ p ∈ added, ∀ q ∈ history, ¬ MayObserve p q) :
    ∃ order, Linearizes history order := by
  obtain ⟨hperm, hreal, hruns⟩ := h
  have hadded : ∀ p ∈ order, decide (p ∈ history) = false → p ∈ added := by
    intro p hp hk
    exact (List.mem_append.1 (hperm.mem_iff.1 hp)).resolve_left (by simpa using hk)
  refine ⟨order.filter (fun op => decide (op ∈ history)), ?_, hreal.filter _, ?_⟩
  · have hkeep : history.filter (fun op => decide (op ∈ history)) = history := List.filter_eq_self.2 (by simp)
    have hdrop : added.filter (fun op => decide (op ∈ history)) = [] := List.filter_eq_nil_iff.2 (by simpa using hdisj)
    have hsplit := hperm.filter (fun op => decide (op ∈ history))
    rwa [List.filter_append, hkeep, hdrop, List.append_nil] at hsplit
  · refine runs_filter hreal (fun p hp hk q hq hq' => ?_) ⟨fun _ _ _ _ _ _ _ _ => rfl, fun _ => .inl rfl⟩ hruns
    exact hno p (hadded p hp hk) q (by simpa using hq')

/-! ## The records -/

variable {records : AList fun _ : OpId => OpRecord}

theorem mem_historyFromRecords {q : HistoryOp} :
    q ∈ historyFromRecords records ↔ ∃ r, records.lookup q.opId = some r ∧ r.completedAt = some q.completedAt ∧
      r.outcome = some q.outcome ∧ q.command = r.command ∧ q.invokedAt = r.invokedAt := by
  rw [historyFromRecords, List.mem_filterMap]
  simp only [List.mem_insertionSort]
  constructor
  · rintro ⟨⟨id, r⟩, hmem, heq⟩
    dsimp only at heq
    split at heq
    · rename_i t o ht ho
      obtain rfl := Option.some.inj heq
      exact ⟨r, AList.mem_lookup_iff.2 hmem, ht, ho, rfl, rfl⟩
    · cases heq
  · rintro ⟨r, hl, ht, ho, hc, hi⟩
    refine ⟨⟨q.opId, r⟩, AList.mem_lookup_iff.1 hl, ?_⟩
    simp only [ht, ho, ← hc, ← hi]

theorem length_historyFromRecords : (historyFromRecords records).length ≤ records.entries.length := by
  rw [historyFromRecords]
  refine (List.length_filterMap_le _ _).trans ?_
  rw [List.length_insertionSort]

theorem Completes.not_mem {added : List HistoryOp} (h : Completes records added) :
    ∀ p ∈ added, p ∉ historyFromRecords records := by
  intro p hp hq
  obtain ⟨r, hl, hpend, -⟩ := h.pending p hp
  obtain ⟨r', hl', ht, ho, -⟩ := mem_historyFromRecords.1 hq
  rw [hl] at hl'
  obtain rfl := Option.some.inj hl'
  rcases hpend with hn | hn
  · rw [hn] at ht; cases ht
  · rw [hn] at ho; cases ho

theorem completes_nil : Completes records [] := ⟨.nil, by simp, by simp⟩

theorem verdict_iff (hn : records.entries.length ≤ 63) :
    isLinearizable (historyFromRecords records) = some true ↔ ∃ order, Linearizes (historyFromRecords records) order := by
  generalize hist : historyFromRecords records = history
  have hlen : history.length ≤ 63 := hist ▸ length_historyFromRecords.trans hn
  have htodo : (todo fun _ : Fin history.length => false).length = history.length := by simp [todo]
  obtain ⟨hiff, -⟩ := @search_spec history (fun _ => false) Kv.new [] hlen _ htodo (by simp)
  rw [isLinearizable, if_neg (not_lt.2 hlen)]
  split_ifs with h0
  · obtain rfl := List.length_eq_zero_iff.1 h0
    exact iff_of_true rfl schedulable_nil
  · rw [Option.some_inj]
    exact hiff.trans completable_start

/-- **The verdict on a run with pending operations** is that of the completions that add no pending `Put`. It is that of
all completions when no completed operation may have observed a pending `Put`. -/
theorem pending_puts_dropped (hn : records.entries.length ≤ 63) :
    (isLinearizable (historyFromRecords records) = some true ↔
      ∃ added, Completes records added ∧ (∀ op ∈ added, op.command.isPut = false) ∧
        ∃ order, Linearizes (historyFromRecords records ++ added) order) ∧
    (Unobserved records → (isLinearizable (historyFromRecords records) = some true ↔
      ∃ added, Completes records added ∧ ∃ order, Linearizes (historyFromRecords records ++ added) order)) := by
  rw [verdict_iff hn]
  have hadd : ∀ order, Linearizes (historyFromRecords records) order →
      Linearizes (historyFromRecords records ++ []) order := fun order h => by rwa [List.append_nil]
  constructor
  · constructor
    · exact fun ⟨order, h⟩ => ⟨[], completes_nil, by simp, order, hadd order h⟩
    · rintro ⟨added, hadded, hget, order, h⟩
      refine linearizes_completed h hadded.not_mem fun p hp q _ hobs => ?_
      have hp := hget p hp
      cases hc : p.command with
      | put c s k v => simp [hc, Command.isPut] at hp
      | get c s k => simp [MayObserve, hc] at hobs
  · intro hun
    constructor
    · exact fun ⟨order, h⟩ => ⟨[], completes_nil, order, hadd order h⟩
    · rintro ⟨added, hadded, order, h⟩
      refine linearizes_completed h hadded.not_mem fun p hp q hq hobs => ?_
      obtain ⟨r, hl, hpend, hc, hi⟩ := hadded.pending p hp
      refine hun p.opId r hl hpend q hq p.completedAt p.outcome ?_
      rwa [← hc, ← hi]

/-- a pending write of `value` to key 10, and a completed read of key 10 that returned 100 -/
def writeAndRead (value : Value) : AList fun _ : OpId => OpRecord :=
  (AList.insert 0 ⟨0, .put 1 0 10 value, 0, none, none, none⟩ ∅).insert 1
    ⟨1, .get 2 0 10, 5, some 9, some (.get (some 100)), some 1⟩

theorem lookup_writeAndRead {value : Value} {id : OpId} {r : OpRecord} (h : (writeAndRead value).lookup id = some r) :
    id = 0 ∧ r = ⟨0, .put 1 0 10 value, 0, none, none, none⟩ ∨
      id = 1 ∧ r = ⟨1, .get 2 0 10, 5, some 9, some (.get (some 100)), some 1⟩ := by
  rw [writeAndRead] at h
  rcases eq_or_ne id 1 with rfl | h1
  · rw [AList.lookup_insert] at h
    exact .inr ⟨rfl, (Option.some.inj h).symm⟩
  · rw [AList.lookup_insert_ne h1] at h
    rcases eq_or_ne id 0 with rfl | h0
    · rw [AList.lookup_insert] at h
      exact .inl ⟨rfl, (Option.some.inj h).symm⟩
    · rw [AList.lookup_insert_ne h0, AList.lookup_empty] at h
      cases h

/-- **A pending `Put` that was observed.** The read returned what the pending write wrote; the checker does not see the
write and answers no, but with the write completed the history is linearizable. -/
theorem pending_put_observed :
    ¬ ∀ records : AList fun _ : OpId => OpRecord, records.entries.length ≤ 63 →
      (isLinearizable (historyFromRecords records) = some true ↔
        ∃ added, Completes records added ∧ ∃ order, Linearizes (historyFromRecords records ++ added) order) := by
  intro h
  have hno : isLinearizable (historyFromRecords (writeAndRead 100)) = some false := by decide +kernel
  have hrecords : historyFromRecords (writeAndRead 100) = [⟨1, .get 2 0 10, 5, 9, .get (some 100)⟩] := by
    decide +kernel
  have hyes := (h (writeAndRead 100) (by decide)).2 ⟨[⟨0, .put 1 0 10 100, 0, 10, .put⟩], ?_, ?_⟩
  · rw [hno] at hyes
    cases hyes
  · refine ⟨by simp, ?_, ?_⟩
    · intro op hop
      obtain rfl := List.mem_singleton.1 hop
      exact ⟨_, rfl, .inl rfl, rfl, rfl⟩
    · intro op hop id r hr
      obtain rfl := List.mem_singleton.1 hop
      rcases lookup_writeAndRead hr with ⟨rfl, rfl⟩ | ⟨rfl, rfl⟩
      · simp
      · simp
  · rw [hrecords]
    refine ⟨[⟨0, .put 1 0 10 100, 0, 10, .put⟩, ⟨1, .get 2 0 10, 5, 9, .get (some 100)⟩], ?_, ?_, ?_⟩
    · decide
    · decide
    · exact ⟨_, rfl, _, rfl, trivial⟩

/-- a pending write of another value than the one read: nothing completed may have observed it, and neither what is
recorded nor any completion explains the read -/
theorem pending_put_unobserved :
    ¬ ∃ added, Completes (writeAndRead 7) added ∧
      ∃ order, Linearizes (historyFromRecords (writeAndRead 7) ++ added) order := by
  have hrecords : historyFromRecords (writeAndRead 7) = [⟨1, .get 2 0 10, 5, 9, .get (some 100)⟩] := by decide +kernel
  have hno : isLinearizable (historyFromRecords (writeAndRead 7)) = some false := by decide +kernel
  have hun : Unobserved (writeAndRead 7) := by
    intro id r hr hpend q hq completedAt outcome hobs
    rw [hrecords] at hq
    obtain rfl := List.mem_singleton.1 hq
    rcases lookup_writeAndRead hr with ⟨rfl, rfl⟩ | ⟨rfl, rfl⟩
    · simp [MayObserve] at hobs
    · simp [Pending] at hpend
  intro h
  have hyes := ((pending_puts_dropped (by decide)).2 hun).2 h
  rw [hno] at hyes
  cases hyes

end Checker

end Queso
