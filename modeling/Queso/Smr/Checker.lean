/-
The linearizability checker: a backtracking search over the orders of a complete history of client operations, with a
memo of the pairs of a used mask and a store from which the search has failed.

- `maskOf_injective`: the mask tells the used sets of at most 63 operations apart.
- `search_spec`: a call decides whether the unused operations can be completed, and leaves only dead pairs in the memo.
- `isLinearizable_iff`: the checker answers, and says yes exactly when some permutation of the history respects real
  time and replays on the store with every recorded outcome.
-/
import Queso.Lib.Backtrack
import Queso.Smr.Replica

namespace Queso

open Backtrack

/-- one completed operation -/
structure HistoryOp where
  opId : OpId
  command : Command
  invokedAt : ℕ
  completedAt : ℕ
  outcome : OpOutcome
deriving DecidableEq

/-- the completed operations of the records, in the order of their ids; an operation that never completed is dropped -/
def historyFromRecords (records : AList fun _ : OpId => OpRecord) : List HistoryOp :=
  (records.entries.insertionSort fun a b => a.1 ≤ b.1).filterMap fun e =>
    match e.2.completedAt, e.2.outcome with
    | some completedAt, some outcome => some ⟨e.1, e.2.command, e.2.invokedAt, completedAt, outcome⟩
    | _, _ => none

/-- what applying the command returned is what its caller observed -/
def observedMatches : OpOutcome → Applied → Bool
  | .put, .putNew => true
  | .put, .putDuplicate => true
  | .get expected, .get actual => expected == actual
  | _, _ => false

/-- two stores with the same bindings -/
def Kv.Same (a b : Kv) : Prop := a.map.entries.Perm b.map.entries ∧ a.lastSeq.entries.Perm b.lastSeq.entries

instance (a b : Kv) : Decidable (a.Same b) := by
  unfold Kv.Same
  infer_instance

namespace Checker

/-- `a`'s response came before `b`'s invocation -/
def Precedes (a b : HistoryOp) : Prop := a.completedAt < b.invokedAt

instance (a b : HistoryOp) : Decidable (Precedes a b) := by
  unfold Precedes
  infer_instance

/-- operation `i` must be placed before operation `j` -/
def mustPrecede (history : List HistoryOp) (i j : Fin history.length) : Bool :=
  decide (i ≠ j) && decide (Precedes history[i] history[j])

variable {n : ℕ}

/-- the used set, as a machine word -/
def maskOf (used : Fin n → Bool) : BitVec 64 :=
  (List.finRange n).foldl (fun m i => if used i then m ||| 1#64 <<< i.val else m) 0#64

/-- the pairs from which the search has failed -/
abbrev Failed := List (BitVec 64 × Kv)

def Failed.contains (failed : Failed) (mask : BitVec 64) (state : Kv) : Bool :=
  failed.any fun p => p.1 == mask && decide (p.2.Same state)

/-- one turn of the loop: operation `i` as the next one, if it is minimal among the unused and its outcome matches -/
def tryNext (history : List HistoryOp) (used : Fin history.length → Bool) (state : Kv)
    (recurse : (Fin history.length → Bool) → Kv → Failed → Bool × Failed) (i : Fin history.length) (failed : Failed) :
    Bool × Failed :=
  if used i then (false, failed)
  else if (List.finRange history.length).any fun j => !used j && decide (j ≠ i) && mustPrecede history j i then
    (false, failed)
  else
    let (candidate, applied) := state.apply history[i].command
    if !observedMatches history[i].outcome applied then (false, failed)
    else recurse (Function.update used i true) candidate failed

/-- try every minimal unused operation as the next one; the third argument counts the unused operations -/
def search (history : List HistoryOp) (used : Fin history.length → Bool) : ℕ → Kv → Failed → Bool × Failed
  | 0, _, failed => (true, failed)
  | remaining + 1, state, failed =>
    let mask := maskOf used
    if failed.contains mask state then (false, failed)
    else
      let tried := tryEach
        (tryNext history used state fun used state failed => search history used remaining state failed)
        (List.finRange history.length) failed
      if tried.1 then tried else (false, (mask, state) :: tried.2)

/-- the checker's verdict, or none when the history is too long for the mask and the source panics -/
def isLinearizable (history : List HistoryOp) : Option Bool :=
  if 63 < history.length then none
  else if history.length = 0 then some true
  else some (search history (fun _ => false) history.length Kv.new []).1

/-! ## What the checker is for -/

/-- apply the operation's command, if that returns the operation's outcome -/
def opStep (op : HistoryOp) (kv : Kv) : Option Kv :=
  if observedMatches op.outcome (kv.apply op.command).2 then some (kv.apply op.command).1 else none

/-- `order` arranges the operations of `history` so that no operation is placed after one that its response came before,
and replaying it from the empty store matches every recorded outcome -/
abbrev Linearizes (history order : List HistoryOp) : Prop := Schedule Precedes opStep history Kv.new order

/-! ## Stores with the same bindings -/

end Checker

namespace Kv

theorem Same.symm {a b : Kv} (h : a.Same b) : b.Same a := ⟨h.1.symm, h.2.symm⟩

theorem Same.apply {a b : Kv} (h : a.Same b) (c : Command) :
    (a.apply c).1.Same (b.apply c).1 ∧ (a.apply c).2 = (b.apply c).2 := by
  cases c with
  | get client s k => exact ⟨h, congrArg Applied.get (AList.perm_lookup h.1)⟩
  | put client s k v =>
    have hdup : a.isDuplicate client s = b.isDuplicate client s := by
      rw [isDuplicate, isDuplicate, AList.perm_lookup h.2]
    rw [apply_put, apply_put, hdup]
    split_ifs
    · exact ⟨h, rfl⟩
    · exact ⟨⟨AList.perm_insert h.1, AList.perm_insert h.2⟩, rfl⟩

end Kv

namespace Checker

theorem opStep_sim {op : HistoryOp} {a b a' : Kv} (h : a.Same b) (ha : opStep op a = some a') :
    ∃ b', opStep op b = some b' ∧ a'.Same b' := by
  obtain ⟨hsame, hout⟩ := h.apply op.command
  rw [opStep] at ha
  split_ifs at ha with hm
  obtain rfl := Option.some.inj ha
  refine ⟨(b.apply op.command).1, ?_, hsame⟩
  rw [opStep, ← hout, if_pos hm]

/-! ## The mask -/

variable {n : ℕ}

theorem getLsbD_fold (used : Fin n → Bool) (l : List (Fin n)) (m : BitVec 64) {k : ℕ} (hk : k < 64) :
    (l.foldl (fun m i => if used i then m ||| 1#64 <<< i.val else m) m).getLsbD k = true ↔
      m.getLsbD k = true ∨ ∃ i ∈ l, used i = true ∧ i.val = k := by
  induction l generalizing m with
  | nil => simp
  | cons i l ih =>
    have hbit : (1#64 <<< i.val).getLsbD k = true ↔ i.val = k := by
      rw [BitVec.getLsbD_shiftLeft, BitVec.getLsbD_one]
      simp only [Bool.and_eq_true, Bool.not_eq_true', decide_eq_true_eq, decide_eq_false_iff_not]
      omega
    rw [List.foldl_cons, ih]
    split_ifs with hu
    · rw [BitVec.getLsbD_or, Bool.or_eq_true, hbit, or_assoc]
      simp [hu]
    · simp [hu]

/-- **The mask is faithful** as long as it has a bit for every operation. -/
theorem maskOf_injective (hn : n ≤ 63) : Function.Injective (maskOf (n := n)) := by
  intro used used' h
  have hbit : ∀ (u : Fin n → Bool) (i : Fin n), (maskOf u).getLsbD i = true ↔ u i = true := by
    intro u i
    rw [maskOf, getLsbD_fold u _ _ (by omega)]
    simp
    constructor
    · rintro ⟨j, hj, heq⟩
      rwa [← Fin.ext heq]
    · exact fun hu => ⟨i, hu, rfl⟩
  funext i
  rw [Bool.eq_iff_iff, ← hbit used, ← hbit used', h]

/-! ## The search -/

/-- the unused operations -/
def todo (used : Fin n → Bool) : List (Fin n) := (List.finRange n).filter fun i => !used i

theorem mem_todo {used : Fin n → Bool} {i : Fin n} : i ∈ todo used ↔ used i = false := by simp [todo]

theorem todo_update (used : Fin n → Bool) (i : Fin n) : todo (Function.update used i true) = (todo used).erase i := by
  rw [todo, todo, ((List.nodup_finRange n).filter _).erase_eq_filter, List.filter_filter]
  refine List.filter_congr fun j _ => ?_
  rcases eq_or_ne j i with rfl | hji
  · simp
  · simp [hji]

/-- some order of the unused operations respects real time and replays from `state` with every recorded outcome -/
def Completable (history : List HistoryOp) (used : Fin history.length → Bool) (state : Kv) : Prop :=
  Schedulable (fun i j : Fin history.length => Precedes history[i] history[j]) (fun i => opStep history[i]) (todo used)
    state

/-- nothing can be completed from a pair in the memo -/
def Dead (history : List HistoryOp) (p : BitVec 64 × Kv) : Prop :=
  ∀ used state, maskOf used = p.1 → p.2.Same state → ¬ Completable history used state

variable {history : List HistoryOp} {used : Fin history.length → Bool} {state : Kv} {failed : Failed}

theorem Completable.of_same {state' : Kv} (h : Completable history used state) (hs : state.Same state') :
    Completable history used state' :=
  Schedulable.of_sim (fun _ _ _ _ => opStep_sim) hs h

/-- operation `i` can be the next one -/
def Next (history : List HistoryOp) (used : Fin history.length → Bool) (state : Kv) (i : Fin history.length) : Prop :=
  used i = false ∧ (∀ j, used j = false → j ≠ i → mustPrecede history j i = false) ∧
    ∃ state', opStep history[i] state = some state' ∧ Completable history (Function.update used i true) state'

theorem completable_iff (hne : todo used ≠ []) : Completable history used state ↔ ∃ i, Next history used state i := by
  rw [Completable, schedulable_iff hne]
  refine exists_congr fun i => ?_
  simp only [Next, mem_todo, Completable, todo_update]
  refine and_congr_right fun _ => and_congr_left fun _ => ?_
  have hnodup : (todo used).Nodup := (List.nodup_finRange _).filter _
  simp only [hnodup.mem_erase_iff, mem_todo, mustPrecede, Bool.and_eq_false_iff, decide_eq_false_iff_not, not_not]
  constructor
  · exact fun h j hj hji => .inr (h j ⟨hji, hj⟩)
  · exact fun h j hj => (h j hj.2 hj.1).resolve_left hj.1

theorem contains_iff {mask : BitVec 64} : failed.contains mask state = true ↔ ∃ p ∈ failed, p.1 = mask ∧ p.2.Same state := by
  simp [Failed.contains]

theorem not_completable_of_contains (hdead : ∀ p ∈ failed, Dead history p)
    (h : failed.contains (maskOf used) state = true) : ¬ Completable history used state := by
  obtain ⟨p, hp, hmask, hsame⟩ := contains_iff.1 h
  exact hdead p hp used state hmask.symm hsame

theorem dead_of_not_completable (hn : history.length ≤ 63) (h : ¬ Completable history used state) :
    Dead history (maskOf used, state) := by
  intro used' state' hmask hsame hc
  rw [maskOf_injective hn hmask] at hc
  exact h (hc.of_same hsame.symm)

theorem tryNext_spec {recurse : (Fin history.length → Bool) → Kv → Failed → Bool × Failed} {i : Fin history.length}
    (hrec : ∀ state', used i = false → ((recurse (Function.update used i true) state' failed).1 = true ↔
        Completable history (Function.update used i true) state') ∧
      ∀ p ∈ (recurse (Function.update used i true) state' failed).2, Dead history p)
    (hdead : ∀ p ∈ failed, Dead history p) :
    ((tryNext history used state recurse i failed).1 = true ↔ Next history used state i) ∧
      ∀ p ∈ (tryNext history used state recurse i failed).2, Dead history p := by
  rw [tryNext]
  split_ifs with hused hpred
  · exact ⟨iff_of_false (by simp) fun h => by simp [h.1] at hused, hdead⟩
  · -- an unplaced predecessor
    refine ⟨iff_of_false (by simp) fun h => ?_, hdead⟩
    obtain ⟨j, -, hj⟩ := List.any_eq_true.1 hpred
    simp only [Bool.and_eq_true, Bool.not_eq_true', decide_eq_true_eq] at hj
    rw [h.2.1 j hj.1.1 hj.1.2] at hj
    exact absurd hj.2 (by simp)
  · have hfree : used i = false := by simpa using hused
    have hmin : ∀ j, used j = false → j ≠ i → mustPrecede history j i = false := by
      intro j hj hji
      have := List.any_eq_false.1 (Bool.not_eq_true _ ▸ hpred) j (List.mem_finRange j)
      simpa [hj, hji] using this
    dsimp only
    split_ifs with hmatch
    · refine ⟨iff_of_false (by simp) fun h => ?_, hdead⟩
      obtain ⟨state', hstep, -⟩ := h.2.2
      rw [opStep, if_neg (by simpa using hmatch)] at hstep
      cases hstep
    · obtain ⟨hiff, hkeep⟩ := hrec (state.apply history[i].command).1 hfree
      have hstep : opStep history[i] state = some (state.apply history[i].command).1 := by
        rw [opStep, if_pos (by simpa using hmatch)]
      refine ⟨hiff.trans ⟨fun h => ⟨hfree, hmin, _, hstep, h⟩, fun h => ?_⟩, hkeep⟩
      obtain ⟨state', hstep', hc⟩ := h.2.2
      rw [hstep] at hstep'
      obtain rfl := Option.some.inj hstep'
      exact hc

/-- **A call of the search** decides whether the unused operations can be completed from its state, whatever is in the
memo as long as it is dead, and all it leaves in the memo is dead. -/
theorem search_spec (hn : history.length ≤ 63) {remaining : ℕ} (hlen : (todo used).length = remaining)
    (hdead : ∀ p ∈ failed, Dead history p) :
    ((search history used remaining state failed).1 = true ↔ Completable history used state) ∧
      ∀ p ∈ (search history used remaining state failed).2, Dead history p := by
  induction remaining generalizing used state failed with
  | zero =>
    have hnil : todo used = [] := List.length_eq_zero_iff.1 hlen
    refine ⟨iff_of_true rfl ?_, hdead⟩
    rw [Completable, hnil]
    exact schedulable_nil
  | succ remaining ih =>
    have hne : todo used ≠ [] := fun h => by simp [h] at hlen
    rw [search]
    dsimp only
    split_ifs with hmemo htried
    · exact ⟨by simpa using not_completable_of_contains hdead hmemo, hdead⟩
    all_goals
      -- each turn of the loop decides whether its operation can be the next one
      obtain ⟨hiff, hkeep⟩ := tryEach_spec (I := fun failed : Failed => ∀ p ∈ failed, Dead history p)
        (P := Next history used state) (l := List.finRange history.length)
        (f := tryNext history used state fun used state failed => search history used remaining state failed)
        (fun i _ failed hdead => tryNext_spec (fun state' hfree => ih
          (by rw [todo_update, List.length_erase_of_mem (mem_todo.2 hfree), hlen]; rfl) hdead) hdead) hdead
      have hall : Completable history used state ↔ ∃ i ∈ List.finRange history.length, Next history used state i := by
        rw [completable_iff hne]
        simp
    · exact ⟨hiff.trans hall.symm, hkeep⟩
    · have hno : ¬ Completable history used state := fun h => htried (hiff.2 (hall.1 h))
      refine ⟨iff_of_false (by simp) hno, fun p hp => ?_⟩
      rcases List.mem_cons.1 hp with rfl | hp
      · exact dead_of_not_completable hn hno
      · exact hkeep p hp

theorem completable_start : Completable history (fun _ => false) Kv.new ↔ ∃ order, Linearizes history order := by
  have htodo : todo (fun _ : Fin history.length => false) = List.finRange history.length := by simp [todo]
  have hmap : (List.finRange history.length).map (fun i => history[i]) = history := by simp
  rw [Completable, htodo]
  show _ ↔ Schedulable Precedes opStep history Kv.new
  conv_rhs => rw [← hmap]
  exact schedulable_map.symm

/-- **The checker is sound and complete on complete histories**: on at most 63 operations it answers, and it says yes
exactly when the history is linearizable. All that its memo ever holds is dead, so no branch is pruned that could be
completed. -/
theorem isLinearizable_iff (hn : history.length ≤ 63) :
    (∃ verdict, isLinearizable history = some verdict ∧ (verdict = true ↔ ∃ order, Linearizes history order)) ∧
      ∀ p ∈ (search history (fun _ => false) history.length Kv.new []).2, Dead history p := by
  have htodo : (todo fun _ : Fin history.length => false).length = history.length := by simp [todo]
  obtain ⟨hiff, hdead⟩ := @search_spec history (fun _ => false) Kv.new [] hn _ htodo (by simp)
  refine ⟨?_, hdead⟩
  rw [isLinearizable, if_neg (not_lt.2 hn)]
  split_ifs with h0
  · refine ⟨true, rfl, iff_of_true rfl ?_⟩
    obtain rfl := List.length_eq_zero_iff.1 h0
    exact schedulable_nil
  · exact ⟨_, rfl, hiff.trans completable_start⟩

/-- a write and a later read that misses it: the checker answers no, so no order explains the two -/
theorem isLinearizable_staleRead :
    ¬ ∃ order, Linearizes [⟨0, .put 1 0 10 100, 0, 5, .put⟩, ⟨1, .get 2 0 10, 6, 9, .get none⟩] order := by
  obtain ⟨⟨verdict, hverdict, hiff⟩, -⟩ :=
    @isLinearizable_iff [⟨0, .put 1 0 10 100, 0, 5, .put⟩, ⟨1, .get 2 0 10, 6, 9, .get none⟩] (by decide)
  have hno : isLinearizable [⟨0, .put 1 0 10 100, 0, 5, .put⟩, ⟨1, .get 2 0 10, 6, 9, .get none⟩] = some false := by
    decide
  rw [hno] at hverdict
  obtain rfl := Option.some.inj hverdict
  exact fun h => absurd (hiff.2 h) (by decide)

end Checker

end Queso
