/-
The constant-space interval summary register of a recorder, and the register with its whole history behind it.

`Isr` keeps four fields whatever it has served. `replay_eq` says that they are exactly the summary of the full history
of accepted calls: the step, the first value and the aggregate of the current step, and the aggregate of the step
before it. `record_refines_history` says the same of what each call returns, in terms of the calls alone.
-/
import Queso.Lib.Register
import Queso.Consensus.Proposal

namespace Queso

open Register

/-- what `record` returns: the step, the first value recorded at it, the aggregate of the step before it -/
structure IsrSummary (V : Type) where
  step : ℕ
  first : Option (Proposal V)
  priorAgg : Option (Proposal V)
deriving DecidableEq, Repr

structure Isr (V : Type) where
  step : ℕ
  first : Option (Proposal V)
  currentAgg : Option (Proposal V)
  priorAgg : Option (Proposal V)
deriving DecidableEq, Repr

variable {V : Type}

def Isr.new : Isr V := ⟨0, none, none, none⟩

def Isr.summary (r : Isr V) : IsrSummary V := ⟨r.step, r.first, r.priorAgg⟩

variable [LinearOrder V]

/-- the state after `record(s, v)` -/
def Isr.recorded (r : Isr V) (s : ℕ) (v : Proposal V) : Isr V :=
  if s < r.step then r
  else if s = r.step then { r with currentAgg := maxOption r.currentAgg (some v) }
  else
    { step := s
      first := some v
      currentAgg := some v
      priorAgg := if s = r.step + 1 then r.currentAgg else none }

/-- `record(s, v) → (s', f', a')` -/
def Isr.record (r : Isr V) (s : ℕ) (v : Proposal V) : Isr V × IsrSummary V :=
  (r.recorded s v, (r.recorded s v).summary)

/-- a register that served the calls `l` -/
def Isr.replay (l : List (ℕ × Proposal V)) : Isr V := l.foldl (fun r c => r.recorded c.1 c.2) Isr.new

theorem Isr.replay_snoc (l : List (ℕ × Proposal V)) (c : ℕ × Proposal V) :
    Isr.replay (l ++ [c]) = (Isr.replay l).recorded c.1 c.2 := by
  simp [Isr.replay, List.foldl_append]

/-! ## The aggregates after one more call -/

theorem aggOf_snoc_same {l : List (ℕ × Proposal V)} {c : ℕ × Proposal V} (h : ¬ c.1 < stepOf l) :
    aggOf (l ++ [c]) c.1 = maxOption (aggOf l c.1) (some c.2) := by
  have hmem : ∀ q, (c.1, q) ∈ accepted (l ++ [c]) ↔ (c.1, q) ∈ accepted l ∨ q = c.2 := by
    intro q
    rw [accepted_snoc, if_neg h]
    simp [Prod.ext_iff]
  cases ha : aggOf l c.1 with
  | none =>
    refine aggOf_eq_some.2 ⟨(hmem _).2 (.inr rfl), fun q hq => ?_⟩
    rcases (hmem q).1 hq with hq | rfl
    · obtain ⟨m, hm, -⟩ := le_aggOf hq
      rw [ha] at hm; cases hm
    · exact le_rfl
  | some m =>
    obtain ⟨hm, hmax⟩ := aggOf_eq_some.1 ha
    refine aggOf_eq_some.2 ?_
    split_ifs with hcm
    · refine ⟨(hmem _).2 (.inl hm), fun q hq => ?_⟩
      rcases (hmem q).1 hq with hq | rfl
      · exact hmax q hq
      · exact hcm
    · refine ⟨(hmem _).2 (.inr rfl), fun q hq => ?_⟩
      rcases (hmem q).1 hq with hq | rfl
      · exact (hmax q hq).trans (not_le.1 hcm).le
      · exact le_rfl

theorem aggOf_snoc_lt {l : List (ℕ × Proposal V)} {c : ℕ × Proposal V} {t : ℕ} (h : t ≠ c.1) :
    aggOf (l ++ [c]) t = aggOf l t := by
  rw [aggOf, accepted_snoc]
  split_ifs
  · rfl
  · have : ([c] : List _).filter (fun d => d.1 == t) = [] := by simp [Ne.symm h]
    rw [List.filter_append, this, List.append_nil, aggOf]

theorem aggOf_above {l : List (ℕ × Proposal V)} {t : ℕ} (h : stepOf l < t) : aggOf l t = none :=
  aggOf_eq_none fun _ hq => absurd (step_le_stepOf hq) (by simpa using h)

omit [LinearOrder V] in
theorem firstOf_snoc_same {l : List (ℕ × Proposal V)} {c : ℕ × Proposal V} (h : stepOf l < c.1) :
    firstOf (l ++ [c]) c.1 = some c.2 := by
  have hnone : (accepted l).find? (fun d => d.1 == c.1) = none := by
    rw [List.find?_eq_none]
    intro d hd
    have := step_le_stepOf hd
    simp; omega
  have hpos : c.1 ≠ 0 := by omega
  simp [firstOf, hpos, accepted_snoc, not_lt.2 h.le, List.find?_append, hnone]

/-- **The constant-space register summarises its whole history.** -/
theorem replay_eq (l : List (ℕ × Proposal V)) :
    Isr.replay l = ⟨stepOf l, firstOf l (stepOf l), aggOf l (stepOf l), priorOf l (stepOf l)⟩ := by
  induction l using List.reverseRecOn with
  | nil => rfl
  | append_singleton l c ih =>
    rw [Isr.replay_snoc, ih]
    by_cases hlt : c.1 < stepOf l
    · -- an obsolete call: nothing changes
      have hstep : stepOf (l ++ [c]) = stepOf l := by rw [stepOf_snoc, if_pos hlt]
      have hacc : accepted (l ++ [c]) = accepted l := by rw [accepted_snoc, if_pos hlt]
      have hagg : ∀ t, aggOf (l ++ [c]) t = aggOf l t := fun t => by rw [aggOf, hacc, aggOf]
      have hprior : ∀ t, priorOf (l ++ [c]) t = priorOf l t := fun t => by
        cases t with
        | zero => rfl
        | succ t => exact hagg t
      have hfirst : ∀ t, firstOf (l ++ [c]) t = firstOf l t := fun t => by rw [firstOf, hacc, firstOf]
      simp [Isr.recorded, hlt, hstep, hagg, hprior, hfirst]
    · have hstep : stepOf (l ++ [c]) = c.1 := by rw [stepOf_snoc, if_neg hlt]
      by_cases heq : c.1 = stepOf l
      · -- the current step: only its aggregate moves
        have hfirst : firstOf (l ++ [c]) (stepOf l) = firstOf l (stepOf l) := by
          rcases Nat.eq_zero_or_pos (stepOf l) with h0 | hpos
          · simp [firstOf, h0]
          · exact firstOf_append (visited_stepOf hpos) [c]
        have hprior : priorOf (l ++ [c]) (stepOf l) = priorOf l (stepOf l) := by
          cases hs : stepOf l with
          | zero => rfl
          | succ t => exact aggOf_snoc_lt (by omega)
        have hagg := aggOf_snoc_same hlt
        rw [heq] at hagg
        simp [Isr.recorded, heq, hstep, hfirst, hprior, hagg]
      · -- a later step: the aggregate is carried over only when no step is skipped
        have hgt : stepOf l < c.1 := by omega
        have hagg : aggOf (l ++ [c]) c.1 = some c.2 := by
          rw [aggOf_snoc_same hlt, aggOf_above hgt]; rfl
        have hprior : priorOf (l ++ [c]) c.1 = if c.1 = stepOf l + 1 then aggOf l (stepOf l) else none := by
          obtain ⟨t, ht⟩ : ∃ t, c.1 = t + 1 := ⟨c.1 - 1, by omega⟩
          rw [ht]
          show aggOf (l ++ [c]) t = _
          rw [aggOf_snoc_lt (by omega)]
          split_ifs with h1
          · rw [show t = stepOf l by omega]
          · exact aggOf_above (by omega)
        simp [Isr.recorded, hlt, heq, hstep, firstOf_snoc_same hgt, hagg, hprior]

/-- the aggregate of the step before `s`, over the calls themselves -/
theorem priorOf_eq_some {l : List (ℕ × Proposal V)} {s : ℕ} {m : Proposal V} :
    priorOf l s = some m ↔ 0 < s ∧ IsGreatest {q | AcceptedAt l (s - 1) q} m := by
  cases s with
  | zero => simp [priorOf]
  | succ s =>
    rw [priorOf, aggOf_eq_some]
    simp only [mem_accepted_iff, IsGreatest, mem_upperBounds, Nat.zero_lt_succ, true_and,
      Nat.add_sub_cancel]
    rfl

theorem priorOf_eq_none {l : List (ℕ × Proposal V)} {s : ℕ} :
    priorOf l s = none ↔ s = 0 ∨ ∀ q, ¬ AcceptedAt l (s - 1) q := by
  cases s with
  | zero => simp [priorOf]
  | succ s =>
    simp only [priorOf, Nat.succ_ne_zero, false_or, Nat.add_sub_cancel, ← mem_accepted_iff]
    refine ⟨fun h q hq => ?_, aggOf_eq_none⟩
    obtain ⟨m, hm, -⟩ := le_aggOf hq
    rw [h] at hm
    cases hm

/-- **The constant-space register refines the register with its whole history.** Each call's summary is the one the
calls so far determine: the greatest step asked for, the first call for that step, and the greatest of the calls that
found the register no later than the step before it. An obsolete call changes nothing. -/
theorem record_refines_history (l : List (ℕ × Proposal V)) (s : ℕ) (v : Proposal V) :
    let calls := l ++ [(s, v)]
    let r := ((Isr.replay l).record s v).2
    r.step = (calls.map Prod.fst).foldl max 0 ∧
    r.first = (if r.step = 0 then none else (calls.find? (fun c => c.1 == r.step)).map Prod.snd) ∧
    (∀ m, r.priorAgg = some m ↔ 0 < r.step ∧ IsGreatest {q | AcceptedAt calls (r.step - 1) q} m) ∧
    (r.priorAgg = none ↔ r.step = 0 ∨ ∀ q, ¬ AcceptedAt calls (r.step - 1) q) ∧
    (s < (Isr.replay l).step → ((Isr.replay l).record s v).1 = Isr.replay l) := by
  intro calls r
  have hr : r = ⟨stepOf calls, firstOf calls (stepOf calls), priorOf calls (stepOf calls)⟩ := by
    show ((Isr.replay l).recorded s v).summary = _
    rw [← Isr.replay_snoc l (s, v), replay_eq]
    rfl
  rw [hr]
  refine ⟨stepOf_eq calls, firstOf_stepOf calls, fun m => priorOf_eq_some, priorOf_eq_none, fun hlt => ?_⟩
  exact if_pos hlt

end Queso
