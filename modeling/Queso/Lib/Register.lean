/-
The interval summary register with its whole history.

A register serves calls `(s, p)`: "record `p` at step `s`". Its step never falls, so a call below the current step is
discarded and every other call is accepted and moves the register to its step. `accepted l` is the history of accepted
calls after the calls `l`; `firstOf l s` is the value that first reached step `s`, `aggOf l s` the greatest value
accepted at `s`, and `priorOf l s` the greatest value accepted at the step before `s`.

What protocols over such registers use:
- `mem_accepted_iff`: a call is accepted when no call before it asked for a later step;
- `firstOf_append`: the first value of a visited step is written once;
- `aggOf_append`: once a later step is visited, the aggregate of an earlier step is frozen;
- `aggOf_eq_some`, `le_aggOf`: the aggregate is the maximum of what was accepted.
-/
import Mathlib.Tactic

namespace Queso.Register

variable {P : Type*}

/-- one call on the state (step, accepted calls) -/
def accept (a : ℕ × List (ℕ × P)) (c : ℕ × P) : ℕ × List (ℕ × P) :=
  if c.1 < a.1 then a else (c.1, a.2 ++ [c])

/-- the register's step after the calls `l` -/
def stepOf (l : List (ℕ × P)) : ℕ := (l.foldl accept (0, [])).1

/-- the calls the register accepted, in order -/
def accepted (l : List (ℕ × P)) : List (ℕ × P) := (l.foldl accept (0, [])).2

/-- the register accepted a call at step `s` -/
def Visited (l : List (ℕ × P)) (s : ℕ) : Prop := ∃ p, (s, p) ∈ accepted l

/-- the value that first reached step `s` (nothing reaches the initial step) -/
def firstOf (l : List (ℕ × P)) (s : ℕ) : Option P :=
  if s = 0 then none else ((accepted l).find? (fun c => c.1 == s)).map Prod.snd

/-! ## The accepted history -/

@[simp] theorem accepted_nil : accepted ([] : List (ℕ × P)) = [] := rfl

@[simp] theorem stepOf_nil : stepOf ([] : List (ℕ × P)) = 0 := rfl

theorem stepOf_snoc (l : List (ℕ × P)) (c : ℕ × P) :
    stepOf (l ++ [c]) = if c.1 < stepOf l then stepOf l else c.1 := by
  simp only [stepOf, List.foldl_append, List.foldl_cons, List.foldl_nil, accept]
  exact apply_ite Prod.fst _ _ _

theorem accepted_snoc (l : List (ℕ × P)) (c : ℕ × P) :
    accepted (l ++ [c]) = if c.1 < stepOf l then accepted l else accepted l ++ [c] := by
  simp only [accepted, stepOf, List.foldl_append, List.foldl_cons, List.foldl_nil, accept]
  exact apply_ite Prod.snd _ _ _

theorem le_stepOf_snoc (l : List (ℕ × P)) (c : ℕ × P) : stepOf l ≤ stepOf (l ++ [c]) := by
  rw [stepOf_snoc]; split_ifs <;> omega

theorem step_le_stepOf {l : List (ℕ × P)} {c : ℕ × P} (h : c ∈ accepted l) : c.1 ≤ stepOf l := by
  induction l using List.reverseRecOn with
  | nil => simp at h
  | append_singleton l d ih =>
    rw [accepted_snoc] at h
    rw [stepOf_snoc]
    split_ifs at h ⊢ with hd
    · exact ih h
    · rcases List.mem_append.1 h with h | h
      · have := ih h; omega
      · rw [List.mem_singleton.1 h]

theorem mem_of_accepted {l : List (ℕ × P)} {c : ℕ × P} (h : c ∈ accepted l) : c ∈ l := by
  induction l using List.reverseRecOn with
  | nil => simp at h
  | append_singleton l d ih =>
    rw [accepted_snoc] at h
    split_ifs at h
    · exact List.mem_append_left _ (ih h)
    · rcases List.mem_append.1 h with h | h
      · exact List.mem_append_left _ (ih h)
      · exact List.mem_append_right _ h

/-- later calls only add accepted calls, none of them below the step already reached -/
theorem accepted_append (l m : List (ℕ × P)) :
    ∃ t, accepted (l ++ m) = accepted l ++ t ∧ ∀ c ∈ t, stepOf l ≤ c.1 := by
  suffices h : ∃ t, accepted (l ++ m) = accepted l ++ t ∧ (∀ c ∈ t, stepOf l ≤ c.1) ∧ stepOf l ≤ stepOf (l ++ m) by
    obtain ⟨t, h1, h2, -⟩ := h
    exact ⟨t, h1, h2⟩
  induction m using List.reverseRecOn with
  | nil => exact ⟨[], by simp⟩
  | append_singleton m d ih =>
    obtain ⟨t, ht, hge, hstep⟩ := ih
    rw [← List.append_assoc, accepted_snoc, ht]
    have hle : stepOf l ≤ stepOf (l ++ m ++ [d]) := hstep.trans (le_stepOf_snoc _ _)
    split_ifs with hd
    · exact ⟨t, rfl, hge, hle⟩
    · refine ⟨t ++ [d], by rw [List.append_assoc], fun c hc => ?_, hle⟩
      rcases List.mem_append.1 hc with hc | hc
      · exact hge c hc
      · rw [List.mem_singleton.1 hc]; omega

theorem mem_accepted_append {l : List (ℕ × P)} {c : ℕ × P} (h : c ∈ accepted l) (m : List (ℕ × P)) :
    c ∈ accepted (l ++ m) := by
  obtain ⟨t, ht, -⟩ := accepted_append l m
  rw [ht]; exact List.mem_append_left _ h

theorem Visited.append {l : List (ℕ × P)} {s : ℕ} (h : Visited l s) (m : List (ℕ × P)) : Visited (l ++ m) s := by
  obtain ⟨p, hp⟩ := h
  exact ⟨p, mem_accepted_append hp m⟩

theorem Visited.le {l : List (ℕ × P)} {s : ℕ} (h : Visited l s) : s ≤ stepOf l := by
  obtain ⟨p, hp⟩ := h
  exact step_le_stepOf hp

/-- a register past its initial step accepted a call at the step it is at -/
theorem visited_stepOf {l : List (ℕ × P)} (h : 0 < stepOf l) : Visited l (stepOf l) := by
  induction l using List.reverseRecOn with
  | nil => simp at h
  | append_singleton l d ih =>
    rw [Visited, accepted_snoc]
    rw [stepOf_snoc] at h ⊢
    split_ifs at h ⊢ with hd
    · exact ih h
    · exact ⟨d.2, by simp⟩

/-- **The step is the greatest one asked for**, the initial step included. -/
theorem stepOf_eq (l : List (ℕ × P)) : stepOf l = (l.map Prod.fst).foldl max 0 := by
  induction l using List.reverseRecOn with
  | nil => rfl
  | append_singleton l c ih =>
    rw [stepOf_snoc, List.map_append, List.foldl_append, ← ih]
    simp only [List.map_cons, List.map_nil, List.foldl_cons, List.foldl_nil]
    split_ifs with h
    · exact (max_eq_left h.le).symm
    · exact (max_eq_right (not_lt.1 h)).symm

/-- the call `(t, q)` found the register at a step no later than `t` -/
def AcceptedAt (l : List (ℕ × P)) (t : ℕ) (q : P) : Prop :=
  ∃ earlier later, l = earlier ++ (t, q) :: later ∧ ∀ c ∈ earlier, c.1 ≤ t

theorem stepOf_le {l : List (ℕ × P)} {t : ℕ} : stepOf l ≤ t ↔ ∀ c ∈ l, c.1 ≤ t := by
  induction l using List.reverseRecOn with
  | nil => simp
  | append_singleton l c ih =>
    rw [stepOf_snoc]
    simp only [List.mem_append, List.mem_singleton, or_imp, forall_and, forall_eq, ← ih]
    split_ifs with h <;> omega

theorem acceptedAt_snoc {l : List (ℕ × P)} {c : ℕ × P} {t : ℕ} {q : P} :
    AcceptedAt (l ++ [c]) t q ↔ AcceptedAt l t q ∨ c = (t, q) ∧ stepOf l ≤ t := by
  constructor
  · rintro ⟨earlier, later, heq, hle⟩
    rcases List.eq_nil_or_concat later with rfl | ⟨later, d, rfl⟩
    · obtain ⟨rfl, hc⟩ := List.append_inj' heq rfl
      exact .inr ⟨List.singleton_injective hc, stepOf_le.2 hle⟩
    · rw [List.concat_eq_append, ← List.cons_append, ← List.append_assoc] at heq
      exact .inl ⟨earlier, later, (List.append_inj' heq rfl).1, hle⟩
  · rintro (⟨earlier, later, rfl, hle⟩ | ⟨rfl, hle⟩)
    · exact ⟨earlier, later ++ [c], by simp, hle⟩
    · exact ⟨l, [], rfl, stepOf_le.1 hle⟩

theorem mem_accepted_iff {l : List (ℕ × P)} {t : ℕ} {q : P} : (t, q) ∈ accepted l ↔ AcceptedAt l t q := by
  induction l using List.reverseRecOn with
  | nil => simp [AcceptedAt]
  | append_singleton l c ih =>
    rw [acceptedAt_snoc, ← ih, accepted_snoc]
    split_ifs with h
    · refine ⟨.inl, ?_⟩
      rintro (hm | ⟨rfl, hle⟩)
      · exact hm
      · exact absurd hle (not_le.2 h)
    · rw [List.mem_append, List.mem_singleton]
      refine or_congr_right ⟨fun heq => ?_, fun heq => heq.1.symm⟩
      subst heq
      exact ⟨rfl, not_lt.1 h⟩

/-! ## The first value of a step -/

theorem firstOf_mem {l : List (ℕ × P)} {s : ℕ} {p : P} (h : firstOf l s = some p) : (s, p) ∈ accepted l := by
  unfold firstOf at h
  split_ifs at h
  obtain ⟨c, hc, rfl⟩ := Option.map_eq_some_iff.1 h
  have hs : c.1 = s := by simpa using List.find?_some hc
  rw [← hs]; exact List.mem_of_find?_eq_some hc

theorem Visited.firstOf {l : List (ℕ × P)} {s : ℕ} (h : Visited l s) (hs : 0 < s) : ∃ p, firstOf l s = some p := by
  obtain ⟨p, hp⟩ := h
  cases hf : (accepted l).find? (fun c => c.1 == s) with
  | none =>
    rw [List.find?_eq_none] at hf
    exact absurd (by simp) (hf _ hp)
  | some c => exact ⟨c.2, by simp [Register.firstOf, hs.ne', hf]⟩

/-- **Write-once.** The first value of a visited step never changes. -/
theorem firstOf_append {l : List (ℕ × P)} {s : ℕ} (h : Visited l s) (m : List (ℕ × P)) :
    firstOf (l ++ m) s = firstOf l s := by
  obtain ⟨t, ht, -⟩ := accepted_append l m
  obtain ⟨p, hp⟩ := h
  have hsome : ((accepted l).find? (fun c => c.1 == s)).isSome := by
    rw [List.find?_isSome]; exact ⟨_, hp, by simp⟩
  unfold firstOf
  rw [ht, List.find?_append, Option.or_of_isSome hsome]

/-- the call that first reached the current step is the first one that asked for it -/
theorem firstOf_stepOf (l : List (ℕ × P)) :
    firstOf l (stepOf l) =
      if stepOf l = 0 then none else (l.find? (fun c => c.1 == stepOf l)).map Prod.snd := by
  unfold firstOf
  split_ifs with h0
  · rfl
  · congr 1
    clear h0
    induction l using List.reverseRecOn with
    | nil => rfl
    | append_singleton l c ih =>
      rw [stepOf_snoc, accepted_snoc]
      split_ifs with h
      · -- an obsolete call is not at the current step
        rw [ih, List.find?_append]
        have hc : [c].find? (fun d => d.1 == stepOf l) = none := by simp; omega
        rw [hc, Option.or_none]
      · rw [List.find?_append, List.find?_append]
        rcases (not_lt.1 h).eq_or_lt with heq | hlt
        · rw [← heq, ih]
        · -- nothing reached the new step before
          have hnew : ∀ m : List (ℕ × P), (∀ d ∈ m, d.1 ≤ stepOf l) → m.find? (fun d => d.1 == c.1) = none := by
            intro m hm
            refine List.find?_eq_none.2 fun d hd => ?_
            have := hm d hd
            simp; omega
          rw [hnew _ fun d hd => step_le_stepOf hd, hnew _ (stepOf_le.1 le_rfl)]

/-! ## The aggregate of a step -/

theorem mem_at {l : List (ℕ × P)} {s : ℕ} {p : P} :
    p ∈ ((accepted l).filter (fun c => c.1 == s)).map Prod.snd ↔ (s, p) ∈ accepted l := by
  simp only [List.mem_map, List.mem_filter, beq_iff_eq]
  constructor
  · rintro ⟨c, ⟨hc, rfl⟩, rfl⟩; exact hc
  · exact fun h => ⟨(s, p), ⟨h, rfl⟩, rfl⟩

section Aggregate

variable [LinearOrder P]

/-- the greatest value accepted at step `s` -/
def aggOf (l : List (ℕ × P)) (s : ℕ) : Option P := (((accepted l).filter (fun c => c.1 == s)).map Prod.snd).max?

/-- the greatest value accepted at the step before `s` (nothing precedes the initial step) -/
def priorOf (l : List (ℕ × P)) : ℕ → Option P
  | 0 => none
  | s + 1 => aggOf l s

theorem aggOf_eq_some {l : List (ℕ × P)} {s : ℕ} {m : P} :
    aggOf l s = some m ↔ (s, m) ∈ accepted l ∧ ∀ q, (s, q) ∈ accepted l → q ≤ m := by
  rw [aggOf, List.max?_eq_some_iff]
  simp only [mem_at]

/-- every accepted value is below the aggregate of its step -/
theorem le_aggOf {l : List (ℕ × P)} {s : ℕ} {q : P} (h : (s, q) ∈ accepted l) : ∃ m, aggOf l s = some m ∧ q ≤ m := by
  cases hm : aggOf l s with
  | none =>
    rw [aggOf, List.max?_eq_none_iff] at hm
    exact absurd (mem_at.2 h) (by simp [hm])
  | some m => exact ⟨m, rfl, (aggOf_eq_some.1 hm).2 q h⟩

theorem aggOf_eq_none {l : List (ℕ × P)} {s : ℕ} (h : ∀ q, (s, q) ∉ accepted l) : aggOf l s = none := by
  cases hm : aggOf l s with
  | none => rfl
  | some m => exact absurd (aggOf_eq_some.1 hm).1 (h m)

/-- **Frozen.** Once a later step is visited, the aggregate of an earlier step never changes. -/
theorem aggOf_append {l : List (ℕ × P)} {s t : ℕ} (h : Visited l s) (hts : t < s) (m : List (ℕ × P)) :
    aggOf (l ++ m) t = aggOf l t := by
  obtain ⟨u, hu, hge⟩ := accepted_append l m
  have hnone : u.filter (fun c => c.1 == t) = [] := by
    rw [List.filter_eq_nil_iff]
    intro c hc
    have := hge c hc
    have := h.le
    simp; omega
  rw [aggOf, hu, List.filter_append, hnone, List.append_nil, aggOf]

theorem priorOf_append {l : List (ℕ × P)} {s : ℕ} (h : Visited l s) (m : List (ℕ × P)) :
    priorOf (l ++ m) s = priorOf l s := by
  cases s with
  | zero => rfl
  | succ s => exact aggOf_append h (Nat.lt_succ_self s) m

end Aggregate

end Queso.Register
