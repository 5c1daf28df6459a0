/-
Prioritized proposals and their order: priority first, then the proposing replica, then the value.

`H` is the reserved maximum of the priority space. A random priority is drawn below it (`Draw`), so among proposals
only those a leader tagged can carry it.
-/
import Queso.Sim.Node

namespace Queso

/-- the reserved maximum priority, `u64::MAX` -/
def H : ℕ := 2 ^ 64 - 1

/-- a value proposed by some replica, with the priority drawn for it and the replica that drew it -/
structure Proposal (V : Type) where
  value : V
  priority : ℕ
  origin : NodeId
deriving DecidableEq, Repr

/-- one draw of `random(1..H-1)` -/
structure Draw where
  val : ℕ
  pos : 1 ≤ val
  lt : val < H

/-- every draw of a callback returns `k`, if a generator can -/
def drawing (k : ℕ) : NodeId → Draw := fun _ => if h : 1 ≤ k ∧ k < H then ⟨k, h.1, h.2⟩ else ⟨1, by decide, by decide⟩

variable {V : Type}

/-- the lexicographic key `Proposal`'s order compares -/
def Proposal.key (p : Proposal V) : ℕ ×ₗ ℕ ×ₗ V := toLex (p.priority, toLex (p.origin, p.value))

theorem Proposal.key_injective : Function.Injective (Proposal.key (V := V)) := by
  intro p q h
  cases p; cases q
  simp only [Proposal.key, toLex_inj, Prod.mk.injEq] at h
  obtain ⟨rfl, rfl, rfl⟩ := h
  rfl

variable [LinearOrder V]

instance : LinearOrder (Proposal V) := LinearOrder.lift' Proposal.key Proposal.key_injective

theorem Proposal.le_iff {p q : Proposal V} : p ≤ q ↔ p.priority < q.priority ∨
    p.priority = q.priority ∧ (p.origin < q.origin ∨ p.origin = q.origin ∧ p.value ≤ q.value) := by
  show Proposal.key p ≤ Proposal.key q ↔ _
  simp only [Proposal.key, Prod.Lex.toLex_le_toLex]

theorem Proposal.priority_le {p q : Proposal V} (h : p ≤ q) : p.priority ≤ q.priority := by
  rcases Proposal.le_iff.1 h with h | h
  · exact h.le
  · exact h.1.le

theorem Proposal.le_of_priority_lt {p q : Proposal V} (h : p.priority < q.priority) : p ≤ q :=
  Proposal.le_iff.2 (.inl h)

/-- `aggregate` of the register: the greater of two optional proposals, nil below every proposal -/
def maxOption : Option (Proposal V) → Option (Proposal V) → Option (Proposal V)
  | none, none => none
  | some x, none => some x
  | none, some y => some y
  | some x, some y => some (if y ≤ x then x else y)

/-- `best_j`: the greatest proposal among optional ones, nil when none is present -/
def bestOf (l : List (Option (Proposal V))) : Option (Proposal V) := (l.filterMap id).max?

theorem bestOf_eq_some {l : List (Option (Proposal V))} {p : Proposal V} :
    bestOf l = some p ↔ some p ∈ l ∧ ∀ q, some q ∈ l → q ≤ p := by
  rw [bestOf, List.max?_eq_some_iff]
  simp

theorem bestOf_eq_none {l : List (Option (Proposal V))} (h : bestOf l = none) (p : Proposal V) : some p ∉ l := by
  rw [bestOf, List.max?_eq_none_iff, List.filterMap_eq_nil_iff] at h
  intro hp
  exact absurd (h _ hp) (by simp)

end Queso
