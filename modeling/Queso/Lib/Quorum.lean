/-
Majority quorums of a fixed membership `0, …, n - 1`.

`quorum_inter` is the one fact every majority protocol rests on: two quorums of one membership share a member.
-/
import Mathlib.Tactic
import Mathlib.Data.Finset.Card

namespace Queso.Quorum

/-- a majority of the members `0, …, n - 1` -/
def IsQuorum (n : ℕ) (Q : Finset ℕ) : Prop := Q ⊆ Finset.range n ∧ n / 2 + 1 ≤ Q.card

theorem IsQuorum.lt {n : ℕ} {Q : Finset ℕ} (h : IsQuorum n Q) {j : ℕ} (hj : j ∈ Q) : j < n :=
  Finset.mem_range.1 (h.1 hj)

/-- **Two quorums of one membership share a member.** -/
theorem quorum_inter {n : ℕ} {Q R : Finset ℕ} (hQ : IsQuorum n Q) (hR : IsQuorum n R) : ∃ j, j ∈ Q ∧ j ∈ R := by
  have hne : (Q ∩ R).Nonempty := by
    rw [← Finset.card_pos]
    have hU : (Q ∪ R).card ≤ n := by
      simpa using Finset.card_le_card (Finset.union_subset hQ.1 hR.1)
    have hsum := Finset.card_union_add_card_inter Q R
    have hQc := hQ.2
    have hRc := hR.2
    omega
  obtain ⟨j, hj⟩ := hne
  exact ⟨j, (Finset.mem_inter.1 hj).1, (Finset.mem_inter.1 hj).2⟩

theorem IsQuorum.nonempty {n : ℕ} {Q : Finset ℕ} (hQ : IsQuorum n Q) : ∃ j, j ∈ Q := by
  obtain ⟨j, hj, -⟩ := quorum_inter hQ hQ
  exact ⟨j, hj⟩

/-- the keys of `n / 2 + 1` or more distinct members form a quorum -/
theorem isQuorum_of_nodup {n : ℕ} {l : List ℕ} (hnd : l.Nodup) (hlt : ∀ j ∈ l, j < n) (hlen : n / 2 + 1 ≤ l.length) :
    IsQuorum n l.toFinset := by
  refine ⟨fun j hj => Finset.mem_range.2 (hlt j (List.mem_toFinset.1 hj)), ?_⟩
  rwa [List.toFinset_card_of_nodup hnd]

end Queso.Quorum
