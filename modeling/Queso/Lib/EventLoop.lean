/-
An event loop that is run up to a limit.

`due limit s` says that the loop goes on at `s`, and `turn` is one turn of it. `Runs limit s s'` is a run of the loop from
`s` that ends in `s'`; a loop that never ends has none. What is due stays due under a later limit (`hdue`), so a run up
to a limit is the first part of every run up to a later one.

- `runs_iff_runUntil`: a run is what the loop computes within some number of turns.
- `Runs.trans`, `Runs.split`: a run is taken up where an earlier limit left it, and divides there.
- `slices_iff`: runs up to several limits in order are one run up to the last.
- `runs_of_measure`: a loop ends if each of its turns goes down in a well-founded order.
- `soonest_terminates`: it ends if each turn takes an entry off a list and puts back only entries of later times.
-/
import Mathlib.Data.Multiset.DershowitzManna
import Mathlib.Tactic

namespace Queso.EventLoop

variable {σ τ : Type*} (due : τ → σ → Bool) (turn : σ → σ)

/-- the loop up to `limit`, if it is over within `fuel` turns -/
def runUntil (limit : τ) : ℕ → σ → Option σ
  | 0, s => if due limit s then none else some s
  | fuel + 1, s => if due limit s then runUntil limit fuel (turn s) else some s

inductive Runs (limit : τ) : σ → σ → Prop where
  | stop {s : σ} (h : due limit s = false) : Runs limit s s
  | turn {s s' : σ} (h : due limit s = true) (rest : Runs limit (turn s) s') : Runs limit s s'

/-- one run after another, up to each of the limits -/
def Slices : List τ → σ → σ → Prop
  | [], s, s' => s = s'
  | limit :: limits, s, s' => ∃ s₁, Runs due turn limit s s₁ ∧ Slices limits s₁ s'

variable {due turn} {limit a b : τ} {s s' s₁ s₂ : σ}

theorem runs_of_runUntil {fuel : ℕ} (h : runUntil due turn limit fuel s = some s') : Runs due turn limit s s' := by
  induction fuel generalizing s with
  | zero =>
    unfold runUntil at h
    split_ifs at h with hd
    obtain rfl := Option.some.inj h
    exact .stop (by simpa using hd)
  | succ fuel ih =>
    unfold runUntil at h
    split_ifs at h with hd
    · exact .turn hd (ih h)
    · obtain rfl := Option.some.inj h
      exact .stop (by simpa using hd)

theorem runs_iff_runUntil : Runs due turn limit s s' ↔ ∃ fuel, runUntil due turn limit fuel s = some s' := by
  refine ⟨fun h => ?_, fun ⟨_, h⟩ => runs_of_runUntil h⟩
  induction h with
  | stop hd => exact ⟨0, by simp [runUntil, hd]⟩
  | turn hd _ ih =>
    obtain ⟨fuel, hfuel⟩ := ih
    exact ⟨fuel + 1, by simp [runUntil, hd, hfuel]⟩

/-- a run leaves nothing due -/
theorem Runs.done (h : Runs due turn limit s s') : due limit s' = false := by
  induction h with
  | stop hd => exact hd
  | turn _ _ ih => exact ih

theorem Runs.unique (h₁ : Runs due turn limit s s₁) (h₂ : Runs due turn limit s s₂) : s₁ = s₂ := by
  induction h₁ with
  | stop hd =>
    cases h₂ with
    | stop => rfl
    | turn hd' => rw [hd] at hd'; cases hd'
  | turn hd _ ih =>
    cases h₂ with
    | stop hd' => rw [hd] at hd'; cases hd'
    | turn _ hrest => exact ih hrest

/-- what every turn preserves, a run preserves -/
theorem Runs.invariant {I : σ → Prop} (hI : ∀ s, I s → due limit s = true → I (turn s)) (hs : I s)
    (h : Runs due turn limit s s') : I s' := by
  induction h with
  | stop _ => exact hs
  | turn hd _ ih => exact ih (hI _ hs hd)

section Later

variable [Preorder τ] (hdue : ∀ (a b : τ) (s : σ), a ≤ b → due a s = true → due b s = true)

include hdue

theorem Runs.trans (hab : a ≤ b) (h₁ : Runs due turn a s s₁) (h₂ : Runs due turn b s₁ s₂) :
    Runs due turn b s s₂ := by
  induction h₁ with
  | stop _ => exact h₂
  | turn hd _ ih => exact .turn (hdue a b _ hab hd) (ih h₂)

theorem Runs.split (hab : a ≤ b) (h : Runs due turn b s s₂) :
    ∃ s₁, Runs due turn a s s₁ ∧ Runs due turn b s₁ s₂ := by
  induction h with
  | @stop s hd =>
    have ha : due a s = false := by
      by_contra hne
      have hb := hdue a b s hab (by simpa using hne)
      rw [hd] at hb
      cases hb
    exact ⟨_, .stop ha, .stop hd⟩
  | @turn s s' hd hrest ih =>
    by_cases ha : due a s = true
    · obtain ⟨s₁, h₁, h₂⟩ := ih
      exact ⟨s₁, .turn ha h₁, h₂⟩
    · exact ⟨s, .stop (by simpa using ha), .turn hd hrest⟩

/-- runs up to several limits, none past the last, are one run up to the last -/
theorem slices_iff {limits : List τ} (hle : ∀ a ∈ limits, a ≤ b) :
    Slices due turn (limits ++ [b]) s s' ↔ Runs due turn b s s' := by
  induction limits generalizing s with
  | nil =>
    constructor
    · rintro ⟨s₁, h, rfl⟩
      exact h
    · intro h
      exact ⟨s', h, rfl⟩
  | cons a limits ih =>
    have ih := fun s => ih (s := s) fun c hc => hle c (List.mem_cons_of_mem _ hc)
    have hab := hle a (List.mem_cons_self ..)
    constructor
    · rintro ⟨s₁, h₁, h₂⟩
      exact Runs.trans hdue hab h₁ ((ih s₁).1 h₂)
    · intro h
      obtain ⟨s₁, h₁, h₂⟩ := Runs.split hdue hab h
      exact ⟨s₁, h₁, (ih s₁).2 h₂⟩

end Later

/-! ## Termination -/

theorem runs_of_measure {r : σ → σ → Prop} (hr : WellFounded r)
    (hturn : ∀ s, due limit s = true → r (turn s) s) (s : σ) : ∃ s', Runs due turn limit s s' := by
  induction s using hr.induction with
  | _ s ih =>
    by_cases hd : due limit s = true
    · obtain ⟨s', h⟩ := ih (turn s) (hturn s hd)
      exact ⟨s', .turn hd h⟩
    · exact ⟨s, .stop (by simpa using hd)⟩

/-- a turn takes an entry of a time within the limit off, and the entries it puts back are of later times -/
theorem soonest_terminates {times : σ → Multiset ℕ} {limit : ℕ} {due : ℕ → σ → Bool}
    (hturn : ∀ s, due limit s = true → ∃ t rest added, t ≤ limit ∧ times s = t ::ₘ rest ∧
      times (turn s) = added + rest ∧ ∀ u ∈ added, t < u) (s : σ) : ∃ s', Runs due turn limit s s' := by
  have hwf : WellFounded (InvImage Multiset.IsDershowitzMannaLT fun s => (times s).map fun t => limit + 1 - t) :=
    InvImage.wf _ Multiset.wellFounded_isDershowitzMannaLT
  refine runs_of_measure hwf (fun s hd => ?_) s
  obtain ⟨t, rest, added, ht, hs, hs', hlater⟩ := hturn s hd
  refine ⟨rest.map fun t => limit + 1 - t, added.map fun t => limit + 1 - t, {limit + 1 - t}, ?_, ?_, ?_, ?_⟩
  · exact Multiset.singleton_ne_zero _
  · dsimp only
    rw [hs', Multiset.map_add, add_comm]
  · dsimp only
    rw [hs, Multiset.map_cons, ← Multiset.singleton_add, add_comm]
  · intro y hy
    obtain ⟨u, hu, rfl⟩ := Multiset.mem_map.1 hy
    have htu := hlater u hu
    exact ⟨_, Multiset.mem_singleton_self _, by omega⟩

end Queso.EventLoop
