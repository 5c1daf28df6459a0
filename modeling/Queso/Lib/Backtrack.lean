/-
Ordering items that a deterministic partial machine must all accept, and searching for such an order.

`Schedule before step todo s order`: `order` arranges the items `todo`, none after an item it must precede, and the
machine takes them one after the other from `s`.

- `schedulable_iff`: a schedule starts with a minimal item that the machine accepts, and goes on with the others.
- `Schedulable.of_sim`: states that simulate each other have the same schedules.
- `Schedule.of_map`: a schedule of images is the image of a schedule.
- `tryEach_spec`: the loop of a backtracking search, which tries items in turn and threads a memo through them, finds
  a good item when there is one and keeps the memo's invariant.
-/
import Mathlib.Tactic

namespace Queso.Backtrack

variable {ι κ σ M : Type*}

/-- the machine takes the items one after the other from `s` -/
def Runs (step : ι → σ → Option σ) : List ι → σ → Prop
  | [], _ => True
  | i :: l, s => ∃ s', step i s = some s' ∧ Runs step l s'

structure Schedule (before : ι → ι → Prop) (step : ι → σ → Option σ) (todo : List ι) (s : σ) (order : List ι) :
    Prop where
  perm : order.Perm todo
  respects : order.Pairwise fun i j => ¬ before j i
  runs : Runs step order s

def Schedulable (before : ι → ι → Prop) (step : ι → σ → Option σ) (todo : List ι) (s : σ) : Prop :=
  ∃ order, Schedule before step todo s order

section

variable {before : ι → ι → Prop} {step : ι → σ → Option σ} {todo : List ι} {s : σ}

theorem schedulable_nil : Schedulable before step [] s := ⟨[], .nil, .nil, trivial⟩

theorem schedulable_iff [DecidableEq ι] (hne : todo ≠ []) :
    Schedulable before step todo s ↔ ∃ i ∈ todo, (∀ j ∈ todo.erase i, ¬ before j i) ∧
      ∃ s', step i s = some s' ∧ Schedulable before step (todo.erase i) s' := by
  constructor
  · rintro ⟨order, hperm, hresp, hruns⟩
    cases order with
    | nil => exact absurd hperm.nil_eq.symm hne
    | cons i rest =>
      obtain ⟨hmem, hrest⟩ := List.cons_perm_iff_perm_erase.1 hperm
      obtain ⟨hmin, hresp⟩ := List.pairwise_cons.1 hresp
      obtain ⟨s', hs', hruns⟩ := hruns
      exact ⟨i, hmem, fun j hj => hmin j (hrest.mem_iff.2 hj), s', hs', rest, hrest, hresp, hruns⟩
  · rintro ⟨i, hmem, hmin, s', hs', rest, hrest, hresp, hruns⟩
    refine ⟨i :: rest, List.cons_perm_iff_perm_erase.2 ⟨hmem, hrest⟩, ?_, s', hs', hruns⟩
    exact List.pairwise_cons.2 ⟨fun j hj => hmin j (hrest.mem_iff.1 hj), hresp⟩

theorem Runs.of_sim {R : σ → σ → Prop}
    (hsim : ∀ i s t s', R s t → step i s = some s' → ∃ t', step i t = some t' ∧ R s' t') {l : List ι} {s t : σ}
    (hR : R s t) (h : Runs step l s) : Runs step l t := by
  induction l generalizing s t with
  | nil => trivial
  | cons i l ih =>
    obtain ⟨s', hs', hl⟩ := h
    obtain ⟨t', ht', hR'⟩ := hsim i s t s' hR hs'
    exact ⟨t', ht', ih hR' hl⟩

theorem Schedulable.of_sim {R : σ → σ → Prop}
    (hsim : ∀ i s t s', R s t → step i s = some s' → ∃ t', step i t = some t' ∧ R s' t') {t : σ} (hR : R s t)
    (h : Schedulable before step todo s) : Schedulable before step todo t := by
  obtain ⟨order, hperm, hresp, hruns⟩ := h
  exact ⟨order, hperm, hresp, hruns.of_sim hsim hR⟩

theorem runs_map {f : κ → ι} {l : List κ} {s : σ} : Runs step (l.map f) s ↔ Runs (fun k => step (f k)) l s := by
  induction l generalizing s with
  | nil => exact Iff.rfl
  | cons k l ih => simp only [List.map_cons, Runs, ih]

/-- **A schedule of images is the image of a schedule.** -/
theorem schedulable_map {f : κ → ι} {l : List κ} :
    Schedulable before step (l.map f) s ↔ Schedulable (fun k k' => before (f k) (f k')) (fun k => step (f k)) l s := by
  constructor
  · rintro ⟨order, hperm, hresp, hruns⟩
    have hex : Relation.Comp (· = List.map f ·) List.Perm order l := by
      rw [List.eq_map_comp_perm]
      exact hperm
    obtain ⟨m, rfl, hm⟩ := hex
    exact ⟨m, hm, List.pairwise_map.1 hresp, runs_map.1 hruns⟩
  · rintro ⟨m, hm, hresp, hruns⟩
    exact ⟨m.map f, hm.map f, List.pairwise_map.2 hresp, runs_map.2 hruns⟩

end

/-- try the items in turn until one is good, threading a memo -/
def tryEach (f : ι → M → Bool × M) : List ι → M → Bool × M
  | [], m => (false, m)
  | i :: l, m => if (f i m).1 then f i m else tryEach f l (f i m).2

/-- **The loop finds a good item when there is one**, whatever the memo, as long as its invariant holds. -/
theorem tryEach_spec {f : ι → M → Bool × M} {I : M → Prop} {P : ι → Prop} {l : List ι}
    (hf : ∀ i ∈ l, ∀ m, I m → ((f i m).1 = true ↔ P i) ∧ I (f i m).2) {m : M} (hm : I m) :
    ((tryEach f l m).1 = true ↔ ∃ i ∈ l, P i) ∧ I (tryEach f l m).2 := by
  induction l generalizing m with
  | nil => simpa [tryEach] using hm
  | cons i l ih =>
    obtain ⟨hi, hI⟩ := hf i List.mem_cons_self m hm
    rw [tryEach]
    split_ifs with hgood
    · exact ⟨by simpa [hgood] using .inl (hi.1 hgood), hI⟩
    · obtain ⟨hl, hIl⟩ := ih (fun j hj => hf j (List.mem_cons_of_mem i hj)) hI
      have hbad : ¬ P i := fun hP => hgood (hi.2 hP)
      exact ⟨by simpa [hbad] using hl, hIl⟩

end Queso.Backtrack
