/-
Runs of a deterministic machine over a list of labels, and the rules a safety proof uses on them.

`run step s l` is the state after the labels `l`. `Along step P s l` says that every label of the run meets `P` in the
state it is taken from. It carries what a run is promised (a contract of the environment, a condition on the steps)
without building it into the machine.

- `run_invariant`: an invariant preserved by every allowed step holds after an allowed run.
- `along_of_invariant`: what an invariant implies of each step holds along the run.
-/
import Mathlib.Tactic

namespace Queso.Runs

variable {σ τ α β : Type*}

/-- the state after the labels `l` -/
def run (step : σ → α → σ) (s : σ) (l : List α) : σ := l.foldl step s

/-- every label of the run meets `P` in the state it is taken from -/
def Along (step : σ → α → σ) (P : σ → α → Prop) : σ → List α → Prop
  | _, [] => True
  | s, a :: l => P s a ∧ Along step P (step s a) l

@[simp] theorem run_nil (step : σ → α → σ) (s : σ) : run step s [] = s := rfl

@[simp] theorem run_cons (step : σ → α → σ) (s : σ) (a : α) (l : List α) :
    run step s (a :: l) = run step (step s a) l := rfl

theorem run_append (step : σ → α → σ) (s : σ) (l m : List α) :
    run step s (l ++ m) = run step (run step s l) m := by
  simp [run, List.foldl_append]

theorem run_snoc (step : σ → α → σ) (s : σ) (l : List α) (a : α) :
    run step s (l ++ [a]) = step (run step s l) a := by
  simp [run, List.foldl_append]

@[simp] theorem along_nil (step : σ → α → σ) (P : σ → α → Prop) (s : σ) : Along step P s [] := trivial

@[simp] theorem along_cons (step : σ → α → σ) (P : σ → α → Prop) (s : σ) (a : α) (l : List α) :
    Along step P s (a :: l) ↔ P s a ∧ Along step P (step s a) l := Iff.rfl

instance decidableAlong (step : σ → α → σ) (P : σ → α → Prop) [∀ s a, Decidable (P s a)] :
    ∀ (s : σ) (l : List α), Decidable (Along step P s l)
  | _, [] => .isTrue trivial
  | s, a :: l => @instDecidableAnd _ _ _ (decidableAlong step P (step s a) l)

theorem along_append {step : σ → α → σ} {P : σ → α → Prop} {s : σ} {l m : List α} :
    Along step P s (l ++ m) ↔ Along step P s l ∧ Along step P (run step s l) m := by
  induction l generalizing s with
  | nil => simp
  | cons a l ih => simp [ih, and_assoc]

theorem Along.imp {step : σ → α → σ} {P Q : σ → α → Prop} (h : ∀ s a, P s a → Q s a) {s : σ} {l : List α}
    (hl : Along step P s l) : Along step Q s l := by
  induction l generalizing s with
  | nil => trivial
  | cons a l ih => exact ⟨h s a hl.1, ih hl.2⟩

theorem Along.and {step : σ → α → σ} {P Q : σ → α → Prop} {s : σ} {l : List α}
    (hP : Along step P s l) (hQ : Along step Q s l) : Along step (fun s a => P s a ∧ Q s a) s l := by
  induction l generalizing s with
  | nil => trivial
  | cons a l ih => exact ⟨⟨hP.1, hQ.1⟩, ih hP.2 hQ.2⟩

theorem along_true (step : σ → α → σ) (s : σ) (l : List α) : Along step (fun _ _ => True) s l := by
  induction l generalizing s with
  | nil => trivial
  | cons a l ih => exact ⟨trivial, ih _⟩

/-- every label of a run is one of its labels -/
theorem along_mem (step : σ → α → σ) (s : σ) (l : List α) : Along step (fun _ a => a ∈ l) s l := by
  suffices h : ∀ m, (∀ a ∈ m, a ∈ l) → ∀ s, Along step (fun _ a => a ∈ l) s m from h l (fun _ ha => ha) s
  intro m
  induction m with
  | nil => exact fun _ _ => trivial
  | cons a m ih =>
    exact fun hm s => ⟨hm a (List.mem_cons_self ..), ih (fun b hb => hm b (List.mem_cons_of_mem _ hb)) _⟩

/-- **Invariant rule.** What every allowed step preserves, an allowed run preserves. -/
theorem run_invariant {step : σ → α → σ} {P : σ → α → Prop} {I : σ → Prop}
    (hstep : ∀ s a, I s → P s a → I (step s a)) {s : σ} {l : List α} (hs : I s) (hl : Along step P s l) :
    I (run step s l) := by
  induction l generalizing s with
  | nil => exact hs
  | cons a l ih => exact ih (hstep s a hs hl.1) hl.2

/-- **Step rule.** What an invariant implies of the next allowed step holds along the whole run. -/
theorem along_of_invariant {step : σ → α → σ} {P Q : σ → α → Prop} {I : σ → Prop}
    (hstep : ∀ s a, I s → P s a → I (step s a)) (hQ : ∀ s a, I s → P s a → Q s a) {s : σ} {l : List α}
    (hs : I s) (hl : Along step P s l) : Along step Q s l := by
  induction l generalizing s with
  | nil => trivial
  | cons a l ih => exact ⟨hQ s a hs hl.1, ih (hstep s a hs hl.1) hl.2⟩

end Queso.Runs
