/-
Linearizability of a history of operations with respect to a sequential machine, and how a log yields a linearization.

A history lists invocations and completions in the order they happened; an operation may be invoked and completed more
than once, and spans from its first invocation to its first completion. `Linearization` is the usual condition on a
total order of operations.

A replicated log holds the linearization with some noise: entries that do not count, such as second copies of an
operation. `kept` is the log without it, and `of_log` turns facts about positions of the log into a linearization.
-/
import Mathlib.Tactic

namespace Queso.Linearize

variable {σ O R : Type*}

inductive Event (O R : Type*) where
  | invoked (o : O)
  | completed (o : O) (r : R)
deriving DecidableEq

/-- the state after the operations `l` -/
def replay (step : σ → O → σ × R) (s : σ) (l : List O) : σ := l.foldl (fun s o => (step s o).1) s

theorem replay_append (step : σ → O → σ × R) (s : σ) (l m : List O) :
    replay step s (l ++ m) = replay step (replay step s l) m := by
  simp [replay, List.foldl_append]

/-- the first completion of `o` returned `r` -/
def FirstCompleted (h : List (Event O R)) (o : O) (r : R) : Prop :=
  ∃ h₁ h₂, h = h₁ ++ .completed o r :: h₂ ∧ ∀ r', .completed o r' ∉ h₁

/-- `o` had completed before `o'` was first invoked -/
def Precedes (h : List (Event O R)) (o o' : O) : Prop :=
  ∃ h₁ h₂, h = h₁ ++ h₂ ∧ (∃ r, .completed o r ∈ h₁) ∧ .invoked o' ∉ h₁

/-- `l` linearizes the history `h` with respect to the machine `step` from the state `s` -/
structure Linearization (step : σ → O → σ × R) (s : σ) (h : List (Event O R)) (l : List O) : Prop where
  nodup : l.Nodup
  invoked : ∀ o ∈ l, .invoked o ∈ h
  completed : ∀ o r, .completed o r ∈ h → o ∈ l
  realTime : l.Pairwise fun o o' => ¬ Precedes h o' o
  outcomes : ∀ l₁ o l₂ r, l = l₁ ++ o :: l₂ → FirstCompleted h o r → (step (replay step s l₁) o).2 = r

/-- the entries that `keep` keeps, given what precedes them in the log; `pre` precedes the whole list -/
def kept (keep : List O → O → Bool) : List O → List O → List O
  | _, [] => []
  | pre, o :: l => if keep pre o then o :: kept keep (pre ++ [o]) l else kept keep (pre ++ [o]) l

section Kept

variable {keep : List O → O → Bool}

theorem kept_append (pre l m : List O) : kept keep pre (l ++ m) = kept keep pre l ++ kept keep (pre ++ l) m := by
  induction l generalizing pre with
  | nil => simp [kept]
  | cons o l ih =>
    simp only [List.cons_append, kept]
    rw [ih, List.append_assoc, List.singleton_append]
    split_ifs
    · rfl
    · rfl

/-- an entry that is kept splits the log where it splits what is kept -/
theorem kept_split {pre l l₁ l₂ : List O} {o : O} (h : kept keep pre l = l₁ ++ o :: l₂) :
    ∃ a b, l = a ++ o :: b ∧ keep (pre ++ a) o = true ∧ l₁ = kept keep pre a := by
  induction l generalizing pre l₁ with
  | nil => simp [kept] at h
  | cons x l ih =>
    unfold kept at h
    split_ifs at h with hx
    · cases l₁ with
      | nil =>
        simp only [List.nil_append, List.cons.injEq] at h
        obtain ⟨rfl, -⟩ := h
        exact ⟨[], l, rfl, by simpa using hx, rfl⟩
      | cons y l₁ =>
        simp only [List.cons_append, List.cons.injEq] at h
        obtain ⟨rfl, h⟩ := h
        obtain ⟨a, b, rfl, hk, hl⟩ := ih h
        refine ⟨x :: a, b, rfl, by simpa using hk, ?_⟩
        rw [kept, if_pos hx, hl]
    · obtain ⟨a, b, rfl, hk, hl⟩ := ih h
      refine ⟨x :: a, b, rfl, by simpa using hk, ?_⟩
      rw [kept, if_neg hx, hl]

theorem mem_kept {l : List O} {o : O} : o ∈ kept keep [] l ↔ ∃ a b, l = a ++ o :: b ∧ keep a o = true := by
  constructor
  · intro h
    obtain ⟨l₁, l₂, hl⟩ := List.append_of_mem h
    obtain ⟨a, b, rfl, hk, -⟩ := kept_split hl
    exact ⟨a, b, rfl, by simpa using hk⟩
  · rintro ⟨a, b, rfl, hk⟩
    rw [kept_append]
    refine List.mem_append_right _ ?_
    rw [kept, if_pos (by simpa using hk)]
    exact List.mem_cons_self ..

/-- what holds of any two kept entries of the log holds of any two of what is kept -/
theorem pairwise_kept {P : O → O → Prop} {l : List O}
    (h : ∀ a o b o' c, l = a ++ o :: (b ++ o' :: c) → keep a o = true → keep (a ++ o :: b) o' = true → P o o') :
    (kept keep [] l).Pairwise P := by
  induction l using List.reverseRecOn with
  | nil => simp [kept]
  | append_singleton l x ih =>
    rw [kept_append, List.pairwise_append]
    refine ⟨ih fun a o b o' c hl => h a o b o' (c ++ [x]) (by rw [hl]; simp), ?_, fun o ho o' ho' => ?_⟩
    · simp only [kept]
      split_ifs
      · exact List.pairwise_singleton ..
      · exact .nil
    · obtain ⟨a, b, rfl, hk⟩ := mem_kept.1 ho
      simp only [kept] at ho'
      split_ifs at ho' with hx
      · obtain rfl := List.mem_singleton.1 ho'
        exact h a o b o' [] (by simp) hk (by simpa using hx)
      · exact absurd ho' (by simp)

/-- leaving out entries that change nothing leaves the state -/
theorem replay_kept {step : σ → O → σ × R} {s : σ} {l : List O}
    (hdrop : ∀ a o b, l = a ++ o :: b → keep a o = false → (step (replay step s a) o).1 = replay step s a) :
    replay step s (kept keep [] l) = replay step s l := by
  induction l using List.reverseRecOn with
  | nil => rfl
  | append_singleton l x ih =>
    have hl := ih fun a o b hab => hdrop a o (b ++ [x]) (by rw [hab]; simp)
    rw [kept_append, replay_append, replay_append, hl]
    simp only [kept, List.nil_append]
    split_ifs with hx
    · rfl
    · exact (hdrop l x [] rfl (by simpa using hx)).symm

end Kept

/-- **A log whose noise changes nothing is a linearization**, if its kept entries are the operations of the history,
once each, in an order that respects real time, and with the outcomes of the history. -/
theorem of_log {step : σ → O → σ × R} {s : σ} {h : List (Event O R)} {keep : List O → O → Bool} {l : List O}
    (hdrop : ∀ a o b, l = a ++ o :: b → keep a o = false → (step (replay step s a) o).1 = replay step s a)
    (honce : ∀ a o b o' c, l = a ++ o :: (b ++ o' :: c) → keep a o = true → keep (a ++ o :: b) o' = true → o ≠ o')
    (hinvoked : ∀ a o b, l = a ++ o :: b → keep a o = true → .invoked o ∈ h)
    (hcompleted : ∀ o r, .completed o r ∈ h → ∃ a b, l = a ++ o :: b ∧ keep a o = true)
    (hreal : ∀ a o b o' c, l = a ++ o :: (b ++ o' :: c) → keep a o = true → keep (a ++ o :: b) o' = true →
      ¬ Precedes h o' o)
    (hout : ∀ a o b r, l = a ++ o :: b → keep a o = true → FirstCompleted h o r →
      (step (replay step s a) o).2 = r) :
    Linearization step s h (kept keep [] l) where
  nodup := pairwise_kept honce
  invoked := fun o ho => by
    obtain ⟨a, b, hl, hk⟩ := mem_kept.1 ho
    exact hinvoked a o b hl hk
  completed := fun o r hc => mem_kept.2 (hcompleted o r hc)
  realTime := pairwise_kept hreal
  outcomes := fun l₁ o l₂ r hl hr => by
    obtain ⟨a, b, rfl, hk, rfl⟩ := kept_split hl
    have hk' : keep a o = true := by simpa using hk
    rw [replay_kept fun a' o' b' hab => hdrop a' o' (b' ++ o :: b) (by rw [hab]; simp)]
    exact hout a o b r rfl hk' hr

end Queso.Linearize
