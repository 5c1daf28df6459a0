/-
Calls that are served from a log.

A history lists calls, and their returns with the slot of the log that served them. An operation may be in the log more
than once. One that writes takes effect where it changes the state, which it does once; one that does not takes effect at
the slot of its first return. `Served` says what a return promises: the slot holds the operation, the log up to it holds no
call that was made later, and the result is that of the operation where it takes effect.

- `Served.linearization`: the entries that take effect linearize the history.
- `Linearization.abstracts`: a linearization of one machine is one of a simpler machine that agrees along it.
-/
import Queso.Lib.Linearize

namespace Queso.Linearize

variable {σ τ O R : Type*}

inductive Call (O R : Type*) where
  | called (o : O)
  | returned (o : O) (slot : ℕ) (r : R)
deriving DecidableEq

def Call.event : Call O R → Event O R
  | .called o => .invoked o
  | .returned o _ r => .completed o r

theorem invoked_iff {h : List (Call O R)} {o : O} : .invoked o ∈ h.map Call.event ↔ .called o ∈ h := by
  rw [List.mem_map]
  constructor
  · rintro ⟨e, he, heq⟩
    cases e with
    | called o' => exact Event.invoked.inj heq ▸ he
    | returned o' k r => exact absurd heq (by simp [Call.event])
  · exact fun h => ⟨_, h, rfl⟩

theorem completed_iff {h : List (Call O R)} {o : O} {r : R} :
    .completed o r ∈ h.map Call.event ↔ ∃ k, .returned o k r ∈ h := by
  rw [List.mem_map]
  constructor
  · rintro ⟨e, he, heq⟩
    cases e with
    | called o' => exact absurd heq (by simp [Call.event])
    | returned o' k r' =>
      obtain ⟨rfl, rfl⟩ := Event.completed.inj heq
      exact ⟨k, he⟩
  · exact fun ⟨k, h⟩ => ⟨_, h, rfl⟩

section Slots

variable [DecidableEq O]

/-- the slot at which `o` first returned -/
def firstSlot (h : List (Call O R)) (o : O) : Option ℕ :=
  h.findSome? fun
    | .returned o' k _ => if o' = o then some k else none
    | .called _ => none

theorem firstSlot_eq {h : List (Call O R)} {o : O} {k : ℕ} (hk : firstSlot h o = some k) :
    ∃ g r g', h = g ++ .returned o k r :: g' := by
  obtain ⟨g, e, g', rfl, he, -⟩ := List.findSome?_eq_some_iff.1 hk
  cases e with
  | called o' => exact absurd he (by simp)
  | returned o' k' r =>
    dsimp only at he
    split_ifs at he with heq
    obtain rfl := Option.some.inj he
    exact ⟨g, r, g', by rw [heq]⟩

theorem firstSlot_of_mem {h : List (Call O R)} {o : O} {k : ℕ} {r : R} (hm : .returned o k r ∈ h) :
    ∃ k', firstSlot h o = some k' := by
  rw [← Option.isSome_iff_exists]
  unfold firstSlot
  rw [List.findSome?_isSome_iff]
  exact ⟨_, hm, by simp⟩

theorem firstSlot_append {h h' : List (Call O R)} {o : O} {k : ℕ} (hk : firstSlot h o = some k) :
    firstSlot (h ++ h') o = some k := by
  unfold firstSlot at hk ⊢
  rw [List.findSome?_append, hk, Option.some_or]

/-- the first return of an operation is that of its first slot -/
theorem firstSlot_first {g g' : List (Call O R)} {o : O} {k : ℕ} {r : R} (hno : ∀ r', .completed o r' ∉ g.map Call.event) :
    firstSlot (g ++ .returned o k r :: g') o = some k := by
  unfold firstSlot
  rw [List.findSome?_eq_some_iff]
  refine ⟨g, _, g', rfl, if_pos rfl, fun e he => ?_⟩
  cases e with
  | called o' => rfl
  | returned o' k' r' =>
    refine if_neg fun heq => hno r' ?_
    subst heq
    exact completed_iff.2 ⟨k', he⟩

end Slots

variable [DecidableEq σ]

/-- after the operations `pre` the operation `o` changes the state -/
def changes (step : σ → O → σ × R) (s : σ) (pre : List O) (o : O) : Bool :=
  decide ((step (replay step s pre) o).1 ≠ replay step s pre)

/-- the history `h` was served from the log `l` -/
structure Served (step : σ → O → σ × R) (s : σ) (writes : O → Bool) (h : List (Call O R)) (l : List O) : Prop where
  reads : ∀ s o, writes o = false → (step s o).1 = s
  once : ∀ a o b c, l = a ++ o :: (b ++ o :: c) → changes step s a o = true → changes step s (a ++ o :: b) o = false
  called : ∀ a o b, l = a ++ o :: b → changes step s a o = true → .called o ∈ h
  entry : ∀ g o k r g', h = g ++ .returned o k r :: g' → ∃ a b, l = a ++ o :: b ∧ a.length = k
  asked : ∀ g o k r g', h = g ++ .returned o k r :: g' → .called o ∈ g
  before : ∀ g o k r g', h = g ++ .returned o k r :: g' → ∀ a o' b, l = a ++ o' :: b → a.length ≤ k → .called o' ∈ h →
    .called o' ∈ g
  written : ∀ g o k r g', h = g ++ .returned o k r :: g' → writes o = true →
    ∃ a b, l = a ++ o :: b ∧ a.length ≤ k ∧ changes step s a o = true
  wrote : ∀ g o k r g', h = g ++ .returned o k r :: g' → writes o = true → ∀ s, (step s o).2 = r
  read : ∀ g o k r g', h = g ++ .returned o k r :: g' → writes o = false →
    ∀ a b, l = a ++ o :: b → a.length = k → (step (replay step s a) o).2 = r

section Served

variable {step : σ → O → σ × R} {s : σ} {writes : O → Bool} {h : List (Call O R)} {l : List O}

theorem Served.writes_of_changes (hs : Served step s writes h l) {a : List O} {o : O} (hc : changes step s a o = true) :
    writes o = true := by
  by_contra hw
  exact of_decide_eq_true hc (hs.reads _ o (by simpa using hw))

/-- the log changes by one operation at one place only -/
theorem Served.place (hs : Served step s writes h l) {a b a' b' : List O} {o : O} (hl : l = a ++ o :: b)
    (hl' : l = a' ++ o :: b') (hc : changes step s a o = true) (hc' : changes step s a' o = true) :
    a.length = a'.length := by
  rcases List.append_eq_append_iff.1 (hl.symm.trans hl') with ⟨m, rfl, hm⟩ | ⟨m, rfl, hm⟩
  · cases m with
    | nil => simp
    | cons x m =>
      obtain ⟨rfl, rfl⟩ := List.cons.inj hm
      have hno := hs.once a o m b' hl hc
      exact absurd (hno.symm.trans hc') (by simp)
  · cases m with
    | nil => simp
    | cons x m =>
      obtain ⟨rfl, rfl⟩ := List.cons.inj hm
      have hno := hs.once a' o m b hl' hc'
      exact absurd (hno.symm.trans hc) (by simp)

variable [DecidableEq O]

/-- an operation that writes takes effect where it changes the state, another where it first returned -/
def takesEffect (step : σ → O → σ × R) (s : σ) (writes : O → Bool) (h : List (Call O R)) (pre : List O) (o : O) : Bool :=
  changes step s pre o || (!writes o && decide (firstSlot h o = some pre.length))

theorem Served.effect_cases (hs : Served step s writes h l) {a : List O} {o : O}
    (heff : takesEffect step s writes h a o = true) :
    writes o = true ∧ changes step s a o = true ∨ writes o = false ∧ firstSlot h o = some a.length := by
  rcases Bool.or_eq_true_iff.1 heff with hc | hr
  · exact .inl ⟨hs.writes_of_changes hc, hc⟩
  · obtain ⟨hw, hk⟩ := Bool.and_eq_true_iff.1 hr
    exact .inr ⟨by simpa using hw, of_decide_eq_true hk⟩

/-- what takes effect was called -/
theorem Served.invoked (hs : Served step s writes h l) {a b : List O} {o : O} (hl : l = a ++ o :: b)
    (heff : takesEffect step s writes h a o = true) : .called o ∈ h := by
  rcases hs.effect_cases heff with ⟨-, hc⟩ | ⟨-, hk⟩
  · exact hs.called a o b hl hc
  · obtain ⟨g, r, g', hg⟩ := firstSlot_eq hk
    rw [hg]
    exact List.mem_append_left _ (hs.asked g o _ r g' hg)

/-- an operation that returned takes effect no later than at the slot that served it first -/
theorem Served.effect (hs : Served step s writes h l) {o : O} {k : ℕ} (hk : firstSlot h o = some k) :
    ∃ a b, l = a ++ o :: b ∧ a.length ≤ k ∧ takesEffect step s writes h a o = true := by
  obtain ⟨g, r, g', hg⟩ := firstSlot_eq hk
  unfold takesEffect
  cases hw : writes o with
  | true =>
    obtain ⟨a, b, hl, hle, hc⟩ := hs.written g o k r g' hg hw
    exact ⟨a, b, hl, hle, by rw [hc]; rfl⟩
  | false =>
    obtain ⟨a, b, hl, hlen⟩ := hs.entry g o k r g' hg
    refine ⟨a, b, hl, hlen.le, ?_⟩
    rw [hlen, decide_eq_true hk]
    simp

/-- an operation that returned before another was called takes effect before it -/
theorem Served.realTime (hs : Served step s writes h l) {a b c : List O} {o o' : O} (hl : l = a ++ o :: (b ++ o' :: c))
    (heff : takesEffect step s writes h a o = true) (heff' : takesEffect step s writes h (a ++ o :: b) o' = true) :
    ¬ Precedes (h.map Call.event) o' o := by
  rintro ⟨h₁, h₂, hsplit, ⟨r, hr⟩, hnot⟩
  obtain ⟨g₁, g₂, hg, rfl, rfl⟩ := List.map_eq_append_iff.1 hsplit
  obtain ⟨k₁, hdone⟩ := completed_iff.1 hr
  obtain ⟨k, hk⟩ := firstSlot_of_mem hdone
  obtain ⟨g, r', g', rfl⟩ := firstSlot_eq hk
  have hfirst : firstSlot h o' = some k := by rw [hg]; exact firstSlot_append hk
  have hhist : h = g ++ .returned o' k r' :: (g' ++ g₂) := by rw [hg]; simp
  have hl' : l = (a ++ o :: b) ++ o' :: c := by rw [hl]; simp
  -- `o'` takes effect by slot `k`, so `o` is in the log by then
  have hle : (a ++ o :: b).length ≤ k := by
    rcases hs.effect_cases heff' with ⟨hw, hc⟩ | ⟨-, hslot⟩
    · obtain ⟨a', b', hl'', hle, hc'⟩ := hs.written _ _ _ _ _ hhist hw
      rw [hs.place hl' hl'' hc hc']
      exact hle
    · exact (Option.some.inj (hfirst.symm.trans hslot)).ge
  have hlt : a.length ≤ k := by
    rw [List.length_append] at hle
    omega
  have hcalled := hs.before _ _ _ _ _ hhist a o _ hl hlt (hs.invoked hl heff)
  exact hnot (invoked_iff.2 (List.mem_append_left _ hcalled))

/-- **What was served from a log linearizes**: the entries that take effect. -/
theorem Served.linearization (hs : Served step s writes h l) :
    Linearization step s (h.map Call.event) (kept (takesEffect step s writes h) [] l) := by
  refine of_log ?_ ?_ ?_ ?_ ?_ ?_
  · intro a o b _ heff
    have hsame := (Bool.or_eq_false_iff.1 heff).1
    exact not_not.1 (of_decide_eq_false hsame)
  · rintro a o b o' c hl heff heff' rfl
    rcases hs.effect_cases heff with ⟨hw, hc⟩ | ⟨hw, hk⟩
    · rcases hs.effect_cases heff' with ⟨-, hc'⟩ | ⟨hw', -⟩
      · exact absurd ((hs.once a o b c hl hc).symm.trans hc') (by simp)
      · exact absurd (hw.symm.trans hw') (by simp)
    · rcases hs.effect_cases heff' with ⟨hw', -⟩ | ⟨-, hk'⟩
      · exact absurd (hw.symm.trans hw') (by simp)
      · have hlen := Option.some.inj (hk.symm.trans hk')
        rw [List.length_append, List.length_cons] at hlen
        omega
  · exact fun a o b hl heff => invoked_iff.2 (hs.invoked hl heff)
  · intro o r hc
    obtain ⟨k₁, hdone⟩ := completed_iff.1 hc
    obtain ⟨k, hk⟩ := firstSlot_of_mem hdone
    obtain ⟨a, b, hl, -, heff⟩ := hs.effect hk
    exact ⟨a, b, hl, heff⟩
  · exact fun a o b o' c hl heff heff' => hs.realTime hl heff heff'
  · intro a o b r hl heff hr
    obtain ⟨h₁, h₂, hsplit, hno⟩ := hr
    obtain ⟨g, g', rfl, rfl, hmap⟩ := List.map_eq_append_iff.1 hsplit
    obtain ⟨e, g', rfl, he, -⟩ := List.map_eq_cons_iff.1 hmap
    cases e with
    | called o' => exact absurd he (by simp [Call.event])
    | returned o' k r' =>
      obtain ⟨rfl, rfl⟩ := Event.completed.inj he
      rcases hs.effect_cases heff with ⟨hw, -⟩ | ⟨hw, hk⟩
      · exact hs.wrote g o' k r' g' rfl hw _
      · have hlen := Option.some.inj (hk.symm.trans (firstSlot_first hno))
        exact hs.read g o' k r' g' rfl hw a b hl hlen

end Served

omit [DecidableEq σ] in
/-- **A simpler machine**: what agrees with the machine at each operation of a linearization is linearized by it too. -/
theorem Linearization.abstracts {step : σ → O → σ × R} {s : σ} {h : List (Event O R)} {l : List O}
    (hlin : Linearization step s h l) {step' : τ → O → τ × R} {t : τ} (abs : σ → τ) (hinit : abs s = t)
    (hagree : ∀ l₁ o l₂, l = l₁ ++ o :: l₂ → abs (step (replay step s l₁) o).1 = (step' (abs (replay step s l₁)) o).1 ∧
      (step (replay step s l₁) o).2 = (step' (abs (replay step s l₁)) o).2) : Linearization step' t h l := by
  have hstate : ∀ l₁ l₂, l = l₁ ++ l₂ → abs (replay step s l₁) = replay step' t l₁ := by
    intro l₁
    induction l₁ using List.reverseRecOn with
    | nil => exact fun _ _ => hinit
    | append_singleton l₁ o ih =>
      intro l₂ hl
      have hl' : l = l₁ ++ o :: l₂ := by rw [hl]; simp
      rw [replay_append, replay_append, ← ih _ hl']
      exact (hagree l₁ o l₂ hl').1
  exact
    { hlin with
      outcomes := fun l₁ o l₂ r hl hr => by
        rw [← hstate l₁ _ hl, ← (hagree l₁ o l₂ hl).2]
        exact hlin.outcomes l₁ o l₂ r hl hr }

end Queso.Linearize
