/-
Signals over discrete time, and what a sampler sees of them.

A signal is a function of time. Between two boundaries it does not change, so walking the boundaries finds everything that
happens to it; a sampler sees only its values at the instants of a grid. What is compared is how often a series of values
moves to one that is not at rest: a sampler that misses some values misses some moves, and never makes one up.

- `moves_sublist`: a part of a series has no more moves than the whole.
- `sum_moves_le_arrivals`: over a series of sets, the moves of the elements are arrivals in the sets.
- `Tracked`: the intervals during which a signal is on, as a walk over the boundaries opens and closes them.
- `pieces`: the values of a signal and since when, as such a walk finds them.
- `moves_lasting_le`: a sampler sees every move of the pieces longer than its step.
- `settled`: the last value that lasted; `moves_lasting_later` counts its moves by the pieces that last.
-/
import Mathlib.Algebra.BigOperators.Group.Finset.Piecewise
import Mathlib.Algebra.Order.BigOperators.Group.Finset
import Mathlib.Data.List.Sort

namespace Queso.Signal

variable {α κ : Type} [DecidableEq α] [DecidableEq κ]

/-! ## Moves -/

/-- how often a series of values moves, from `prev` on, to a new value other than `rest` -/
def moves (rest : α) : α → List α → ℕ
  | _, [] => 0
  | prev, v :: vs => (if v ≠ prev ∧ v ≠ rest then 1 else 0) + moves rest v vs

variable {rest prev a : α} {l l' : List α}

@[simp] theorem moves_nil : moves rest prev [] = 0 := rfl

theorem moves_append : moves rest prev (l ++ l') = moves rest prev l + moves rest (l.getLastD prev) l' := by
  induction l generalizing prev with
  | nil => exact (Nat.zero_add _).symm
  | cons v vs ih => rw [List.cons_append, moves, ih, moves, Nat.add_assoc, List.getLastD_cons]

/-- a stop on the way makes no move fewer -/
theorem moves_le_via : moves rest prev l ≤ (if a ≠ prev ∧ a ≠ rest then 1 else 0) + moves rest a l := by
  cases l with
  | nil => exact Nat.zero_le _
  | cons v vs =>
    unfold moves
    by_cases hva : v = a
    · subst hva
      split_ifs <;> omega
    · by_cases hv : v = rest
      · simp [hv]
      · rw [if_pos (show v ≠ a ∧ v ≠ rest from ⟨hva, hv⟩)]
        split_ifs <;> omega

theorem moves_sublist (h : l.Sublist l') : moves rest prev l ≤ moves rest prev l' := by
  induction h generalizing prev with
  | slnil => exact le_rfl
  | cons v _ ih => exact moves_le_via.trans (Nat.add_le_add_left ih _)
  | cons_cons v _ ih => exact Nat.add_le_add_left ih _

theorem moves_at_rest (h : ∀ v ∈ l, v = rest) : moves rest prev l = 0 := by
  induction l generalizing prev with
  | nil => rfl
  | cons v vs ih =>
    obtain ⟨hv, hvs⟩ := List.forall_mem_cons.1 h
    rw [moves, ih hvs, if_neg fun hmove => hmove.2 hv]

/-! ## Arrivals -/

/-- how many elements arrive in a series of sets, from `prev` on -/
def arrivals : Finset κ → List (Finset κ) → ℕ
  | _, [] => 0
  | prev, s :: ss => (s \ prev).card + arrivals s ss

theorem arrivals_append (prev : Finset κ) (ss ss' : List (Finset κ)) :
    arrivals prev (ss ++ ss') = arrivals prev ss + arrivals (ss.getLastD prev) ss' := by
  induction ss generalizing prev with
  | nil => exact (Nat.zero_add _).symm
  | cons s ss ih => rw [List.cons_append, arrivals, ih, arrivals, Nat.add_assoc, List.getLastD_cons]

/-- an element that moves in is one that arrives -/
theorem sum_moves_le_arrivals (keys prev : Finset κ) (ss : List (Finset κ)) :
    ∑ k ∈ keys, moves false (decide (k ∈ prev)) (ss.map fun s => decide (k ∈ s)) ≤ arrivals prev ss := by
  induction ss generalizing prev with
  | nil => simp
  | cons s ss ih =>
    simp only [List.map_cons, moves, Finset.sum_add_distrib]
    refine Nat.add_le_add ?_ (ih s)
    rw [← Finset.card_filter]
    refine Finset.card_le_card fun k hk => ?_
    obtain ⟨-, hne, hin⟩ := Finset.mem_filter.1 hk
    have hs : k ∈ s := by simpa using hin
    exact Finset.mem_sdiff.2 ⟨hs, fun hp => hne (by simp [hs, hp])⟩

/-! ## Grids -/

/-- the first `count` instants of a grid -/
def grid (step count : ℕ) : List ℕ := (List.range count).map fun k => k * step

variable {step count t : ℕ}

theorem mem_grid : t ∈ grid step count ↔ ∃ k < count, k * step = t := by simp [grid]

theorem le_of_mem_grid (h : t ∈ grid step (count + 1)) : t ≤ count * step := by
  obtain ⟨k, hk, rfl⟩ := mem_grid.1 h
  exact Nat.mul_le_mul_right step (Nat.le_of_lt_succ hk)

/-- a grid has an instant in every interval of a step -/
theorem exists_grid (h : 1 ≤ step) (a : ℕ) : ∃ k, a ≤ k * step ∧ k * step < a + step := by
  refine ⟨(a + step - 1) / step, ?_, ?_⟩
  · have hlt := Nat.lt_div_mul_add (a := a + step - 1) h
    omega
  · have hle := Nat.div_mul_le_self (a + step - 1) step
    omega

theorem grid_pairwise (h : 1 ≤ step) : (grid step count).Pairwise (· < ·) := by
  unfold grid
  rw [List.pairwise_map]
  exact List.pairwise_lt_range.imp fun hlt => Nat.mul_lt_mul_of_pos_right hlt h

/-- increasing instants of a grid are part of it -/
theorem sublist_grid (h : 1 ≤ step) {instants : List ℕ} (hp : instants.Pairwise (· < ·))
    (hin : ∀ t ∈ instants, t ∈ grid step count) : instants.Sublist (grid step count) := by
  have hnodup : instants.Nodup := hp.imp fun hlt => hlt.ne
  have hperm : instants.Subperm (grid step count) := hnodup.subperm hin
  exact List.sublist_of_subperm_of_pairwise hperm hp (grid_pairwise h)

theorem grid_sublist_range (h : 1 ≤ step) : (grid step (count + 1)).Sublist (List.range (count * step + 1)) := by
  have hnodup : (grid step (count + 1)).Nodup := (grid_pairwise h).imp fun hlt => hlt.ne
  have hsub : grid step (count + 1) ⊆ List.range (count * step + 1) := fun t ht =>
    List.mem_range.2 (Nat.lt_succ_of_le (le_of_mem_grid ht))
  exact List.sublist_of_subperm_of_pairwise (hnodup.subperm hsub) (grid_pairwise h) List.pairwise_lt_range

/-! ## Intervals -/

/-- consecutive intervals during which a signal is on, and off between them and right after the last -/
structure Spans (on : ℕ → Prop) (spans : List (ℕ × ℕ)) : Prop where
  each : ∀ s ∈ spans, s.1 < s.2 ∧ (∀ t, s.1 ≤ t → t < s.2 → on t) ∧ ¬ on s.2
  chain : spans.IsChain fun s s' => s.2 < s'.1 ∧ ∀ t, s.2 ≤ t → t < s'.1 → ¬ on t

/-- the intervals closed by a walk that has reached `now`, and the start of the one that is open; every start satisfies
`start` -/
structure Tracked (start on : ℕ → Prop) (now : ℕ) (closed : List (ℕ × ℕ)) (opened : Option ℕ) : Prop where
  spans : Spans on closed
  starts : ∀ s ∈ closed, start s.1
  open_iff : opened.isSome ↔ on now
  since : ∀ a, opened = some a → start a ∧ a ≤ now ∧ (∀ t, a ≤ t → t ≤ now → on t) ∧
    ∀ s, closed.getLast? = some s → s.2 < a ∧ ∀ t, s.2 ≤ t → t < a → ¬ on t
  quiet : opened = none → ∀ s, closed.getLast? = some s → s.2 ≤ now ∧ ∀ t, s.2 ≤ t → t ≤ now → ¬ on t

variable {start on : ℕ → Prop} {now next : ℕ} {closed : List (ℕ × ℕ)} {opened : Option ℕ}

theorem tracked_off (start on : ℕ → Prop) (h : ¬ on now) : Tracked start on now [] none where
  spans := ⟨fun s hs => absurd hs List.not_mem_nil, List.IsChain.nil⟩
  starts := fun s hs => absurd hs List.not_mem_nil
  open_iff := by simp [h]
  since := fun a ha => by cases ha
  quiet := fun _ s hs => by cases hs

theorem tracked_on (start on : ℕ → Prop) (h : on now) (hs : start now) : Tracked start on now [] (some now) where
  spans := ⟨fun s hs => absurd hs List.not_mem_nil, List.IsChain.nil⟩
  starts := fun s hs => absurd hs List.not_mem_nil
  open_iff := by simp [h]
  since := fun a ha => by
    obtain rfl := Option.some.inj ha
    exact ⟨hs, le_rfl, fun t ht ht' => le_antisymm ht' ht ▸ h, fun s hs => by cases hs⟩
  quiet := fun hnone => by cases hnone

namespace Tracked

/-- the signal is as it was -/
theorem stays (h : Tracked start on now closed opened) (hconst : ∀ t, now ≤ t → t < next → (on t ↔ on now))
    (hnext : on next ↔ on now) (hlt : now < next) : Tracked start on next closed opened where
  spans := h.spans
  starts := h.starts
  open_iff := h.open_iff.trans hnext.symm
  since := fun a ha => by
    obtain ⟨hs, hle, hon, hlast⟩ := h.since a ha
    have hnow : on now := hon now hle le_rfl
    refine ⟨hs, by omega, fun t ht ht' => ?_, hlast⟩
    rcases Nat.lt_or_ge now t with hafter | hbefore
    · rcases Nat.lt_or_ge t next with hlt' | hge
      · exact (hconst t hafter.le hlt').2 hnow
      · obtain rfl : t = next := by omega
        exact hnext.2 hnow
    · exact hon t ht hbefore
  quiet := fun hnone s hs => by
    obtain ⟨hle, hoff⟩ := h.quiet hnone s hs
    have hnow : ¬ on now := hoff now hle le_rfl
    refine ⟨by omega, fun t ht ht' => ?_⟩
    rcases Nat.lt_or_ge now t with hafter | hbefore
    · rcases Nat.lt_or_ge t next with hlt' | hge
      · exact fun hon => hnow ((hconst t hafter.le hlt').1 hon)
      · obtain rfl : t = next := by omega
        exact fun hon => hnow (hnext.1 hon)
    · exact hoff t ht hbefore

/-- the signal goes on -/
theorem opens (h : Tracked start on now closed none) (hconst : ∀ t, now ≤ t → t < next → (on t ↔ on now))
    (hnext : on next) (hs : start next) (hlt : now < next) : Tracked start on next closed (some next) where
  spans := h.spans
  starts := h.starts
  open_iff := by simp [hnext]
  since := fun a ha => by
    obtain rfl := Option.some.inj ha
    refine ⟨hs, le_rfl, fun t ht ht' => le_antisymm ht' ht ▸ hnext, fun s hlast => ?_⟩
    obtain ⟨hle, hoff⟩ := h.quiet rfl s hlast
    have hnow : ¬ on now := hoff now hle le_rfl
    refine ⟨by omega, fun t ht ht' => ?_⟩
    rcases Nat.lt_or_ge now t with hafter | hbefore
    · exact fun hon => hnow ((hconst t hafter.le ht').1 hon)
    · exact hoff t ht hbefore
  quiet := fun hnone => by cases hnone

/-- the signal goes off -/
theorem closes {a : ℕ} (h : Tracked start on now closed (some a))
    (hconst : ∀ t, now ≤ t → t < next → (on t ↔ on now)) (hnext : ¬ on next) (hlt : now < next) :
    Tracked start on next (closed ++ [(a, next)]) none := by
  obtain ⟨hs, hle, hon, hlast⟩ := h.since a rfl
  have hnow : on now := hon now hle le_rfl
  have hspan : ∀ t, a ≤ t → t < next → on t := by
    intro t ht ht'
    rcases Nat.lt_or_ge now t with hafter | hbefore
    · exact (hconst t hafter.le ht').2 hnow
    · exact hon t ht hbefore
  refine ⟨⟨fun s hmem => ?_, ?_⟩, fun s hmem => ?_, by simp [hnext], (fun b hb => nomatch hb),
    fun _ s hlast' => ?_⟩
  · rcases List.mem_append.1 hmem with hmem | hmem
    · exact h.spans.each s hmem
    · obtain rfl := List.mem_singleton.1 hmem
      exact ⟨by dsimp only; omega, hspan, hnext⟩
  · refine List.isChain_append.2 ⟨h.spans.chain, List.IsChain.singleton _, fun s hs' s' hs'' => ?_⟩
    obtain rfl : (a, next) = s' := by simpa using hs''
    exact hlast s hs'
  · rcases List.mem_append.1 hmem with hmem | hmem
    · exact h.starts s hmem
    · obtain rfl := List.mem_singleton.1 hmem
      exact hs
  · obtain rfl : (a, next) = s := by simpa using hlast'
    exact ⟨le_rfl, fun t ht ht' => le_antisymm ht' ht ▸ hnext⟩

end Tracked

/-! ## Pieces -/

/-- the values that a signal takes at the boundaries and since when, from `prev` on -/
def pieces (f : ℕ → α) : α → List ℕ → List (α × ℕ)
  | _, [] => []
  | prev, t :: ts => if f t ≠ prev then (f t, t) :: pieces f (f t) ts else pieces f prev ts

theorem pieces_cons (f : ℕ → α) (prev : α) (t : ℕ) (ts : List ℕ) :
    pieces f prev (t :: ts) = if f t ≠ prev then (f t, t) :: pieces f (f t) ts else pieces f prev ts := rfl

/-- neighbouring pieces have different values -/
theorem pieces_isChain (f : ℕ → α) (prev : α) (ts : List ℕ) :
    (prev :: (pieces f prev ts).map Prod.fst).IsChain (· ≠ ·) := by
  induction ts generalizing prev with
  | nil => exact List.IsChain.singleton prev
  | cons t ts ih =>
    rw [pieces_cons]
    by_cases hnew : f t ≠ prev
    · rw [if_pos hnew]
      exact List.isChain_cons_cons.2 ⟨hnew.symm, ih (f t)⟩
    · rw [if_neg hnew]
      exact ih prev

theorem pieces_value {f : ℕ → α} {prev : α} {ts : List ℕ} {p : α × ℕ} (hp : p ∈ pieces f prev ts) : f p.2 = p.1 := by
  induction ts generalizing prev with
  | nil => cases hp
  | cons t ts ih =>
    rw [pieces_cons] at hp
    split_ifs at hp with hnew
    · rcases List.mem_cons.1 hp with rfl | hp
      · rfl
      · exact ih hp
    · exact ih hp

theorem pieces_getLastD (f : ℕ → α) (prev : α) (ts : List ℕ) :
    ((pieces f prev ts).map Prod.fst).getLastD prev = (ts.map f).getLastD prev := by
  induction ts generalizing prev with
  | nil => rfl
  | cons t ts ih =>
    rw [pieces_cons, List.map_cons, List.getLastD_cons, ← ih]
    by_cases hnew : f t ≠ prev
    · rw [if_pos hnew, List.map_cons, List.getLastD_cons]
    · rw [if_neg hnew, not_not.1 hnew]

/-- where the piece before `rest` ends -/
def pieceEnd (last : ℕ) (rest : List (α × ℕ)) : ℕ :=
  match rest with
  | [] => last
  | p :: _ => p.2

/-- the pieces that last longer than `tolerance` -/
def lasting (tolerance last : ℕ) : List (α × ℕ) → List (α × ℕ)
  | [] => []
  | p :: rest =>
    if pieceEnd last rest - p.2 ≤ tolerance then lasting tolerance last rest
    else p :: lasting tolerance last rest

/-- the signal has the value of each piece until the next one -/
def Held (f : ℕ → α) (last : ℕ) : List (α × ℕ) → Prop
  | [] => True
  | p :: rest => p.2 ≤ pieceEnd last rest ∧ (∀ t, p.2 ≤ t → t < pieceEnd last rest → f t = p.1) ∧ Held f last rest

/-- consecutive boundaries: the signal is constant between them -/
def Steady (f : ℕ → α) (s t : ℕ) : Prop := s < t ∧ ∀ u, s ≤ u → u < t → f u = f s

variable {f : ℕ → α} {tolerance last : ℕ} {ps : List (α × ℕ)}

/-- nothing of an increasing list lies between two neighbours -/
theorem isChain_neighbours {ts : List ℕ} (h : ts.Pairwise (· < ·)) :
    ts.IsChain fun s t => s < t ∧ ∀ x ∈ ts, x ≤ s ∨ t ≤ x := by
  rw [List.isChain_iff_getElem]
  intro i hi
  have hget := List.pairwise_iff_getElem.1 h
  refine ⟨hget i (i + 1) _ _ (Nat.lt_succ_self i), fun x hx => ?_⟩
  obtain ⟨j, hj, rfl⟩ := List.mem_iff_getElem.1 hx
  rcases Nat.lt_trichotomy j i with hlt | rfl | hgt
  · exact .inl (hget j i _ _ hlt).le
  · exact .inl le_rfl
  · rcases Nat.eq_or_lt_of_le (show i + 1 ≤ j from hgt) with rfl | hlt
    · exact .inr le_rfl
    · exact .inr (hget (i + 1) j _ _ hlt).le

theorem le_getLastD_of_pairwise {t₀ x : ℕ} {ts : List ℕ} (h : (t₀ :: ts).Pairwise (· < ·)) (hx : x ∈ t₀ :: ts) :
    x ≤ ts.getLastD t₀ := by
  induction ts generalizing t₀ x with
  | nil => exact (List.mem_singleton.1 hx).le
  | cons t₁ ts ih =>
    obtain ⟨hfirst, hrest⟩ := List.pairwise_cons.1 h
    rw [List.getLastD_cons]
    rcases List.mem_cons.1 hx with rfl | hx
    · exact (hfirst t₁ List.mem_cons_self).le.trans (ih hrest List.mem_cons_self)
    · exact ih hrest hx

theorem held_pieces_from {t₀ : ℕ} {ts : List ℕ} (h : (t₀ :: ts).IsChain (Steady f)) :
    t₀ ≤ pieceEnd (ts.getLastD t₀) (pieces f (f t₀) ts) ∧
      (∀ t, t₀ ≤ t → t < pieceEnd (ts.getLastD t₀) (pieces f (f t₀) ts) → f t = f t₀) ∧
      Held f (ts.getLastD t₀) (pieces f (f t₀) ts) := by
  induction ts generalizing t₀ with
  | nil => exact ⟨le_rfl, fun t ht ht' => absurd ht (not_le.2 ht'), trivial⟩
  | cons t₁ ts ih =>
    obtain ⟨⟨hlt, hconst⟩, hrest⟩ := List.isChain_cons_cons.1 h
    rw [List.getLastD_cons]
    obtain ⟨hle, hval, hheld⟩ := ih hrest
    rw [pieces_cons]
    by_cases hnew : f t₁ ≠ f t₀
    · rw [if_pos hnew]
      exact ⟨hlt.le, hconst, hle, hval, hheld⟩
    · rw [if_neg hnew]
      rw [not_not] at hnew
      rw [hnew] at hle hval hheld
      refine ⟨hlt.le.trans hle, fun t ht ht' => ?_, hheld⟩
      rcases Nat.lt_or_ge t t₁ with hbefore | hafter
      · exact hconst t ht hbefore
      · exact hval t hafter ht'

/-- the pieces that a walk over the boundaries finds are those of the signal -/
theorem held_pieces {t₀ : ℕ} {ts : List ℕ} (h : (t₀ :: ts).IsChain (Steady f)) (prev : α) :
    Held f (ts.getLastD t₀) (pieces f prev (t₀ :: ts)) := by
  obtain ⟨hle, hval, hheld⟩ := held_pieces_from h
  rw [pieces_cons]
  by_cases hnew : f t₀ ≠ prev
  · rw [if_pos hnew]
    exact ⟨hle, hval, hheld⟩
  · rw [if_neg hnew, ← not_not.1 hnew]
    exact hheld

omit [DecidableEq α] in
theorem lasting_sublist (tolerance last : ℕ) (ps : List (α × ℕ)) : (lasting tolerance last ps).Sublist ps := by
  induction ps with
  | nil => exact List.Sublist.slnil
  | cons p rest ih =>
    unfold lasting
    split_ifs with hshort
    · exact ih.cons p
    · exact ih.cons_cons p

omit [DecidableEq α] in
/-- pieces start one after the other -/
theorem Held.starts (h : Held f last ps) : ps.Pairwise fun p q => p.2 ≤ q.2 := by
  induction ps with
  | nil => exact List.Pairwise.nil
  | cons p rest ih =>
    refine List.pairwise_cons.2 ⟨fun q hq => ?_, ih h.2.2⟩
    cases rest with
    | nil => cases hq
    | cons r rest =>
      have hpr : p.2 ≤ r.2 := h.1
      rcases List.mem_cons.1 hq with rfl | hq
      · exact hpr
      · exact hpr.trans ((List.pairwise_cons.1 (ih h.2.2)).1 q hq)

omit [DecidableEq α] in
/-- of some pieces, none starts before the first one -/
theorem Held.first_le {p q : α × ℕ} {last' : ℕ} (h : Held f last (p :: ps))
    (hq : q ∈ lasting tolerance last' (p :: ps)) : p.2 ≤ q.2 := by
  rcases List.mem_cons.1 ((lasting_sublist _ _ _).subset hq) with rfl | hq
  · exact le_rfl
  · exact (List.pairwise_cons.1 h.starts).1 q hq

omit [DecidableEq α] in
/-- of pieces that start at `n` or later, none starts before it -/
theorem takeWhile_later {ks : List (α × ℕ)} {n : ℕ} (h : ∀ p ∈ ks, n ≤ p.2) : ks.takeWhile (fun p => p.2 < n) = [] := by
  cases ks with
  | nil => rfl
  | cons p ks =>
    have hlate : ¬ p.2 < n := not_lt.2 (h p List.mem_cons_self)
    rw [List.takeWhile_cons, if_neg (by simpa using hlate)]

omit [DecidableEq α] in
/-- a lasting piece starts one tolerance before the last boundary -/
theorem start_of_lasting (h : Held f last ps) {p : α × ℕ} (hp : p ∈ lasting tolerance last ps) :
    p.2 + tolerance < last := by
  have hends (q : α × ℕ) (rest : List (α × ℕ)) (hheld : Held f last (q :: rest)) : pieceEnd last rest ≤ last := by
    induction rest generalizing q with
    | nil => exact le_rfl
    | cons r rest ih => exact hheld.2.2.1.trans (ih r hheld.2.2)
  induction ps with
  | nil => cases hp
  | cons q rest ih =>
    unfold lasting at hp
    split_ifs at hp with hshort
    · exact ih h.2.2 hp
    · rcases List.mem_cons.1 hp with rfl | hp
      · have hend := hends p rest h
        omega
      · exact ih h.2.2 hp

omit [DecidableEq α] in
/-- the lasting pieces that start by the last instant of a grid are all sampled, in their order -/
theorem exists_samples (count : ℕ) (hstep : 1 ≤ step) (htol : step ≤ tolerance) (h : Held f last ps) :
    ∃ instants : List ℕ, instants.Pairwise (· < ·) ∧ (∀ t ∈ instants, t ∈ grid step (count + 1)) ∧
      (∀ t ∈ instants, pieceEnd t ps ≤ t) ∧
      instants.map f = ((lasting tolerance last ps).takeWhile fun p => p.2 ≤ count * step).map Prod.fst := by
  induction ps with
  | nil => exact ⟨[], List.Pairwise.nil, by simp, by simp, rfl⟩
  | cons p rest ih =>
    obtain ⟨hle, hval, hrest⟩ := h
    obtain ⟨instants, hpair, hgrid, hfirst, hmap⟩ := ih hrest
    have hafter (t : ℕ) (ht : t ∈ instants) (hne : rest ≠ []) : pieceEnd last rest ≤ t := by
      cases rest with
      | nil => exact absurd rfl hne
      | cons q rest => exact hfirst t ht
    have hnil (ht : rest = []) : instants = [] := by
      subst ht
      exact List.map_eq_nil_iff.1 hmap
    unfold lasting
    split_ifs with hshort
    · refine ⟨instants, hpair, hgrid, fun t ht => ?_, hmap⟩
      by_cases hne : rest = []
      · rw [hnil hne] at ht
        cases ht
      · exact hle.trans (hafter t ht hne)
    · rw [List.takeWhile_cons]
      by_cases hin : p.2 ≤ count * step
      · obtain ⟨k, hk, hk'⟩ := exists_grid hstep p.2
        have hcount : k ≤ count := by
          by_contra hlt
          have hmul : (count + 1) * step ≤ k * step := Nat.mul_le_mul_right step (by omega)
          rw [Nat.succ_mul] at hmul
          omega
        rw [if_pos (decide_eq_true hin)]
        refine ⟨k * step :: instants, List.pairwise_cons.2 ⟨fun t ht => ?_, hpair⟩, fun t ht => ?_, fun t ht => ?_, ?_⟩
        · by_cases hne : rest = []
          · rw [hnil hne] at ht
            cases ht
          · have hge := hafter t ht hne
            omega
        · rcases List.mem_cons.1 ht with rfl | ht
          · exact mem_grid.2 ⟨k, by omega, rfl⟩
          · exact hgrid t ht
        · rcases List.mem_cons.1 ht with rfl | ht
          · exact hk
          · by_cases hne : rest = []
            · rw [hnil hne] at ht
              cases ht
            · exact hle.trans (hafter t ht hne)
        · rw [List.map_cons, List.map_cons, hmap, hval _ hk (by omega)]
      · rw [if_neg (by simpa using hin)]
        exact ⟨[], List.Pairwise.nil, by simp, by simp, rfl⟩

/-- a sampler sees every move of the lasting pieces that start by its last instant -/
theorem moves_lasting_le (count : ℕ) (hstep : 1 ≤ step) (htol : step ≤ tolerance) (h : Held f last ps)
    (rest prev : α) :
    moves rest prev (((lasting tolerance last ps).takeWhile fun p => p.2 ≤ count * step).map Prod.fst) ≤
      moves rest prev ((grid step (count + 1)).map f) := by
  obtain ⟨instants, hpair, hgrid, -, hmap⟩ := exists_samples count hstep htol h
  rw [← hmap]
  exact moves_sublist ((sublist_grid hstep hpair hgrid).map f)

/-! ## What lasts -/

/-- the signal keeps the value it has at `t` for longer than `tolerance` -/
def Lasts (f : ℕ → α) (tolerance t : ℕ) : Prop := ∀ d ≤ tolerance, f (t + d) = f t

instance (f : ℕ → α) (tolerance t : ℕ) : Decidable (Lasts f tolerance t) :=
  inferInstanceAs (Decidable (∀ d ≤ tolerance, f (t + d) = f t))

/-- the last value by `t` that lasts, and `rest` before the first -/
def settled (f : ℕ → α) (tolerance : ℕ) (rest : α) : ℕ → α
  | 0 => if Lasts f tolerance 0 then f 0 else rest
  | t + 1 => if Lasts f tolerance (t + 1) then f (t + 1) else settled f tolerance rest t

theorem settled_of_lasts {t : ℕ} (h : Lasts f tolerance t) : settled f tolerance rest t = f t := by
  cases t with
  | zero => exact if_pos h
  | succ t => exact if_pos h

theorem settled_of_not_lasts {t : ℕ} (h : ¬ Lasts f tolerance t) :
    settled f tolerance rest t = ((List.range t).map (settled f tolerance rest)).getLastD rest := by
  cases t with
  | zero => exact if_neg h
  | succ t =>
    rw [List.range_succ, List.map_append, List.map_singleton, List.getLastD_concat]
    exact if_neg h

/-- where each value that the signal changes to lasts, it is settled -/
theorem settled_of_changes (hstart : f 0 = rest) (h : ∀ t, f (t + 1) = f t ∨ Lasts f tolerance (t + 1)) (t : ℕ) :
    settled f tolerance rest t = f t := by
  induction t with
  | zero =>
    by_cases hl : Lasts f tolerance 0
    · exact settled_of_lasts hl
    · exact (if_neg hl).trans hstart.symm
  | succ t ih =>
    by_cases hl : Lasts f tolerance (t + 1)
    · exact settled_of_lasts hl
    · exact (if_neg hl).trans (ih.trans ((h t).resolve_right hl).symm)

/-- a series makes no move exactly when each of its changes is back to rest -/
theorem moves_eq_zero_iff_lifts :
    moves rest prev l = 0 ↔ (prev :: l).IsChain fun v w => w = v ∨ w = rest := by
  induction l generalizing prev with
  | nil => exact iff_of_true rfl (List.IsChain.singleton prev)
  | cons v vs ih =>
    rw [moves, Nat.add_eq_zero_iff, ih, List.isChain_cons_cons]
    refine and_congr_left fun _ => ?_
    by_cases hv : v = prev
    · exact iff_of_true (if_neg fun hmove => hmove.1 hv) (.inl hv)
    · by_cases hr : v = rest
      · exact iff_of_true (if_neg fun hmove => hmove.2 hr) (.inr hr)
      · rw [if_pos ⟨hv, hr⟩]
        exact iff_of_false one_ne_zero fun h => h.elim hv hr

/-- when the signal is at rest after the last boundary, the last piece lasts -/
theorem moves_lasting_later (h : (ps.map Prod.fst).getLastD rest = rest) (last' : ℕ) :
    moves rest prev ((lasting tolerance last ps).map Prod.fst) =
      moves rest prev ((lasting tolerance last' ps).map Prod.fst) := by
  induction ps generalizing prev with
  | nil => rfl
  | cons p ps ih =>
    cases ps with
    | nil =>
      have hp : p.1 = rest := h
      have hquiet (b : ℕ) : moves rest prev ((lasting tolerance b [p]).map Prod.fst) = 0 := by
        refine moves_at_rest fun v hv => ?_
        obtain ⟨q, hq, rfl⟩ := List.mem_map.1 hv
        rw [List.mem_singleton.1 ((lasting_sublist tolerance b [p]).subset hq), hp]
      rw [hquiet, hquiet]
    | cons q rest' =>
      have hrest : ((q :: rest').map Prod.fst).getLastD rest = rest := by
        rw [List.map_cons, List.map_cons, List.getLastD_cons, List.getLastD_cons] at h
        rw [List.map_cons, List.getLastD_cons]
        exact h
      unfold lasting
      by_cases hshort : q.2 - p.2 ≤ tolerance
      · rw [if_pos (show pieceEnd last (q :: rest') - p.2 ≤ tolerance from hshort),
          if_pos (show pieceEnd last' (q :: rest') - p.2 ≤ tolerance from hshort)]
        exact ih hrest
      · rw [if_neg (show ¬ pieceEnd last (q :: rest') - p.2 ≤ tolerance from hshort),
          if_neg (show ¬ pieceEnd last' (q :: rest') - p.2 ≤ tolerance from hshort), List.map_cons, List.map_cons,
          moves, moves, ih hrest]

/-- the pieces of a signal that ends at rest -/
structure Pieced (f : ℕ → α) (rest : α) (last : ℕ) (ps : List (α × ℕ)) : Prop where
  held : Held f last ps
  values : ∀ p ∈ ps, f p.2 = p.1
  chain : (ps.map Prod.fst).IsChain (· ≠ ·)
  final : (ps.map Prod.fst).getLastD rest = rest
  idle : ∀ t, last ≤ t → f t = rest

omit [DecidableEq α] in
theorem Pieced.tail {p q : α × ℕ} (h : Pieced f rest last (p :: q :: ps)) : Pieced f rest last (q :: ps) where
  held := h.held.2.2
  values := fun r hr => h.values r (List.mem_cons_of_mem p hr)
  chain := (List.isChain_cons_cons.1 h.chain).2
  final := by
    have hfinal := h.final
    rw [List.map_cons, List.map_cons, List.getLastD_cons, List.getLastD_cons] at hfinal
    rw [List.map_cons, List.getLastD_cons]
    exact hfinal
  idle := h.idle

omit [DecidableEq α] in
/-- a piece is left where the signal takes another value, so what lasts inside a piece makes the piece last -/
theorem Pieced.lasts {p q : α × ℕ} (h : Pieced f rest last (p :: q :: ps)) {t : ℕ} (hle : p.2 ≤ t) (hlt : t < q.2)
    (hl : Lasts f tolerance t) : ¬ q.2 - p.2 ≤ tolerance := by
  intro hshort
  have hnext : f q.2 = q.1 := h.values q (List.mem_cons_of_mem p List.mem_cons_self)
  have hsame : f q.2 = p.1 := by
    have hkeep := hl (q.2 - t) (by omega)
    rw [Nat.add_sub_cancel' hlt.le] at hkeep
    exact hkeep.trans (h.held.2.1 t hle hlt)
  exact (List.isChain_cons_cons.1 h.chain).1 (hsame.symm.trans hnext)

omit [DecidableEq α] in
/-- a lasting piece lasts from its start -/
theorem Pieced.lasts_start (h : Pieced f rest last ps) {p : α × ℕ}
    (hp : p ∈ lasting tolerance (last + tolerance + 1) ps) : Lasts f tolerance p.2 := by
  induction ps with
  | nil => cases hp
  | cons q ps ih =>
    cases ps with
    | nil =>
      obtain rfl := List.mem_singleton.1 ((lasting_sublist _ _ _).subset hp)
      have hrest : p.1 = rest := h.final
      have hall (t : ℕ) (ht : p.2 ≤ t) : f t = rest := by
        rcases Nat.lt_or_ge t last with hbefore | hafter
        · exact (h.held.2.1 t ht hbefore).trans hrest
        · exact h.idle t hafter
      exact fun d _ => (hall _ (Nat.le_add_right _ _)).trans (hall _ le_rfl).symm
    | cons r ps =>
      unfold lasting at hp
      split_ifs at hp with hshort
      · exact ih h.tail hp
      · rcases List.mem_cons.1 hp with rfl | hp
        · have hlong : ¬ r.2 - p.2 ≤ tolerance := hshort
          have hval := h.held.2.1
          intro d hd
          rw [hval (p.2 + d) (Nat.le_add_right _ _) (show p.2 + d < r.2 by omega),
            hval p.2 le_rfl (show p.2 < r.2 by omega)]
        · exact ih h.tail hp

omit [DecidableEq α] in
/-- what lasts belongs to the last lasting piece that has started -/
theorem Pieced.value_of_lasts {p : α × ℕ} (h : Pieced f rest last (p :: ps)) {t : ℕ} (hle : p.2 ≤ t)
    (hl : Lasts f tolerance t) (prev : α) :
    (((lasting tolerance (last + tolerance + 1) (p :: ps)).takeWhile fun q => q.2 < t + 1).map Prod.fst).getLastD prev =
      f t := by
  induction ps generalizing p prev with
  | nil =>
    have hrest : p.1 = rest := h.final
    have hlast : p.2 ≤ last := h.held.1
    have hkept : lasting tolerance (last + tolerance + 1) [p] = [p] := by
      unfold lasting
      have hlong : ¬ last + tolerance + 1 - p.2 ≤ tolerance := by omega
      exact if_neg hlong
    rw [hkept, List.takeWhile_cons, if_pos (decide_eq_true (by omega))]
    show p.1 = f t
    rcases Nat.lt_or_ge t last with hbefore | hafter
    · exact (h.held.2.1 t hle hbefore).symm
    · exact hrest.trans (h.idle t hafter).symm
  | cons q ps ih =>
    unfold lasting
    rcases Nat.lt_or_ge t q.2 with hbefore | hafter
    · rw [if_neg (show ¬ pieceEnd _ (q :: ps) - p.2 ≤ tolerance from h.lasts hle hbefore hl), List.takeWhile_cons,
        if_pos (decide_eq_true (by omega))]
      rw [takeWhile_later fun r hr => hbefore.trans_le (h.tail.held.first_le hr)]
      exact (h.held.2.1 t hle hbefore).symm
    · split_ifs with hshort
      · exact ih h.tail hafter prev
      · rw [List.takeWhile_cons, if_pos (decide_eq_true (by omega)), List.map_cons, List.getLastD_cons]
        exact ih h.tail hafter p.1

omit [DecidableEq α] in
/-- lasting pieces start one strictly after the other -/
theorem Held.lasting_starts (h : Held f last ps) : (lasting tolerance last ps).Pairwise fun p q => p.2 < q.2 := by
  induction ps with
  | nil => exact List.Pairwise.nil
  | cons p ps ih =>
    unfold lasting
    split_ifs with hshort
    · exact ih h.2.2
    · refine List.pairwise_cons.2 ⟨fun q hq => ?_, ih h.2.2⟩
      cases ps with
      | nil => cases hq
      | cons r ps =>
        have hlong : ¬ r.2 - p.2 ≤ tolerance := hshort
        have hr : r.2 ≤ q.2 := h.2.2.first_le hq
        omega

omit [DecidableEq α] in
/-- of pieces that start one strictly after the other, at most one starts at `n` -/
theorem takeWhile_starts {ks : List (α × ℕ)} (h : ks.Pairwise fun p q => p.2 < q.2) (n : ℕ) :
    ks.takeWhile (fun p => p.2 < n + 1) = ks.takeWhile (fun p => p.2 < n) ∧ (∀ p ∈ ks, p.2 ≠ n) ∨
      ∃ p ∈ ks, p.2 = n ∧ ks.takeWhile (fun p => p.2 < n + 1) = ks.takeWhile (fun p => p.2 < n) ++ [p] := by
  induction ks with
  | nil => exact .inl ⟨rfl, fun p hp => absurd hp List.not_mem_nil⟩
  | cons p ks ih =>
    obtain ⟨hfirst, hrest⟩ := List.pairwise_cons.1 h
    rw [List.takeWhile_cons, List.takeWhile_cons]
    rcases Nat.lt_trichotomy p.2 n with hlt | heq | hgt
    · rw [if_pos (decide_eq_true (by omega)), if_pos (decide_eq_true hlt)]
      rcases ih hrest with ⟨hsame, hnone⟩ | ⟨q, hq, hn, hnew⟩
      · refine .inl ⟨congrArg (p :: ·) hsame, fun q hq => ?_⟩
        rcases List.mem_cons.1 hq with rfl | hq
        · omega
        · exact hnone q hq
      · exact .inr ⟨q, List.mem_cons_of_mem p hq, hn, congrArg (p :: ·) hnew⟩
    · have hstop : ks.takeWhile (fun q => q.2 < n + 1) = [] := takeWhile_later fun q hq => by
        have hlt := hfirst q hq
        omega
      rw [if_pos (decide_eq_true (by omega)), if_neg (by simp; omega), hstop]
      exact .inr ⟨p, List.mem_cons_self, heq, rfl⟩
    · rw [if_neg (by simp; omega), if_neg (by simp; omega)]
      refine .inl ⟨rfl, fun q hq => ?_⟩
      rcases List.mem_cons.1 hq with rfl | hq
      · omega
      · have hlt := hfirst q hq
        omega

omit [DecidableEq α] in
theorem Pieced.held_later (h : Pieced f rest last ps) {last' : ℕ} (hle : last ≤ last') : Held f last' ps := by
  induction ps with
  | nil => trivial
  | cons p ps ih =>
    cases ps with
    | nil =>
      have hrest : p.1 = rest := h.final
      refine ⟨h.held.1.trans hle, fun t ht _ => ?_, trivial⟩
      rcases Nat.lt_or_ge t last with hbefore | hafter
      · exact h.held.2.1 t ht hbefore
      · exact (h.idle t hafter).trans hrest.symm
    | cons q ps => exact ⟨h.held.1, h.held.2.1, ih h.tail⟩

omit [DecidableEq α] in
/-- a walk with nothing before its first piece -/
theorem Pieced.value (h : Pieced f rest last ps) (hbefore : ∀ t < pieceEnd last ps, f t = rest) {t : ℕ}
    (hl : Lasts f tolerance t) :
    (((lasting tolerance (last + tolerance + 1) ps).takeWhile fun q => q.2 < t + 1).map Prod.fst).getLastD rest = f t := by
  cases ps with
  | nil =>
    rcases Nat.lt_or_ge t last with hlt | hge
    · exact (hbefore t hlt).symm
    · exact (h.idle t hge).symm
  | cons p ps =>
    rcases Nat.lt_or_ge t p.2 with hlt | hge
    · rw [takeWhile_later fun q hq => hlt.trans_le (h.held.first_le hq)]
      exact (hbefore t hlt).symm
    · exact h.value_of_lasts hge hl rest

/-- **The lasting pieces are the settled signal**: it has their values, and moves as often. -/
theorem Pieced.settled (h : Pieced f rest last ps) (hbefore : ∀ t < pieceEnd last ps, f t = rest) (n : ℕ) :
    (((lasting tolerance (last + tolerance + 1) ps).takeWhile fun p => p.2 < n).map Prod.fst).getLastD rest =
        ((List.range n).map (settled f tolerance rest)).getLastD rest ∧
      moves rest rest (((lasting tolerance (last + tolerance + 1) ps).takeWhile fun p => p.2 < n).map Prod.fst) =
        moves rest rest ((List.range n).map (settled f tolerance rest)) := by
  have hheld : Held f (last + tolerance + 1) ps := h.held_later (by omega)
  have hstarts : (lasting tolerance (last + tolerance + 1) ps).Pairwise fun p q => p.2 < q.2 := hheld.lasting_starts
  induction n with
  | zero =>
    rw [takeWhile_later fun p _ => Nat.zero_le p.2]
    exact ⟨rfl, rfl⟩
  | succ n ih =>
    obtain ⟨hlast, hmoves⟩ := ih
    rw [List.range_succ, List.map_append, moves_append, ← hmoves, ← hlast, List.map_singleton, List.getLastD_concat]
    rcases takeWhile_starts hstarts n with ⟨hsame, -⟩ | ⟨p, hp, rfl, hnew⟩
    · -- nothing new has lasted
      have hkeep : Signal.settled f tolerance rest n =
          (((lasting tolerance (last + tolerance + 1) ps).takeWhile fun p => p.2 < n).map Prod.fst).getLastD rest := by
        by_cases hl : Lasts f tolerance n
        · rw [settled_of_lasts hl, ← h.value hbefore hl, hsame]
        · rw [settled_of_not_lasts hl, hlast]
      rw [hsame, hkeep, moves, if_neg fun hmove => hmove.1 rfl]
      exact ⟨rfl, rfl⟩
    · have hvalue : Signal.settled f tolerance rest p.2 = p.1 := by
        rw [settled_of_lasts (h.lasts_start hp)]
        exact h.values p ((lasting_sublist _ _ _).subset hp)
      rw [hnew, List.map_append, List.map_singleton, List.getLastD_concat, moves_append, hvalue]
      exact ⟨rfl, rfl⟩

end Queso.Signal
