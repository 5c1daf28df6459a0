/-
An agenda: entries stamped with a time and a sequence number, taken in the order of their stamps.

`schedule` keeps the agenda sorted, so the first entry is the next to take. `Ordered now next pending done` is what holds
between an agenda and the entries `done` that were taken from it, in that order, at clock `now` and with `next` the first
unused sequence number. The clock is the time of the last entry taken, and an entry may be scheduled for the current
instant.

- `Ordered.bump`: sequence numbers may be used up otherwise.
- `Ordered.schedule`: an entry that is not in the past, under the next sequence number.
- `Ordered.take`: the first entry is taken, and its time is the clock.
-/
import Mathlib.Tactic

namespace Queso.Agenda

variable {K : Type*}

structure Entry (K : Type*) where
  time : ℕ
  seq : ℕ
  kind : K
deriving DecidableEq

/-- earlier by time, or by sequence number at one time -/
def Entry.Before (a b : Entry K) : Prop := a.time < b.time ∨ a.time = b.time ∧ a.seq < b.seq

instance (a b : Entry K) : Decidable (a.Before b) := inferInstanceAs (Decidable (_ ∨ _))

theorem Entry.Before.trans {a b c : Entry K} (h : a.Before b) (h' : b.Before c) : a.Before c := by
  unfold Entry.Before at *
  omega

/-- put an entry in its place -/
def schedule (e : Entry K) : List (Entry K) → List (Entry K)
  | [] => [e]
  | x :: xs => if e.Before x then e :: x :: xs else x :: schedule e xs

theorem schedule_perm (e : Entry K) (l : List (Entry K)) : (schedule e l).Perm (e :: l) := by
  induction l with
  | nil => exact .refl _
  | cons x xs ih =>
    unfold schedule
    split_ifs
    · exact .refl _
    · exact (ih.cons x).trans (.swap e x xs)

theorem mem_schedule {e x : Entry K} {l : List (Entry K)} : x ∈ schedule e l ↔ x = e ∨ x ∈ l := by
  rw [(schedule_perm e l).mem_iff, List.mem_cons]

/-- an entry whose sequence number is not in use goes between the earlier and the later ones -/
theorem schedule_sorted {e : Entry K} {l : List (Entry K)} (h : l.Pairwise Entry.Before)
    (hseq : ∀ x ∈ l, x.seq ≠ e.seq) : (schedule e l).Pairwise Entry.Before := by
  induction l with
  | nil => exact List.pairwise_singleton _ _
  | cons x xs ih =>
    obtain ⟨hx, hxs⟩ := List.pairwise_cons.1 h
    unfold schedule
    split_ifs with hlt
    · apply List.pairwise_cons.2
      refine ⟨fun y hy => ?_, h⟩
      rcases List.mem_cons.1 hy with rfl | hy
      · exact hlt
      · exact hlt.trans (hx y hy)
    · apply List.pairwise_cons.2
      refine ⟨fun y hy => ?_, ih hxs fun y hy => hseq y (List.mem_cons_of_mem _ hy)⟩
      rcases mem_schedule.1 hy with rfl | hy
      · have hne := hseq x List.mem_cons_self
        unfold Entry.Before at hlt ⊢
        omega
      · exact hx y hy

/-- an agenda and the entries that were taken from it -/
structure Ordered (now next : ℕ) (pending done : List (Entry K)) : Prop where
  sorted : pending.Pairwise Entry.Before
  past : done.Pairwise Entry.Before
  apart : ∀ d ∈ done, ∀ p ∈ pending, d.Before p
  stamped : ∀ e, e ∈ done ∨ e ∈ pending → e.seq < next
  distinct : ((done ++ pending).map Entry.seq).Nodup
  due : ∀ p ∈ pending, now ≤ p.time
  reached : ∀ d ∈ done, d.time ≤ now

variable {now next : ℕ} {pending done : List (Entry K)}

theorem ordered_empty (now next : ℕ) : Ordered now next ([] : List (Entry K)) [] where
  sorted := .nil
  past := .nil
  apart := fun d hd => absurd hd (by simp)
  stamped := fun e he => absurd he (by simp)
  distinct := .nil
  due := fun p hp => absurd hp (by simp)
  reached := fun d hd => absurd hd (by simp)

theorem Ordered.bump (h : Ordered now next pending done) {next' : ℕ} (hle : next ≤ next') :
    Ordered now next' pending done :=
  { h with stamped := fun e he => (h.stamped e he).trans_le hle }

theorem Ordered.schedule (h : Ordered now next pending done) {e : Entry K} (htime : now ≤ e.time) (hseq : e.seq = next) :
    Ordered now (next + 1) (schedule e pending) done where
  sorted := schedule_sorted h.sorted fun x hx => by
    have := h.stamped x (.inr hx)
    omega
  past := h.past
  apart := fun d hd p hp => by
    rcases mem_schedule.1 hp with rfl | hp
    · have hstamp := h.stamped d (.inl hd)
      have hreach := h.reached d hd
      unfold Entry.Before
      omega
    · exact h.apart d hd p hp
  stamped := fun x hx => by
    rcases hx with hx | hx
    · exact (h.stamped x (.inl hx)).trans (Nat.lt_succ_self _)
    · rcases mem_schedule.1 hx with rfl | hx
      · omega
      · exact (h.stamped x (.inr hx)).trans (Nat.lt_succ_self _)
  distinct := by
    have hperm : ((done ++ Agenda.schedule e pending).map Entry.seq).Perm (e.seq :: (done ++ pending).map Entry.seq) := by
      have hmid : (done ++ Agenda.schedule e pending).Perm (e :: (done ++ pending)) :=
        ((schedule_perm e pending).append_left done).trans List.perm_middle
      exact hmid.map Entry.seq
    apply hperm.nodup_iff.2
    apply List.nodup_cons.2
    refine ⟨fun hmem => ?_, h.distinct⟩
    obtain ⟨x, hx, heq⟩ := List.mem_map.1 hmem
    have := h.stamped x (List.mem_append.1 hx)
    omega
  due := fun p hp => by
    rcases mem_schedule.1 hp with rfl | hp
    · exact htime
    · exact h.due p hp
  reached := h.reached

theorem Ordered.take {e : Entry K} (h : Ordered now next (e :: pending) done) :
    Ordered e.time next pending (done ++ [e]) where
  sorted := (List.pairwise_cons.1 h.sorted).2
  past := by
    apply List.pairwise_append.2
    refine ⟨h.past, List.pairwise_singleton _ _, fun d hd x hx => ?_⟩
    rw [List.mem_singleton.1 hx]
    exact h.apart d hd e List.mem_cons_self
  apart := fun d hd p hp => by
    rcases List.mem_append.1 hd with hd | hd
    · exact h.apart d hd p (List.mem_cons_of_mem _ hp)
    · rw [List.mem_singleton.1 hd]
      exact (List.pairwise_cons.1 h.sorted).1 p hp
  stamped := fun x hx => by
    apply h.stamped x
    rcases hx with hx | hx
    · rcases List.mem_append.1 hx with hx | hx
      · exact .inl hx
      · rw [List.mem_singleton.1 hx]
        exact .inr List.mem_cons_self
    · exact .inr (List.mem_cons_of_mem _ hx)
  distinct := by
    have hsame : done ++ [e] ++ pending = done ++ e :: pending := by simp
    rw [hsame]
    exact h.distinct
  due := fun p hp => by
    have hlt := (List.pairwise_cons.1 h.sorted).1 p hp
    unfold Entry.Before at hlt
    omega
  reached := fun d hd => by
    rcases List.mem_append.1 hd with hd | hd
    · exact (h.reached d hd).trans (h.due e List.mem_cons_self)
    · rw [List.mem_singleton.1 hd]

end Queso.Agenda
