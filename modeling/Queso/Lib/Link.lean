/-
A one-way link that reconnects and loses: a bounded queue at the sender, and one connection after another.

A message that is sent joins the queue, unless the queue is full. The sender takes messages off the queue in order, and
loses each or writes it to its newest connection; a new connection can be opened at any time, and a sender that restarts
finds its queue empty. Each connection hands its reader some first part of what was written to it, at any time, also
after newer connections were opened.

- `Link.inTransit`: what was written to the connections, the oldest first, and then what is still queued.
- `InOrder`: it is a sublist of what was ever sent. Each of the sender's steps keeps it.
- `InOrder.arrived`: so is what the readers got, connection after connection.
-/
import Mathlib.Tactic

namespace Queso

variable {α : Type*}

/-- what is queued, and what was written to each connection, the newest first -/
structure Link (α : Type*) where
  queue : List α
  written : List (List α)

namespace Link

def blank : Link α := ⟨[], []⟩

/-- a message joins the queue unless it is full -/
def push (capacity : ℕ) (l : Link α) (m : α) : Link α :=
  if l.queue.length < capacity then { l with queue := l.queue ++ [m] } else l

def connect (l : Link α) : Link α := { l with written := [] :: l.written }

/-- the first message of the queue is taken off and lost -/
def drop (l : Link α) : Link α := { l with queue := l.queue.tail }

/-- the first message of the queue is written to the newest connection -/
def write (l : Link α) : Link α :=
  match l.queue, l.written with
  | m :: queue, ms :: rest => ⟨queue, (ms ++ [m]) :: rest⟩
  | _, _ => l

/-- the sender restarts -/
def forget (l : Link α) : Link α := { l with queue := [] }

/-- what was written and what is queued, the oldest first -/
def inTransit (l : Link α) : List α := l.written.reverse.flatten ++ l.queue

/-- nothing is on the link but what was sent, once for each time it was sent, and in that order -/
def InOrder (sent : List α) (l : Link α) : Prop := l.inTransit.Sublist sent

variable {sent : List α} {l : Link α}

theorem inOrder_blank (sent : List α) : InOrder sent blank := List.nil_sublist _

theorem InOrder.push (h : InOrder sent l) (capacity : ℕ) (m : α) : InOrder (sent ++ [m]) (l.push capacity m) := by
  unfold Link.push
  split_ifs
  · show (l.written.reverse.flatten ++ (l.queue ++ [m])).Sublist (sent ++ [m])
    rw [← List.append_assoc]
    exact h.append (.refl _)
  · exact h.trans (List.sublist_append_left ..)

theorem length_push {capacity : ℕ} (h : l.queue.length ≤ capacity) (m : α) :
    (l.push capacity m).queue.length ≤ capacity := by
  unfold push
  split_ifs with hlt
  · simpa using hlt
  · exact h

theorem InOrder.connect (h : InOrder sent l) : InOrder sent l.connect := by
  have hsame : l.connect.inTransit = l.inTransit := by simp [inTransit, Link.connect]
  rwa [InOrder, hsame]

theorem InOrder.drop (h : InOrder sent l) : InOrder sent l.drop :=
  ((List.Sublist.refl _).append (List.tail_sublist _)).trans h

theorem InOrder.write (h : InOrder sent l) : InOrder sent l.write := by
  unfold Link.write
  split
  · rename_i m queue ms rest hq hw
    have hsame : (⟨queue, (ms ++ [m]) :: rest⟩ : Link α).inTransit = l.inTransit := by
      unfold inTransit
      rw [hq, hw]
      simp
    rwa [InOrder, hsame]
  · exact h

theorem InOrder.forget (h : InOrder sent l) : InOrder sent l.forget :=
  ((List.Sublist.refl _).append (List.nil_sublist _)).trans h

/-- parts of lists, one for each, make a part of them all -/
theorem sublist_flatten {parts wholes : List (List α)} (h : List.Forall₂ List.Sublist parts wholes) :
    parts.flatten.Sublist wholes.flatten := by
  induction h with
  | nil => exact .slnil
  | cons hd _ ih => exact hd.append ih

/-- **What the readers got is in order too**, if each got a part of what was written to its connection. -/
theorem InOrder.arrived (h : InOrder sent l) {arrived : List (List α)}
    (hpart : List.Forall₂ List.Sublist arrived l.written) : arrived.reverse.flatten.Sublist sent :=
  ((sublist_flatten (List.rel_reverse hpart)).trans (List.sublist_append_left ..)).trans h

end Link

end Queso
