/-
The arena that a trace shows: what was sent, and which calls each recorder served for each slot.
-/
import Queso.Consensus.Arena

namespace Queso

variable {V : Type}

/-- the call that the delivery of `e` is at recorder `j` for slot `k`, if it is one -/
def callOf (k : ℕ) (j : NodeId) (e : Envelope (ConcreteMsg V)) : Option (ℕ × Proposal V) :=
  match e.payload with
  | .request req => if req.slot = k ∧ e.dst = j then some (req.reqStep, req.proposal) else none
  | .response _ => none

/-- the calls that recorder `j` served for slot `k`, in order -/
def servedOf (t : List (TraceEvent (ConcreteMsg V))) (k : ℕ) (j : NodeId) : List (ℕ × Proposal V) :=
  t.filterMap fun
    | .send _ => none
    | .deliver e => callOf k j e

@[simp] theorem servedOf_append (t u : List (TraceEvent (ConcreteMsg V))) (k : ℕ) (j : NodeId) :
    servedOf (t ++ u) k j = servedOf t k j ++ servedOf u k j := by
  simp [servedOf]

@[simp] theorem servedOf_sends (l : List (Envelope (ConcreteMsg V))) (k : ℕ) (j : NodeId) :
    servedOf (l.map TraceEvent.send) k j = [] := by
  induction l with
  | nil => rfl
  | cons e l ih => simp [servedOf]

theorem servedOf_deliver (e : Envelope (ConcreteMsg V)) (k : ℕ) (j : NodeId) :
    servedOf [TraceEvent.deliver e] k j = (callOf k j e).toList := by
  unfold servedOf
  cases h : callOf k j e <;> simp [h]

@[simp] theorem servedOf_response (src dst : NodeId) (resp : RecordResponse V) (k : ℕ) (j : NodeId) :
    servedOf [TraceEvent.deliver ⟨src, dst, .response resp⟩] k j = [] := rfl

theorem servedOf_request (src dst : NodeId) (req : RecordRequest V) (k : ℕ) (j : NodeId) :
    servedOf [TraceEvent.deliver ⟨src, dst, .request req⟩] k j =
      if req.slot = k ∧ dst = j then [(req.reqStep, req.proposal)] else [] := by
  rw [servedOf_deliver]
  unfold callOf
  dsimp only
  split_ifs <;> rfl

/-- the arena a trace shows, with the proposers that are hosted -/
def arenaOf (t : List (TraceEvent (ConcreteMsg V))) (props : NodeId → Option (Proposer V)) : Arena V :=
  ⟨sentOf t, servedOf t, props⟩

/-- after a delivered request, the arena is as after the recorder's act -/
theorem arenaOf_record [LinearOrder V] (t : List (TraceEvent (ConcreteMsg V))) (props : NodeId → Option (Proposer V))
    (src dst : NodeId) (req : RecordRequest V) :
    arenaOf (t ++ [.deliver ⟨src, dst, .request req⟩] ++
        [.send ⟨dst, src, .response (Arena.answer (servedOf t req.slot dst) req)⟩]) props =
      (arenaOf t props).step (.record src dst req) := by
  have hserved : servedOf (t ++ [.deliver ⟨src, dst, .request req⟩] ++
      [.send ⟨dst, src, .response (Arena.answer (servedOf t req.slot dst) req)⟩]) =
      Function.update (servedOf t) req.slot
        (Function.update (servedOf t req.slot) dst (servedOf t req.slot dst ++ [(req.reqStep, req.proposal)])) := by
    funext k j
    have hsend := servedOf_sends [(⟨dst, src, .response (Arena.answer (servedOf t req.slot dst) req)⟩ :
      Envelope (ConcreteMsg V))] k j
    rw [List.map_singleton] at hsend
    rw [servedOf_append, servedOf_append, servedOf_request, hsend, List.append_nil]
    by_cases hk : k = req.slot
    · subst hk
      by_cases hj : j = dst
      · subst hj; simp
      · simp [hj, Ne.symm hj]
    · simp [hk, Ne.symm hk]
  have hsent := sentOf_sends [(⟨dst, src, .response (Arena.answer (servedOf t req.slot dst) req)⟩ :
    Envelope (ConcreteMsg V))]
  rw [List.map_singleton] at hsent
  unfold arenaOf Arena.step
  simp only [Arena.mk.injEq]
  exact ⟨by rw [sentOf_append, sentOf_append, hsent, sentOf_deliver, List.append_nil], hserved, trivial⟩

/-- sending from a callback of node `i` -/
theorem arenaOf_sends (t : List (TraceEvent (ConcreteMsg V))) (props : NodeId → Option (Proposer V))
    (l : List (Envelope (ConcreteMsg V))) :
    arenaOf (t ++ l.map .send) props = { arenaOf t props with sends := sentOf t ++ l } := by
  unfold arenaOf
  simp only [Arena.mk.injEq, sentOf_append, sentOf_sends, true_and, and_true]
  funext k j
  simp

/-- a delivered response leaves no mark -/
theorem arenaOf_response (t : List (TraceEvent (ConcreteMsg V))) (props : NodeId → Option (Proposer V))
    (src dst : NodeId) (resp : RecordResponse V) :
    arenaOf (t ++ [.deliver ⟨src, dst, .response resp⟩]) props = arenaOf t props := by
  unfold arenaOf
  simp only [Arena.mk.injEq, sentOf_append, sentOf_deliver, List.append_nil, true_and, and_true]
  funext k j
  simp

end Queso
