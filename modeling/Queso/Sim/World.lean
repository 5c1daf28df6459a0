/-
The asynchronous world a cluster runs in: the simulation harness with every scheduling decision left open.

Messages in flight and pending timers are lists. The environment delivers any message, drops or copies it, fires any
timer that is due, drops or copies it, lets time pass, and crashes and restarts nodes, in any order. Nothing reaches a
crashed node: what arrives at it is lost, and so is a message for an id that hosts no node. The harness itself never
copies a message or a timer; `dup` and `dupTimer` are there for the results that allow it. A panic stops the run.

`trace` records what was sent and what was delivered, in order. No step reads it.

`env_cases` is all that an environment step can do; every invariant of a cluster is proved from it.
-/
import Queso.Sim.Node

namespace Queso

structure Envelope (M : Type) where
  src : NodeId
  dst : NodeId
  payload : M
deriving DecidableEq, Repr

structure PendingTimer where
  node : NodeId
  id : TimerId
  fireAt : ℕ
deriving DecidableEq, Repr

inductive TraceEvent (M : Type) where
  | send (e : Envelope M)
  | deliver (e : Envelope M)
deriving DecidableEq, Repr

structure World (N G M : Type) where
  nodes : NodeId → Option N
  shared : G
  crashed : NodeId → Bool
  net : List (Envelope M)
  timers : List PendingTimer
  now : ℕ
  trace : List (TraceEvent M)
  panicked : Option Panic

/-- one decision of the environment -/
inductive EnvOp (R : Type) where
  | tick (d : ℕ)
  | deliver (k : ℕ) (rng : R)
  | drop (k : ℕ)
  | dup (k : ℕ)
  | fire (k : ℕ) (rng : R)
  | dropTimer (k : ℕ)
  | dupTimer (k : ℕ)
  | crash (i : NodeId)
  | restart (i : NodeId) (rng : R)

variable {N G M R : Type}

/-- the messages among the effects of node `i` -/
def sendsOf (i : NodeId) (fx : List (Effect M)) : List (Envelope M) :=
  fx.filterMap fun
    | .send dst payload => some ⟨i, dst, payload⟩
    | .timer _ _ => none

/-- the timers among the effects of node `i` at time `now`; a delay of zero still waits one tick -/
def timersOf (i : NodeId) (now : ℕ) (fx : List (Effect M)) : List PendingTimer :=
  fx.filterMap fun
    | .send _ _ => none
    | .timer after id => some ⟨i, id, now + max after 1⟩

/-- the messages a trace sent, in order -/
def sentOf (t : List (TraceEvent M)) : List (Envelope M) :=
  t.filterMap fun
    | .send e => some e
    | .deliver _ => none

@[simp] theorem sentOf_nil : sentOf ([] : List (TraceEvent M)) = [] := rfl

@[simp] theorem sentOf_append (t u : List (TraceEvent M)) : sentOf (t ++ u) = sentOf t ++ sentOf u := by
  simp [sentOf]

@[simp] theorem sentOf_sends (l : List (Envelope M)) : sentOf (l.map TraceEvent.send) = l := by
  induction l with
  | nil => rfl
  | cons e l ih => simp [sentOf]

@[simp] theorem sentOf_deliver (e : Envelope M) : sentOf [TraceEvent.deliver e] = [] := rfl

namespace World

/-- take over the outcome of a callback at node `i` -/
def perform (w : World N G M) (i : NodeId) : Outcome N G M → World N G M
  | .error e => { w with panicked := some e }
  | .ok (nd, g, fx) =>
    { w with
      nodes := Function.update w.nodes i (some nd)
      shared := g
      net := w.net ++ sendsOf i fx
      timers := w.timers ++ timersOf i w.now fx
      trace := w.trace ++ (sendsOf i fx).map .send }

/-- node `i` arms a timer from outside any callback -/
def injectTimer (w : World N G M) (i : NodeId) (after : ℕ) (id : TimerId) : World N G M :=
  { w with timers := w.timers ++ [⟨i, id, w.now + max after 1⟩] }

def dispatchMessage (b : Behaviour N G M R) (w : World N G M) (e : Envelope M) (rng : R) : World N G M :=
  if w.crashed e.dst then w
  else match w.nodes e.dst with
    | none => w
    | some nd =>
      { w with trace := w.trace ++ [TraceEvent.deliver e] }.perform e.dst
        (b.onMessage ⟨e.dst, w.now, rng⟩ e.src e.payload nd w.shared)

def dispatchTimer (b : Behaviour N G M R) (w : World N G M) (t : PendingTimer) (rng : R) : World N G M :=
  if w.crashed t.node then w
  else match w.nodes t.node with
    | none => w
    | some nd => w.perform t.node (b.onTimer ⟨t.node, w.now, rng⟩ t.id nd w.shared)

def restartNode (b : Behaviour N G M R) (w : World N G M) (i : NodeId) (rng : R) : World N G M :=
  let w := { w with crashed := Function.update w.crashed i false }
  match w.nodes i with
  | none => w
  | some nd => w.perform i (b.onRestart ⟨i, w.now, rng⟩ nd w.shared)

/-- one environment step; a choice that is not open (no such message, a timer not yet due) changes nothing -/
def env (b : Behaviour N G M R) (w : World N G M) (op : EnvOp R) : World N G M :=
  if w.panicked.isSome then w
  else match op with
    | .tick d => { w with now := w.now + d }
    | .deliver k rng =>
      match w.net[k]? with
      | none => w
      | some e => { w with net := w.net.eraseIdx k }.dispatchMessage b e rng
    | .drop k => { w with net := w.net.eraseIdx k }
    | .dup k =>
      match w.net[k]? with
      | none => w
      | some e => { w with net := w.net ++ [e] }
    | .fire k rng =>
      match w.timers[k]? with
      | none => w
      | some t =>
        if t.fireAt ≤ w.now then { w with timers := w.timers.eraseIdx k }.dispatchTimer b t rng else w
    | .dropTimer k => { w with timers := w.timers.eraseIdx k }
    | .dupTimer k =>
      match w.timers[k]? with
      | none => w
      | some t => { w with timers := w.timers ++ [t] }
    | .crash i => { w with crashed := Function.update w.crashed i true }
    | .restart i rng => w.restartNode b i rng

/-! ## What an environment step can do -/

/-- no callback ran: the nodes and the trace are as before and nothing new is in flight or pending -/
structure Calm (w w' : World N G M) : Prop where
  nodes : w'.nodes = w.nodes
  shared : w'.shared = w.shared
  trace : w'.trace = w.trace
  panicked : w'.panicked = w.panicked
  net : ∀ e ∈ w'.net, e ∈ w.net
  timers : ∀ t ∈ w'.timers, t ∈ w.timers
  now : w.now ≤ w'.now

theorem Calm.refl (w : World N G M) : Calm w w :=
  ⟨rfl, rfl, rfl, rfl, fun _ h => h, fun _ h => h, le_rfl⟩

/-- **All an environment step can do**: nothing that matters, or one callback at one node -/
theorem env_cases (b : Behaviour N G M R) (w : World N G M) (op : EnvOp R) :
    Calm w (w.env b op) ∨
    (∃ w₀ e nd rng, Calm w w₀ ∧ w.crashed e.dst = false ∧ w.nodes e.dst = some nd ∧
      (∃ k, op = .deliver k rng ∧ w.net[k]? = some e) ∧
      w.env b op = { w₀ with trace := w₀.trace ++ [TraceEvent.deliver e] }.perform e.dst
        (b.onMessage ⟨e.dst, w₀.now, rng⟩ e.src e.payload nd w₀.shared)) ∨
    (∃ w₀ t nd rng, Calm w w₀ ∧ w.crashed t.node = false ∧ w.nodes t.node = some nd ∧
      (w.panicked = none ∧ t.fireAt ≤ w.now) ∧
      (∃ k, op = .fire k rng ∧ w.timers[k]? = some t) ∧
      w.env b op = w₀.perform t.node (b.onTimer ⟨t.node, w₀.now, rng⟩ t.id nd w₀.shared)) ∨
    (∃ w₀ i nd rng, Calm w w₀ ∧ w.nodes i = some nd ∧ op = .restart i rng ∧
      w.env b op = w₀.perform i (b.onRestart ⟨i, w₀.now, rng⟩ nd w₀.shared)) := by
  unfold env
  split_ifs with hp
  · exact .inl (Calm.refl w)
  cases op with
  | tick d => exact .inl ⟨rfl, rfl, rfl, rfl, fun _ h => h, fun _ h => h, Nat.le_add_right _ _⟩
  | deliver k rng =>
    dsimp only
    cases hk : w.net[k]? with
    | none => exact .inl (Calm.refl w)
    | some e =>
      have hcalm : Calm w { w with net := w.net.eraseIdx k } :=
        ⟨rfl, rfl, rfl, rfl, fun _ h => (List.eraseIdx_sublist _ _).subset h, fun _ h => h, le_rfl⟩
      dsimp only [dispatchMessage]
      split_ifs with hup
      · exact .inl hcalm
      · cases hn : w.nodes e.dst with
        | none => exact .inl hcalm
        | some nd => exact .inr (.inl ⟨_, e, nd, rng, hcalm, by simpa using hup, hn, ⟨k, rfl, hk⟩, rfl⟩)
  | drop k =>
    exact .inl ⟨rfl, rfl, rfl, rfl, fun _ h => (List.eraseIdx_sublist _ _).subset h, fun _ h => h, le_rfl⟩
  | dup k =>
    dsimp only
    cases hk : w.net[k]? with
    | none => exact .inl (Calm.refl w)
    | some e =>
      refine .inl ⟨rfl, rfl, rfl, rfl, fun x hx => ?_, fun _ h => h, le_rfl⟩
      rcases List.mem_append.1 hx with hx | hx
      · exact hx
      · rw [List.mem_singleton.1 hx]; exact List.mem_of_getElem? hk
  | fire k rng =>
    dsimp only
    cases hk : w.timers[k]? with
    | none => exact .inl (Calm.refl w)
    | some t =>
      have hcalm : Calm w { w with timers := w.timers.eraseIdx k } :=
        ⟨rfl, rfl, rfl, rfl, fun _ h => h, fun _ h => (List.eraseIdx_sublist _ _).subset h, le_rfl⟩
      dsimp only
      split_ifs with hdue
      · dsimp only [dispatchTimer]
        split_ifs with hup
        · exact .inl hcalm
        · cases hn : w.nodes t.node with
          | none => exact .inl hcalm
          | some nd =>
            exact .inr (.inr (.inl ⟨_, t, nd, rng, hcalm, by simpa using hup, hn, ⟨by simpa using hp, hdue⟩,
              ⟨k, rfl, hk⟩, rfl⟩))
      · exact .inl (Calm.refl w)
  | dropTimer k =>
    exact .inl ⟨rfl, rfl, rfl, rfl, fun _ h => h, fun _ h => (List.eraseIdx_sublist _ _).subset h, le_rfl⟩
  | dupTimer k =>
    dsimp only
    cases hk : w.timers[k]? with
    | none => exact .inl (Calm.refl w)
    | some t =>
      refine .inl ⟨rfl, rfl, rfl, rfl, fun _ h => h, fun x hx => ?_, le_rfl⟩
      rcases List.mem_append.1 hx with hx | hx
      · exact hx
      · rw [List.mem_singleton.1 hx]; exact List.mem_of_getElem? hk
  | crash i => exact .inl ⟨rfl, rfl, rfl, rfl, fun _ h => h, fun _ h => h, le_rfl⟩
  | restart i rng =>
    have hcalm : Calm w { w with crashed := Function.update w.crashed i false } :=
      ⟨rfl, rfl, rfl, rfl, fun _ h => h, fun _ h => h, le_rfl⟩
    dsimp only [restartNode]
    cases hn : w.nodes i with
    | none => exact .inl hcalm
    | some nd => exact .inr (.inr (.inr ⟨_, i, nd, rng, hcalm, hn, rfl, rfl⟩))

/-- a timer pending after a callback was pending before it, or the callback armed it -/
theorem perform_timers {w : World N G M} {i : NodeId} {o : Outcome N G M} {t : PendingTimer}
    (ht : t ∈ (w.perform i o).timers) :
    t ∈ w.timers ∨ t.node = i ∧ ∃ nd g fx d, o = .ok (nd, g, fx) ∧ .timer d t.id ∈ fx := by
  cases o with
  | error x => exact .inl ht
  | ok r =>
    obtain ⟨nd, g, fx⟩ := r
    rcases List.mem_append.1 ht with ht | ht
    · exact .inl ht
    · obtain ⟨f, hf, heq⟩ := List.mem_filterMap.1 ht
      cases f with
      | send dst payload => exact absurd heq (by simp)
      | timer d id =>
        obtain rfl := Option.some.inj heq
        exact .inr ⟨rfl, nd, g, fx, d, rfl, hf⟩

/-! ## Nodes stay -/

theorem perform_node_stays {w : World N G M} {j : NodeId} {nd : N} (h : w.nodes j = some nd) (i : NodeId)
    (o : Outcome N G M) : ∃ nd', (w.perform i o).nodes j = some nd' := by
  cases o with
  | error x => exact ⟨nd, h⟩
  | ok r =>
    by_cases hj : j = i
    · subst hj; exact ⟨r.1, by simp [perform]⟩
    · exact ⟨nd, by simpa [perform, hj] using h⟩

/-- no step removes a node -/
theorem env_node_stays (b : Behaviour N G M R) {w : World N G M} {j : NodeId} {nd : N} (h : w.nodes j = some nd)
    (op : EnvOp R) : ∃ nd', (w.env b op).nodes j = some nd' := by
  rcases env_cases b w op with hc | ⟨w₀, e, nd', rng, hc, -, -, -, hw⟩ | ⟨w₀, t, nd', rng, hc, -, -, -, -, hw⟩ |
    ⟨w₀, i, nd', rng, hc, -, -, hw⟩
  · exact ⟨nd, by rw [hc.nodes]; exact h⟩
  · rw [hw]
    refine perform_node_stays (?_ : _ = some nd) _ _
    show w₀.nodes j = some nd
    rw [hc.nodes]; exact h
  · rw [hw]
    exact perform_node_stays (by rw [hc.nodes]; exact h) _ _
  · rw [hw]
    exact perform_node_stays (by rw [hc.nodes]; exact h) _ _

/-! ## What is in flight was sent -/

theorem perform_net_sent {w : World N G M} (h : ∀ e ∈ w.net, e ∈ sentOf w.trace) (i : NodeId) (o : Outcome N G M) :
    ∀ e ∈ (w.perform i o).net, e ∈ sentOf (w.perform i o).trace := by
  cases o with
  | error x => exact h
  | ok r =>
    intro e he
    unfold perform at he ⊢
    dsimp only at he ⊢
    rw [sentOf_append, sentOf_sends, List.mem_append]
    rcases List.mem_append.1 he with he | he
    · exact .inl (h e he)
    · exact .inr he

theorem Calm.net_sent {w w' : World N G M} (hc : Calm w w') (h : ∀ e ∈ w.net, e ∈ sentOf w.trace) :
    ∀ e ∈ w'.net, e ∈ sentOf w'.trace := by
  intro e he
  rw [hc.trace]
  exact h e (hc.net e he)

/-- every message in flight was sent, whatever the nodes do -/
theorem env_net_sent (b : Behaviour N G M R) {w : World N G M} (h : ∀ e ∈ w.net, e ∈ sentOf w.trace)
    (op : EnvOp R) : ∀ e ∈ (w.env b op).net, e ∈ sentOf (w.env b op).trace := by
  rcases env_cases b w op with hc | ⟨w₀, e, nd, rng, hc, -, -, -, hw⟩ | ⟨w₀, t, nd, rng, hc, -, -, -, -, hw⟩ |
    ⟨w₀, i, nd, rng, hc, -, -, hw⟩
  · exact hc.net_sent h
  · rw [hw]
    refine perform_net_sent (fun x hx => ?_) _ _
    show x ∈ sentOf (w₀.trace ++ [TraceEvent.deliver e])
    rw [sentOf_append, sentOf_deliver, List.append_nil]
    exact hc.net_sent h x hx
  · rw [hw]
    exact perform_net_sent (hc.net_sent h) _ _
  · rw [hw]
    exact perform_net_sent (hc.net_sent h) _ _

end World

end Queso
