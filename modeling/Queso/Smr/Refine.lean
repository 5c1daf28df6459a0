/-
The cluster of replicas is an arena.

`view` reads the arena off a cluster's trace and the proposers of its attempts. `step_cases` says what a step of the
cluster does, and `sim_step` that it is a run of at most three acts on the view, each `Ruled`: allowed, and spawning
only what the replica may propose. The invariants of the arena that are kept by ruled acts therefore hold of every run
of the cluster; `Sane` gathers them with what a replica keeps of itself.
-/
import Queso.Consensus.Trace
import Queso.Consensus.Coverage
import Queso.Consensus.Sole
import Queso.Smr.Moves

namespace Queso

open Register

namespace Arena

variable {V : Type}

/-- node `i` hosts `o` from now on, and sends `new` -/
def swap (a : Arena V) (i : NodeId) (o : Option (Proposer V)) (new : List (Envelope (ConcreteMsg V))) : Arena V :=
  { a with props := Function.update a.props i o, sends := a.sends ++ new }

theorem swap_swap (a : Arena V) (i : NodeId) (o o' : Option (Proposer V)) (l m : List (Envelope (ConcreteMsg V))) :
    (a.swap i o l).swap i o' m = a.swap i o' (l ++ m) := by
  unfold swap
  simp

theorem swap_self {a : Arena V} {i : NodeId} {o : Option (Proposer V)} (h : a.props i = o) : a.swap i o [] = a := by
  unfold swap
  rw [← h, Function.update_eq_self, List.append_nil]

theorem le_swap (a : Arena V) (i : NodeId) (o : Option (Proposer V)) (new : List (Envelope (ConcreteMsg V))) :
    a.Le (a.swap i o new) :=
  ⟨fun _ he => List.mem_append_left _ he, fun _ _ => ⟨[], (List.append_nil _).symm⟩⟩

theorem host_ok {a : Arena V} {i : NodeId} (call : Proposer V → Called V) {p p' : Proposer V}
    {fx : List (Effect (ConcreteMsg V))} (hp : a.props i = some p) (hc : call p = .ok (p', fx)) :
    a.host i call = a.swap i (some p') (sendsOf i fx) := by
  unfold host
  rw [hp]
  dsimp only
  rw [hc]
  rfl

end Arena

/-- the proposer of the attempt in flight -/
def SmrNode.hosted (nd : SmrNode) : Option (Proposer Command) := nd.currentAttempt.map CurrentAttempt.proposer

namespace Smr

/-- the arena that a cluster shows -/
def view (w : Smr) : Arena Command := arenaOf w.trace fun i => (w.nodes i).bind SmrNode.hosted

theorem view_props {w : Smr} {i : NodeId} {nd : SmrNode} (h : w.nodes i = some nd) : (view w).props i = nd.hosted := by
  simp [view, arenaOf, h]

/-! ## What a step does -/

/-- no replica and nothing shared changes, and nothing is sent or recorded -/
structure Still (w w' : Smr) : Prop where
  nodes : w'.nodes = w.nodes
  shared : w'.shared = w.shared
  trace : w'.trace = w.trace ∨ ∃ src dst resp, w'.trace = w.trace ++ [.deliver ⟨src, dst, .response resp⟩]

/-- replica `i` takes in a client's operation -/
structure Submitted (w w' : Smr) (i : NodeId) (nd : SmrNode) (c : Command) : Prop where
  client : c.client ≠ CATCH_UP_CLIENT
  node : w.nodes i = some nd
  nodes : w'.nodes = Function.update w.nodes i (some { nd with queue := nd.queue ++ [⟨w.shared.nextOpId, c⟩] })
  shared : w'.shared = { w.shared.invoke w.shared.nextOpId i c w.now with nextOpId := w.shared.nextOpId + 1 }
  trace : w'.trace = w.trace

/-- the callback that a step runs at replica `i`: its outcome, and what it leaves in the trace before its messages -/
inductive Turn (w : Smr) (i : NodeId) (nd : SmrNode) :
    SmrOp → SmrNode → Shared → List (Effect SmrMsg) → List (TraceEvent SmrMsg) → Prop where
  | request {k rng src req nd' sh' fx} (hk : w.net[k]? = some ⟨src, i, .request req⟩)
      (h : SmrNode.onRequest src req nd w.shared = .ok (nd', sh', fx)) :
      Turn w i nd (.env (.deliver k rng)) nd' sh' fx [.deliver ⟨src, i, .request req⟩]
  | reply {k rng src resp now nd' sh' fx} (hk : w.net[k]? = some ⟨src, i, .response resp⟩) (hup : w.crashed i = false)
      (h : SmrNode.onReply ⟨i, now, rng⟩ src resp nd w.shared = .ok (nd', sh', fx)) :
      Turn w i nd (.env (.deliver k rng)) nd' sh' fx [.deliver ⟨src, i, .response resp⟩]
  | timer {k rng id now nd' sh' fx} (h : SmrNode.onTimer ⟨i, now, rng⟩ id nd w.shared = .ok (nd', sh', fx)) :
      Turn w i nd (.env (.fire k rng)) nd' sh' fx []
  | restart {rng now nd' sh' fx} (h : SmrNode.onRestart ⟨i, now, rng⟩ nd w.shared = .ok (nd', sh', fx)) :
      Turn w i nd (.env (.restart i rng)) nd' sh' fx []

/-- the outcome of a callback of replica `i` is taken over -/
structure Turned (w w' : Smr) (i : NodeId) (nd' : SmrNode) (sh' : Shared) (fx : List (Effect SmrMsg))
    (ev : List (TraceEvent SmrMsg)) : Prop where
  nodes : w'.nodes = Function.update w.nodes i (some nd')
  shared : w'.shared = sh'
  trace : w'.trace = w.trace ++ ev ++ (sendsOf i fx).map .send

theorem still_of_calm {w w' : Smr} (h : World.Calm w w') : Still w w' := ⟨h.nodes, h.shared, .inl h.trace⟩

theorem perform_turned {w w₀ : Smr} {i : NodeId} {o : SmrOutcome} {nd' : SmrNode} {sh' : Shared}
    {fx : List (Effect SmrMsg)} {ev : List (TraceEvent SmrMsg)} (ho : o = .ok (nd', sh', fx))
    (hnodes : w₀.nodes = w.nodes) (htrace : w₀.trace = w.trace ++ ev) :
    Turned w (w₀.perform i o) i nd' sh' fx ev := by
  subst ho
  exact ⟨by rw [← hnodes]; rfl, rfl, by rw [← htrace]; rfl⟩

/-- **All a step can do** -/
theorem step_cases (w : Smr) (op : SmrOp) :
    Still w (step w op) ∨
    (∃ i nd c, op = .submit i c ∧ Submitted w (step w op) i nd c) ∨
    ∃ i nd nd' sh' fx ev, w.nodes i = some nd ∧ Turn w i nd op nd' sh' fx ev ∧ Turned w (step w op) i nd' sh' fx ev := by
  cases op with
  | submit i c =>
    unfold step
    dsimp only
    split_ifs with hp
    · exact .inl ⟨rfl, rfl, .inl rfl⟩
    · unfold submit
      split_ifs with hc
      · exact .inl ⟨rfl, rfl, .inl rfl⟩
      · cases hn : w.nodes i with
        | none => exact .inl ⟨rfl, rfl, .inl rfl⟩
        | some nd =>
          refine .inr (.inl ⟨i, nd, c, rfl, ?_⟩)
          dsimp only
          split_ifs
          · exact ⟨hc, hn, rfl, rfl, rfl⟩
          · exact ⟨hc, hn, rfl, rfl, rfl⟩
  | env op =>
    show Still w (w.env SmrNode.behaviour op) ∨ _ ∨ ∃ i nd nd' sh' fx ev, _ ∧ _ ∧
      Turned w (w.env SmrNode.behaviour op) i nd' sh' fx ev
    rcases World.env_cases SmrNode.behaviour w op with hcalm | ⟨w₀, e, nd, rng, hcalm, hup, hnd, ⟨k, rfl, hk⟩, hw⟩ |
      ⟨w₀, t, nd, rng, hcalm, hup, hnd, hdue, ⟨k, rfl, hk⟩, hw⟩ | ⟨w₀, i, nd, rng, hcalm, hnd, rfl, hw⟩
    · exact .inl (still_of_calm hcalm)
    · obtain ⟨src, dst, payload⟩ := e
      rw [hw, hcalm.shared]
      have htrace : w₀.trace ++ [TraceEvent.deliver ⟨src, dst, payload⟩] = w.trace ++ [.deliver ⟨src, dst, payload⟩] := by
        rw [hcalm.trace]
      cases payload with
      | request req =>
        have ho : ∃ r, SmrNode.onRequest src req nd w.shared = .ok r := ⟨_, rfl⟩
        obtain ⟨⟨nd', sh', fx⟩, ho⟩ := ho
        exact .inr (.inr ⟨dst, nd, nd', sh', fx, _, hnd, .request hk ho, perform_turned ho hcalm.nodes htrace⟩)
      | response resp =>
        cases ho : SmrNode.onReply ⟨dst, w₀.now, rng⟩ src resp nd w.shared with
        | error e =>
          have ho' : SmrNode.behaviour.onMessage ⟨dst, w₀.now, rng⟩ src (.response resp) nd w.shared = .error e := ho
          rw [ho']
          exact .inl ⟨hcalm.nodes, rfl, .inr ⟨src, dst, resp, htrace⟩⟩
        | ok r =>
          obtain ⟨nd', sh', fx⟩ := r
          exact .inr (.inr ⟨dst, nd, nd', sh', fx, _, hnd, .reply hk hup ho, perform_turned ho hcalm.nodes htrace⟩)
    · rw [hw, hcalm.shared]
      have htrace : w₀.trace = w.trace ++ [] := by rw [hcalm.trace, List.append_nil]
      cases ho : SmrNode.onTimer ⟨t.node, w₀.now, rng⟩ t.id nd w.shared with
      | error e =>
        have ho' : SmrNode.behaviour.onTimer ⟨t.node, w₀.now, rng⟩ t.id nd w.shared = .error e := ho
        rw [ho']
        exact .inl ⟨hcalm.nodes, hcalm.shared, .inl hcalm.trace⟩
      | ok r =>
        obtain ⟨nd', sh', fx⟩ := r
        exact .inr (.inr ⟨t.node, nd, nd', sh', fx, [], hnd, .timer ho, perform_turned ho hcalm.nodes htrace⟩)
    · rw [hw, hcalm.shared]
      have htrace : w₀.trace = w.trace ++ [] := by rw [hcalm.trace, List.append_nil]
      cases ho : SmrNode.onRestart ⟨i, w₀.now, rng⟩ nd w.shared with
      | error e =>
        have ho' : SmrNode.behaviour.onRestart ⟨i, w₀.now, rng⟩ nd w.shared = .error e := ho
        rw [ho']
        exact .inl ⟨hcalm.nodes, hcalm.shared, .inl hcalm.trace⟩
      | ok r =>
        obtain ⟨nd', sh', fx⟩ := r
        exact .inr (.inr ⟨i, nd, nd', sh', fx, [], hnd, .restart ho, perform_turned ho hcalm.nodes htrace⟩)

/-! ## What a replica may send and propose -/

/-- a client submitted `c`, as the operation `id` -/
def InvokedAs (w : Smr) (id : OpId) (c : Command) : Prop := .invoked id c ∈ w.shared.history

/-- a client submitted `c` -/
def Invoked (w : Smr) (c : Command) : Prop := ∃ id, InvokedAs w id c

/-- the leader that the policy assigns to a slot, where it assigns one -/
def leaderOf (w : Smr) (k : ℕ) : Option NodeId := w.shared.policy.leaderOf k

/-- replica `i` has reached slot `k`: it is past it, or has an attempt there -/
def MaySend (w : Smr) (i : NodeId) (k : ℕ) : Prop :=
  ∃ nd, w.nodes i = some nd ∧
    (k < nd.durable.nextSlot ∨ k = nd.durable.nextSlot ∧ nd.currentAttempt.isSome = true)

/-- what moves in a slot was submitted, or is the slot's probe -/
def MayCarry (w : Smr) (k : ℕ) (c : Command) : Prop := c = catchUpProbe k ∨ Invoked w c

/-- a reply that completes phase 1 or 2 does so on recorders that accepted, at that step, proposals no smaller than the
proposer's own -/
def CoveredStep (w : Smr) : SmrOp → Prop
  | .env (.deliver k _) => ∀ e ∈ w.net[k]?, w.crashed e.dst = false → ∀ nd ∈ w.nodes e.dst, ∀ p ∈ nd.hosted,
      match e.payload with
      | .request _ => True
      | .response resp => p.Covers (servedOf w.trace p.slot) e.src resp
  | _ => True

/-- no replica is restarted, and none is catching up -/
def Straight (w : Smr) (op : SmrOp) : Prop :=
  (∀ i rng, op ≠ .env (.restart i rng)) ∧ ∀ i nd, w.nodes i = some nd → nd.isCatchingUp = false

/-- what the acts of a step obey -/
structure Ruled (n : ℕ) (w : Smr) (op : SmrOp) (a : Arena Command) (act : Act Command) : Prop where
  allowed : Arena.Allowed n a act
  heads : Arena.Heads (leaderOf (step w op)) a act
  within : ∀ i p, act = .spawn i p → MaySend (step w op) i p.slot
  carries : ∀ i p, act = .spawn i p → MayCarry (step w op) p.slot p.proposal.value
  tags : ∀ i p, act = .spawn i p → p.leader = some i → Invoked (step w op) p.proposal.value
  opens : ∀ i p, act = .spawn i p → ∃ nd a, (step w op).nodes i = some nd ∧ nd.currentAttempt = some a ∧
    a.slot = p.slot ∧ a.command = p.proposal.value
  covered : CoveredStep w op → Arena.Covered a act
  once : Straight w op → Arena.Once a act

/-- an act that spawns no proposer has less to obey -/
theorem Ruled.of_not_spawn {n : ℕ} {w : Smr} {op : SmrOp} {a : Arena Command} {act : Act Command}
    (hspawn : ∀ i p, act ≠ .spawn i p) (hallowed : Arena.Allowed n a act)
    (hheads : Arena.Heads (leaderOf (step w op)) a act) (hcovered : CoveredStep w op → Arena.Covered a act)
    (honce : Straight w op → Arena.Once a act) : Ruled n w op a act where
  allowed := hallowed
  heads := hheads
  within := fun i p he => absurd he (hspawn i p)
  carries := fun i p he => absurd he (hspawn i p)
  tags := fun i p he => absurd he (hspawn i p)
  opens := fun i p he => absurd he (hspawn i p)
  covered := hcovered
  once := honce

/-! ## What a replica keeps -/

/-- a started attempt at the frontier, for the slot's probe or for a submitted command -/
structure Live (w : Smr) (nd : SmrNode) (a : CurrentAttempt) : Prop where
  frontier : a.slot = nd.durable.nextSlot
  slot : a.proposer.slot = nd.durable.nextSlot
  started : a.proposer.step ≠ 0
  probe : a.origin = .catchUp → a.command = catchUpProbe nd.durable.nextSlot
  op : ∀ id, a.origin = .op id → InvokedAs w id a.command

structure Sane (n : ℕ) (w : Smr) : Prop where
  net : ∀ e ∈ w.net, e ∈ sentOf w.trace
  total : ∀ i nd, w.nodes i = some nd → nd.totalReplicas = n
  recorder : ∀ i nd k, w.nodes i = some nd → (nd.durable.recorder k).isr = Isr.replay (servedOf w.trace k i)
  live : ∀ i nd a, w.nodes i = some nd → nd.currentAttempt = some a → Live w nd a
  queued : ∀ i nd o, w.nodes i = some nd → o ∈ nd.queue → InvokedAs w o.opId o.command
  length : ∀ i nd, w.nodes i = some nd → nd.durable.appliedLog.length = nd.durable.nextSlot
  kv : ∀ i nd, w.nodes i = some nd → nd.durable.kv = Kv.replay nd.durable.appliedLog
  pinned : w.shared.policy.Pinned
  arena : Arena.Inv n (view w)
  within : Arena.Within (MaySend w) (view w)
  carries : Arena.Carries (MayCarry w) (view w)
  sole : Arena.Sole (leaderOf w) (view w)
  tags : Arena.Tags (Invoked w) (view w)
  settled : ∀ i nd k c, w.nodes i = some nd → nd.durable.appliedLog[k]? = some c →
    ∃ s, Arena.Settled n ((view w).hist k) s c

/-! ## Each step is a run of ruled acts -/

section Acts

variable {n : ℕ} {w : Smr} {op : SmrOp} {a : Arena Command} {ctx : SmrCtx} {nd nd' : SmrNode} {sh sh' : Shared}
  {fx : List (Effect SmrMsg)}

theorem proposerFor_fresh (nd : SmrNode) (self : NodeId) (command : Command) (leader : Option NodeId)
    (delay : Option ℕ) (htotal : nd.totalReplicas = n) :
    Arena.Fresh n self (nd.proposerFor self command leader delay) := by
  unfold SmrNode.proposerFor
  cases delay with
  | none => exact ⟨rfl, htotal, rfl, rfl, rfl, rfl⟩
  | some d => exact ⟨rfl, htotal, rfl, rfl, rfl, rfl⟩

@[simp] theorem proposerFor_slot (nd : SmrNode) (self : NodeId) (command : Command) (leader : Option NodeId)
    (delay : Option ℕ) : (nd.proposerFor self command leader delay).slot = nd.durable.nextSlot := by
  unfold SmrNode.proposerFor; cases delay <;> rfl

@[simp] theorem proposerFor_leader (nd : SmrNode) (self : NodeId) (command : Command) (leader : Option NodeId)
    (delay : Option ℕ) : (nd.proposerFor self command leader delay).leader = leader := by
  unfold SmrNode.proposerFor; cases delay <;> rfl

@[simp] theorem proposerFor_value (nd : SmrNode) (self : NodeId) (command : Command) (leader : Option NodeId)
    (delay : Option ℕ) : (nd.proposerFor self command leader delay).proposal.value = command := by
  unfold SmrNode.proposerFor; cases delay <;> rfl

theorem Started.hosted {origin : AttemptOrigin} {command : Command} {leader : Option NodeId}
    (h : SmrNode.Started ctx nd sh origin command leader nd' sh' fx) : ∃ delay,
    nd'.hosted = some ((nd.proposerFor ctx.selfId command leader delay).start ctx.rng).1 ∧
      ∀ i, sendsOf i fx = sendsOf i ((nd.proposerFor ctx.selfId command leader delay).start ctx.rng).2 := by
  obtain ⟨delay, ⟨b, hb⟩, hfx⟩ := h.drives
  exact ⟨delay, by rw [SmrNode.hosted, hb]; rfl, hfx⟩

variable (op) in
/-- starting an attempt is spawning its proposer and kicking it -/
theorem started_acts {origin : AttemptOrigin} {command : Command} {leader : Option NodeId}
    (h : SmrNode.Started ctx nd sh origin command leader nd' sh' fx) (htotal : nd.totalReplicas = n)
    (hlead : leader = some ctx.selfId →
      leaderOf (step w op) nd.durable.nextSlot = some ctx.selfId ∧ a.Untouched ctx.selfId nd.durable.nextSlot ∧
        Invoked (step w op) command)
    (hcarry : MayCarry (step w op) nd.durable.nextSlot command)
    (honce : Straight w op → a.Untouched ctx.selfId nd.durable.nextSlot)
    (hnode : (step w op).nodes ctx.selfId = some nd') :
    ∃ acts, Runs.Along Arena.step (Ruled n w op) a acts ∧
      a.run acts = a.swap ctx.selfId nd'.hosted (sendsOf ctx.selfId fx) := by
  obtain ⟨delay, hhost, hfx⟩ := Started.hosted h
  obtain ⟨delay', ⟨b, hb⟩, -⟩ := h.drives
  have hfresh := proposerFor_fresh nd ctx.selfId command leader delay htotal
  refine ⟨[.spawn ctx.selfId (nd.proposerFor ctx.selfId command leader delay), .timer ctx.selfId .kickoff 0 ctx.rng],
    ⟨?_, ?_, trivial⟩, ?_⟩
  · -- the spawn
    refine
      { allowed := hfresh
        heads := fun hl => ?_
        within := fun i p he => ?_
        carries := fun i p he => ?_
        tags := fun i p he hl => ?_
        opens := fun i p he => ?_
        covered := fun _ => trivial
        once := fun hs => ?_ }
    · rw [proposerFor_leader] at hl
      rw [proposerFor_slot]
      exact ⟨(hlead hl).1, (hlead hl).2.1⟩
    · simp only [Act.spawn.injEq] at he
      obtain ⟨rfl, rfl⟩ := he
      exact ⟨nd', hnode, .inr ⟨by rw [proposerFor_slot, h.keeps.durable], by rw [hb]; rfl⟩⟩
    · simp only [Act.spawn.injEq] at he
      obtain ⟨rfl, rfl⟩ := he
      rw [proposerFor_slot, proposerFor_value]
      exact hcarry
    · simp only [Act.spawn.injEq] at he
      obtain ⟨rfl, rfl⟩ := he
      rw [proposerFor_leader] at hl
      rw [proposerFor_value]
      exact (hlead hl).2.2
    · simp only [Act.spawn.injEq] at he
      obtain ⟨rfl, rfl⟩ := he
      exact ⟨nd', _, hnode, hb, (proposerFor_slot nd _ _ _ _).symm, (proposerFor_value nd _ _ _ _).symm⟩
    · show ∀ j s x, _
      rw [proposerFor_slot]
      exact honce hs
  · -- the kickoff finds the proposer just spawned
    have hzero : ∀ p, (a.step (.spawn ctx.selfId (nd.proposerFor ctx.selfId command leader delay))).props ctx.selfId =
        some p → p.step = 0 := by
      intro p hp
      have hp' : nd.proposerFor ctx.selfId command leader delay = p := by simpa [Arena.step] using hp
      rw [← hp']
      exact hfresh.step
    exact .of_not_spawn (by simp) (fun hid => absurd hid (by simp)) (fun _ => hzero) (fun _ => trivial) fun _ => hzero
  · show ((a.step (.spawn ctx.selfId _)).host ctx.selfId fun p => p.onTimer .kickoff 0 ctx.rng) = _
    have hp : (a.step (.spawn ctx.selfId (nd.proposerFor ctx.selfId command leader delay))).props ctx.selfId =
        some (nd.proposerFor ctx.selfId command leader delay) := by simp [Arena.step]
    have hc : (nd.proposerFor ctx.selfId command leader delay).onTimer .kickoff 0 ctx.rng =
        .ok (((nd.proposerFor ctx.selfId command leader delay).start ctx.rng).1,
          ((nd.proposerFor ctx.selfId command leader delay).start ctx.rng).2) := rfl
    rw [Arena.host_ok _ hp hc, hhost, hfx]
    simp only [Arena.swap, Arena.step, Function.update_idem]

variable (op) in
/-- an idle replica resumes by ruled acts -/
theorem resumes_acts (h : SmrNode.Resumes ctx nd sh nd' sh' fx) (hidle : nd.currentAttempt = none)
    (htotal : nd.totalReplicas = n) (hfree : a.Untouched ctx.selfId nd.durable.nextSlot)
    (hqueue : ∀ o ∈ nd.queue, Invoked (step w op) o.command) (hnode : (step w op).nodes ctx.selfId = some nd')
    (hshared : (step w op).shared = sh') :
    ∃ acts, Runs.Along Arena.step (Ruled n w op) a acts ∧
      a.run acts = a.swap ctx.selfId nd'.hosted (sendsOf ctx.selfId fx) := by
  cases h with
  | rests =>
    refine ⟨[.retire ctx.selfId], ⟨?_, trivial⟩, ?_⟩
    · exact .of_not_spawn (by simp) trivial trivial (fun _ => trivial) fun _ => trivial
    · have hhost : nd.hosted = none := by rw [SmrNode.hosted, hidle]; rfl
      rw [hhost]
      unfold Arena.swap
      simp [Arena.step, sendsOf]
  | @proposes o queue leader _ _ _ hq hl hst =>
    have hinv := hqueue o (by rw [hq]; exact List.mem_cons_self ..)
    refine started_acts op hst htotal (fun hlead => ⟨?_, hfree, hinv⟩) (.inr hinv) (fun _ => hfree) hnode
    -- the policy goes on naming the leader that the attempt was started with
    unfold leaderOf LeaderPolicy.leaderOf
    rw [hshared, hst.shared]
    dsimp only
    rw [LeaderPolicy.leaderFor_noteAttemptStart, hl, hlead]
  | probes hst =>
    exact started_acts op hst htotal (fun hlead => absurd hlead (by simp)) (.inl rfl) (fun _ => hfree) hnode

end Acts

section Simulation

variable {n : ℕ} {w w' : Smr} {op : SmrOp}

theorem view_trace {props : NodeId → Option (Proposer Command)} {t : List (TraceEvent SmrMsg)}
    (h : t = w.trace ∨ ∃ src dst resp, t = w.trace ++ [.deliver ⟨src, dst, .response resp⟩]) :
    arenaOf t props = arenaOf w.trace props := by
  rcases h with rfl | ⟨src, dst, resp, rfl⟩
  · rfl
  · exact arenaOf_response _ _ _ _ _

theorem view_still (h : Still w w') : view w' = view w := by
  unfold view
  rw [h.nodes, view_trace h.trace]

theorem view_submitted {i : NodeId} {nd : SmrNode} {c : Command} (h : Submitted w w' i nd c) : view w' = view w := by
  unfold view
  rw [h.nodes, h.trace]
  congr 1
  funext j
  by_cases hj : j = i
  · subst hj; simp [h.node, SmrNode.hosted]
  · simp [hj]

/-- a callback shows in the view as the proposer it leaves hosted and the messages it sends -/
theorem view_turned {i : NodeId} {nd' : SmrNode} {sh' : Shared} {fx : List (Effect SmrMsg)}
    {ev : List (TraceEvent SmrMsg)} (h : Turned w w' i nd' sh' fx ev)
    (hev : ev = [] ∨ ∃ src dst resp, ev = [.deliver ⟨src, dst, .response resp⟩]) :
    view w' = (view w).swap i nd'.hosted (sendsOf i fx) := by
  have htrace : ∀ props, arenaOf (w.trace ++ ev) props = arenaOf w.trace props := by
    intro props
    refine view_trace ?_
    rcases hev with rfl | ⟨src, dst, resp, rfl⟩
    · exact .inl (List.append_nil _)
    · exact .inr ⟨src, dst, resp, rfl⟩
  have hsent : sentOf (w.trace ++ ev) = sentOf w.trace := congrArg Arena.sends (htrace fun _ => none)
  unfold view
  rw [h.trace, h.nodes, arenaOf_sends, htrace, hsent]
  unfold Arena.swap arenaOf
  simp only [Arena.mk.injEq, true_and]
  funext j
  by_cases hj : j = i
  · subst hj; simp
  · simp [hj]

/-! ### What is shared -/

theorem Resumes.durable {ctx : SmrCtx} {nd nd' : SmrNode} {sh sh' : Shared} {fx : List (Effect SmrMsg)}
    (h : SmrNode.Resumes ctx nd sh nd' sh' fx) : nd'.durable = nd.durable := by
  cases h with
  | rests => rfl
  | proposes _ _ h => exact h.keeps.durable
  | probes h => exact h.keeps.durable

theorem Resumes.shared {ctx : SmrCtx} {nd nd' : SmrNode} {sh sh' : Shared} {fx : List (Effect SmrMsg)}
    (h : SmrNode.Resumes ctx nd sh nd' sh' fx) : ∃ policy, sh' = { sh with policy := policy } := by
  cases h with
  | rests => exact ⟨sh.policy, rfl⟩
  | proposes _ _ h => exact ⟨_, h.shared⟩
  | probes h => exact ⟨_, h.shared⟩

theorem complete_policy (sh : Shared) (policy : LeaderPolicy) (id : OpId) (now slot : ℕ) (outcome : OpOutcome) :
    { sh with policy := policy }.complete id now slot outcome =
      { sh.complete id now slot outcome with policy := policy } := by
  unfold Shared.complete
  dsimp only
  cases sh.results.lookup id with
  | none => rfl
  | some r => rfl

theorem complete_nextOpId (sh : Shared) (id : OpId) (now slot : ℕ) (outcome : OpOutcome) :
    (sh.complete id now slot outcome).nextOpId = sh.nextOpId := by
  unfold Shared.complete
  cases sh.results.lookup id with
  | none => rfl
  | some r => rfl

/-- **What a callback does to what is shared**: it moves the policy on, and completes the operation of an attempt that
decided its own command. -/
theorem Turn.shared {i : NodeId} {nd nd' : SmrNode} {sh' : Shared} {fx : List (Effect SmrMsg)}
    {ev : List (TraceEvent SmrMsg)} (h : Turn w i nd op nd' sh' fx ev) :
    (∃ policy, sh' = { w.shared with policy := policy }) ∨
    ∃ a id now policy, nd.currentAttempt = some a ∧ a.origin = .op id ∧
      nd'.durable.appliedLog = nd.durable.appliedLog ++ [a.command] ∧
      sh' = { w.shared.complete id now nd.durable.nextSlot (a.command.outcome (nd.durable.kv.apply a.command).2) with
        policy := policy } := by
  cases h with
  | request _ hcall =>
    simp only [SmrNode.onRequest, Except.ok.injEq, Prod.mk.injEq] at hcall
    exact .inl ⟨w.shared.policy, hcall.2.1.symm⟩
  | @reply _ _ _ _ now _ _ _ _ _ hcall =>
    rcases SmrNode.onReply_moves hcall with ⟨-, rfl, -⟩ | ⟨attempt, p, fx₁, nd₁, ha, -, -, hdrv, ⟨-, -, rfl, -⟩ |
      ⟨decided, ended, nd₂, sh₂, fx₂, -, hend, hended, hres, -⟩⟩
    · exact .inl ⟨w.shared.policy, rfl⟩
    · exact .inl ⟨w.shared.policy, rfl⟩
    · obtain ⟨policy, hpol⟩ := Resumes.shared hres
      rcases hended.shared with heq | ⟨id, ho, hd, heq⟩
      · exact .inl ⟨policy, by rw [hpol, heq]⟩
      · -- the attempt that ends is the one in flight, with its proposer driven
        obtain ⟨b, hb⟩ := hdrv.drives
        obtain rfl := Option.some.inj (hb.symm.trans hend)
        have hbefore : nd₁.durable = nd.durable := hdrv.keeps.durable
        refine .inr ⟨attempt, id, now, policy, ha, ho, ?_, ?_⟩
        · rw [Resumes.durable hres, hended.durable, ← hbefore, hd]
          rfl
        · rw [hpol, heq, complete_policy, hended.frontier, hbefore, hd]
  | timer hcall =>
    rcases SmrNode.onTimer_moves hcall with ⟨-, rfl, -⟩ | ⟨-, hres, -⟩ | ⟨-, hst⟩ | ⟨_, _, -, -, -, -, rfl⟩
    · exact .inl ⟨w.shared.policy, rfl⟩
    · exact .inl (Resumes.shared hres)
    · exact .inl ⟨_, hst.shared⟩
    · exact .inl ⟨w.shared.policy, rfl⟩
  | restart hcall => exact .inl ⟨_, (SmrNode.onRestart_moves hcall).shared⟩

theorem complete_history (sh : Shared) (id : OpId) (now slot : ℕ) (outcome : OpOutcome) :
    (sh.complete id now slot outcome).history = sh.history ∨ ∃ r, sh.results.lookup id = some r ∧
      (sh.complete id now slot outcome).history = sh.history ++ [.completed id r.command slot outcome] := by
  unfold Shared.complete
  cases hr : sh.results.lookup id with
  | none => exact .inl rfl
  | some r => exact .inr ⟨r, rfl, rfl⟩

theorem Turn.history {i : NodeId} {nd nd' : SmrNode} {sh' : Shared} {fx : List (Effect SmrMsg)}
    {ev : List (TraceEvent SmrMsg)} (h : Turn w i nd op nd' sh' fx ev) :
    sh'.history = w.shared.history ∨ ∃ id c k out, sh'.history = w.shared.history ++ [.completed id c k out] := by
  rcases Turn.shared h with ⟨policy, rfl⟩ | ⟨a, id, now, policy, -, -, -, rfl⟩
  · exact .inl rfl
  · rcases complete_history w.shared id now nd.durable.nextSlot
      (a.command.outcome (nd.durable.kv.apply a.command).2) with hsame | ⟨r, -, hsnoc⟩
    · exact .inl hsame
    · exact .inr ⟨id, _, _, _, hsnoc⟩

/-- one event at most joins the clients' history -/
theorem history_step (w : Smr) (op : SmrOp) : ∃ l, (step w op).shared.history = w.shared.history ++ l := by
  rcases step_cases w op with hstill | ⟨i, nd, c, rfl, hsub⟩ | ⟨i, nd, nd', sh', fx, ev, hnd, hturn, htd⟩
  · exact ⟨[], by rw [hstill.shared, List.append_nil]⟩
  · exact ⟨_, by rw [hsub.shared]; rfl⟩
  · rw [htd.shared]
    rcases Turn.history hturn with hsame | ⟨id, c, k, out, hsnoc⟩
    · exact ⟨[], by rw [hsame, List.append_nil]⟩
    · exact ⟨_, hsnoc⟩

theorem InvokedAs.step {id : OpId} {c : Command} (h : InvokedAs w id c) (op : SmrOp) :
    InvokedAs (Smr.step w op) id c := by
  obtain ⟨l, hl⟩ := history_step w op
  unfold InvokedAs
  rw [hl]
  exact List.mem_append_left _ h

theorem Invoked.step {c : Command} (h : Invoked w c) (op : SmrOp) : Invoked (Smr.step w op) c := by
  obtain ⟨id, hid⟩ := h
  exact ⟨id, hid.step op⟩

/-- a kicked or driven proposer was started -/
theorem Sane.started (h : Sane n w) {i : NodeId} {nd : SmrNode} {a : CurrentAttempt} (hnd : w.nodes i = some nd)
    (ha : nd.currentAttempt = some a) : 4 ≤ a.proposer.step := by
  have hseat := h.arena.seat i a.proposer (by rw [view_props hnd, SmrNode.hosted, ha]; rfl)
  exact hseat.started.resolve_left (h.live i nd a hnd ha).started

/-- a replica never sent for a slot past its frontier, nor for its frontier while idle -/
theorem Sane.untouched (h : Sane n w) {i : NodeId} {nd : SmrNode} (hnd : w.nodes i = some nd) {k : ℕ}
    (hk : nd.durable.nextSlot < k ∨ nd.durable.nextSlot = k ∧ nd.currentAttempt = none) :
    (view w).Untouched i k := by
  intro j s x he
  obtain ⟨nd₀, hnd₀, hor⟩ := h.within.sent i j k s x he
  obtain rfl : nd = nd₀ := Option.some.inj (hnd.symm.trans hnd₀)
  rcases hk with hlt | ⟨heq, hnone⟩
  · omega
  · rcases hor with hlt | ⟨-, hsome⟩
    · omega
    · rw [hnone] at hsome; exact absurd hsome (by simp)

/-- the recorder's reply is what the arena's recorder answers -/
theorem Sane.answer (h : Sane n w) {i : NodeId} {nd : SmrNode} (hnd : w.nodes i = some nd)
    (req : RecordRequest Command) :
    ((nd.durable.recorder req.slot).handle req).2 = Arena.answer (servedOf w.trace req.slot i) req := by
  unfold Recorder.handle Arena.answer
  rw [Isr.replay_snoc, ← h.recorder i nd req.slot hnd]
  rfl

/-- the act of a reply to the attempt's proposer -/
theorem Sane.reply_ruled (h : Sane n w) {i src : NodeId} {nd : SmrNode} {resp : RecordResponse Command} {k : ℕ}
    {rng : NodeId → Draw} (hnd : w.nodes i = some nd) (hk : w.net[k]? = some ⟨src, i, .response resp⟩)
    (hup : w.crashed i = false) :
    Ruled n w (.env (.deliver k rng)) (view w) (.reply src i resp rng) := by
  refine .of_not_spawn (by simp) (h.net _ (List.mem_of_getElem? hk)) trivial (fun hc p hp => ?_) fun _ => trivial
  rw [view_props hnd] at hp
  exact hc _ hk hup nd hnd p hp

/-- the act of a timer of the attempt's proposer -/
theorem Sane.timer_ruled (h : Sane n w) {i : NodeId} {nd : SmrNode} {a : CurrentAttempt} {id : TimerId} {l : ℕ}
    {rng : NodeId → Draw} (hnd : w.nodes i = some nd) (ha : nd.currentAttempt = some a) (hid : id ≠ .kickoff) :
    Ruled n w op (view w) (.timer i id l rng) := by
  refine .of_not_spawn (by simp) (fun _ p hp => ?_) (fun hk => absurd hk hid) (fun _ => trivial) fun _ => ?_
  · rw [view_props hnd, SmrNode.hosted, ha] at hp
    obtain rfl := Option.some.inj hp
    exact h.started hnd ha
  · cases id with
    | kickoff => exact absurd rfl hid
    | hedge => trivial
    | catchUpWatchdog => trivial
    | retry s => trivial

/-- a reply folded into the attempt's proposer -/
theorem reply_acts {i src : NodeId} {nd : SmrNode} {attempt : CurrentAttempt} {resp : RecordResponse Command}
    {rng : NodeId → Draw} {p : Proposer Command} {fx : List (Effect SmrMsg)} (hnd : w.nodes i = some nd)
    (ha : nd.currentAttempt = some attempt) (hcall : attempt.proposer.onResponse src resp rng = .ok (p, fx)) :
    (view w).step (.reply src i resp rng) = (view w).swap i (some p) (sendsOf i fx) := by
  have hprops : (view w).props i = some attempt.proposer := by rw [view_props hnd, SmrNode.hosted, ha]; rfl
  exact Arena.host_ok (fun q => q.onResponse src resp rng) hprops hcall

/-- a served request shows in the view as the recorder's act -/
theorem Sane.request_acts (h : Sane n w) {i src : NodeId} {nd nd' : SmrNode} {req : RecordRequest Command}
    {sh' : Shared} {fx : List (Effect SmrMsg)} (hnd : w.nodes i = some nd)
    (hcall : SmrNode.onRequest src req nd w.shared = .ok (nd', sh', fx))
    (htd : Turned w w' i nd' sh' fx [.deliver ⟨src, i, .request req⟩]) :
    view w' = (view w).step (.record src i req) := by
  simp only [SmrNode.onRequest, Except.ok.injEq, Prod.mk.injEq] at hcall
  obtain ⟨rfl, rfl, rfl⟩ := hcall
  unfold view
  rw [htd.trace, h.answer hnd]
  refine (arenaOf_record w.trace _ src i req).trans ?_
  congr 2
  funext j
  rw [htd.nodes]
  by_cases hj : j = i
  · subst hj; simp [hnd, SmrNode.hosted]
  · simp [hj]

/-- a started attempt of an idle, restarted or watched replica: its acts start from the view itself -/
theorem Sane.ends_untouched (h : Sane n w) {i src : NodeId} {nd : SmrNode} {attempt : CurrentAttempt}
    {resp : RecordResponse Command} {rng : NodeId → Draw} {p : Proposer Command} {fx : List (Effect SmrMsg)}
    (hnd : w.nodes i = some nd) (ha : nd.currentAttempt = some attempt)
    (hcall : attempt.proposer.onResponse src resp rng = .ok (p, fx)) {k : ℕ} (hk : nd.durable.nextSlot < k) :
    ((view w).swap i (some p) (sendsOf i fx)).Untouched i k := by
  intro j s x he
  rcases List.mem_append.1 he with he | he
  · exact h.untouched hnd (.inl hk) j s x he
  · obtain ⟨r, t, y, heq⟩ := Proposer.onResponse_requests hcall i _ he
    simp only [Envelope.mk.injEq, ConcreteMsg.request.injEq, RecordRequest.mk.injEq] at heq
    have hslot := (h.live i nd attempt hnd ha).slot
    omega

/-- **Simulation step.** A step of the cluster is a run of ruled acts on the view. -/
theorem sim_step (h : Sane n w) (op : SmrOp) :
    ∃ acts, Runs.Along Arena.step (Ruled n w op) (view w) acts ∧ (view w).run acts = view (step w op) := by
  rcases step_cases w op with hstill | ⟨i, nd, c, rfl, hsub⟩ | ⟨i, nd, nd', sh', fx, ev, hnd, hturn, htd⟩
  · exact ⟨[], trivial, (view_still hstill).symm⟩
  · exact ⟨[], trivial, (view_submitted hsub).symm⟩
  have hnode : (step w op).nodes i = some nd' := by rw [htd.nodes, Function.update_self]
  have hsame : view (step w op) = (view w).swap i nd.hosted [] →
      ∃ acts, Runs.Along Arena.step (Ruled n w op) (view w) acts ∧ (view w).run acts = view (step w op) := by
    intro hv
    exact ⟨[], trivial, by rw [hv, Arena.swap_self (view_props hnd)]; rfl⟩
  cases hturn with
  | @request k rng src req _ _ _ hk hcall =>
    refine ⟨[.record src i req], ⟨?_, trivial⟩, (h.request_acts hnd hcall htd).symm⟩
    exact .of_not_spawn (by simp) (h.net _ (List.mem_of_getElem? hk)) trivial (fun _ => trivial) fun _ => trivial
  | @reply k rng src resp now _ _ _ hk hup hcall =>
    have hview := view_turned htd (.inr ⟨src, i, resp, rfl⟩)
    rcases SmrNode.onReply_moves hcall with ⟨rfl, rfl, rfl⟩ |
      ⟨attempt, p, fx₁, nd₁, ha, hslot, hresp, hdrv, hrest⟩
    · exact hsame hview
    · have hruled : Ruled n w (.env (.deliver k rng)) (view w) (.reply src i resp rng) := h.reply_ruled hnd hk hup
      have hact := reply_acts hnd ha hresp
      obtain ⟨b, hb⟩ := hdrv.drives
      rcases hrest with ⟨-, rfl, rfl, rfl⟩ | ⟨decided, ended, nd₂, sh₂, fx₂, hdec, hend, hended, hres, rfl, -⟩
      · refine ⟨[.reply src i resp rng], ⟨hruled, trivial⟩, ?_⟩
        rw [hview, SmrNode.hosted, hb]
        exact hact
      · -- the attempt ends, and the replica resumes at a slot it never sent for
        have hnext : nd₂.durable.nextSlot = nd.durable.nextSlot + 1 := by
          rw [hended.durable, ← hdrv.keeps.durable]; rfl
        have hfree := h.ends_untouched hnd ha hresp (k := nd₂.durable.nextSlot) (by omega)
        have hinv : ∀ o ∈ nd₂.queue, Invoked (step w (.env (.deliver k rng))) o.command := by
          intro o ho
          refine Invoked.step ?_ _
          rcases hended.queue with heq | ⟨id, hid, heq⟩
          · rw [heq, hdrv.queue] at ho
            exact ⟨_, h.queued i nd o hnd ho⟩
          · rw [heq, hdrv.queue] at ho
            rcases List.mem_cons.1 ho with rfl | ho
            · obtain rfl := Option.some.inj (hb.symm.trans hend)
              exact ⟨id, (h.live i nd attempt hnd ha).op id hid⟩
            · exact ⟨_, h.queued i nd o hnd ho⟩
        obtain ⟨acts, hacts, hrun⟩ := resumes_acts (n := n) (w := w) (.env (.deliver k rng))
          (a := (view w).swap i (some p) (sendsOf i fx₁)) hres hended.idle
          (by rw [hended.total, hdrv.keeps.total]; exact h.total i nd hnd) hfree hinv hnode htd.shared
        refine ⟨.reply src i resp rng :: acts, ⟨hruled, by rw [hact]; exact hacts⟩, ?_⟩
        show ((view w).step (.reply src i resp rng)).run acts = _
        rw [hact, hrun, hview, Arena.swap_swap]
        congr 1
        simp [sendsOf]
  | @timer k rng id now _ _ _ hcall =>
    have hview := view_turned htd (.inl rfl)
    rcases SmrNode.onTimer_moves hcall with ⟨rfl, rfl, rfl⟩ | ⟨hidle, hres, -⟩ | ⟨hcatch, hst⟩ |
      ⟨attempt, p, ha, hid, htm, hdrv, rfl⟩
    · exact hsame hview
    · have hinv : ∀ o ∈ nd.queue, Invoked (step w (.env (.fire k rng))) o.command := fun o ho =>
        Invoked.step ⟨_, h.queued i nd o hnd ho⟩ _
      obtain ⟨acts, hacts, hrun⟩ := resumes_acts (n := n) (w := w) (.env (.fire k rng)) hres hidle
        (h.total i nd hnd) (h.untouched hnd (.inr ⟨rfl, hidle⟩)) hinv hnode htd.shared
      exact ⟨acts, hacts, hrun.trans hview.symm⟩
    · obtain ⟨acts, hacts, hrun⟩ := started_acts (n := n) (w := w) (.env (.fire k rng)) (a := view w) hst
        (h.total i nd hnd) (fun hl => absurd hl (by simp)) (.inl rfl)
        (fun hs => absurd hcatch (by rw [hs.2 i nd hnd]; decide)) hnode
      exact ⟨acts, hacts, hrun.trans hview.symm⟩
    · refine ⟨[.timer i id nd.localStep rng], ⟨h.timer_ruled hnd ha hid, trivial⟩, ?_⟩
      obtain ⟨b, hb⟩ := hdrv.drives
      have hprops : (view w).props i = some attempt.proposer := by rw [view_props hnd, SmrNode.hosted, ha]; rfl
      rw [hview, SmrNode.hosted, hb]
      exact Arena.host_ok (fun q => q.onTimer id nd.localStep rng) hprops htm
  | @restart rng now _ _ _ hcall =>
    have hview := view_turned htd (.inl rfl)
    obtain ⟨acts, hacts, hrun⟩ := started_acts (n := n) (w := w) (.env (.restart i rng)) (a := view w)
      (SmrNode.onRestart_moves hcall) (h.total i nd hnd) (fun hl => absurd hl (by simp)) (.inl rfl)
      (fun hs => absurd rfl (hs.1 i rng)) hnode
    exact ⟨acts, hacts, hrun.trans hview.symm⟩

end Simulation

end Smr

end Queso
