/-
The single-slot cluster is an arena.

`view` reads the arena off a cluster's trace and its hosted proposers. `sim_step` says that each step of the cluster
either leaves the view alone or is one allowed act on it (`Did`), so what is proved of every allowed run of the arena
holds of every run of the cluster.
-/
import Queso.Consensus.Trace
import Queso.Consensus.Flow
import Queso.Consensus.Concrete

namespace Queso

variable {V : Type}

theorem ReplicaNode.withProposer_ok {nd nd' : ReplicaNode V} {c : Called V} {g : Unit}
    {fx : List (Effect (ConcreteMsg V))} (h : nd.withProposer c = .ok (nd', g, fx)) :
    ∃ p', c = .ok (p', fx) ∧ nd' = { nd with proposer := p' } := by
  cases c with
  | error e => exact absurd h (by simp [withProposer])
  | ok r =>
    simp only [withProposer, Except.ok.injEq, Prod.mk.injEq] at h
    obtain ⟨rfl, -, rfl⟩ := h
    exact ⟨r.1, rfl, rfl⟩

/-- a message arms retries only -/
theorem ReplicaNode.onMessage_armed [LinearOrder V] {ctx : Ctx (NodeId → Draw)} {src : NodeId} {payload : ConcreteMsg V}
    {nd nd' : ReplicaNode V} {g g' : Unit} {fx : List (Effect (ConcreteMsg V))}
    (h : behaviour.onMessage ctx src payload nd g = .ok (nd', g', fx)) {d : ℕ} {id : TimerId}
    (hfx : .timer d id ∈ fx) : ∃ s, id = .retry s := by
  cases payload with
  | request req =>
    simp only [behaviour, onMessage, Except.ok.injEq, Prod.mk.injEq] at h
    obtain ⟨-, -, rfl⟩ := h
    simp at hfx
  | response resp =>
    obtain ⟨p', hc, -⟩ := withProposer_ok h
    exact Proposer.onResponse_armed hc hfx

namespace Concrete

/-- the arena that a cluster shows -/
def view (w : Concrete V) : Arena V := arenaOf w.trace fun i => (w.nodes i).map ReplicaNode.proposer

variable [LinearOrder V]

/-- the act that a step of the cluster is -/
inductive Did (w : Concrete V) : ClusterOp → Act V → Prop where
  | record {k rng src dst req} (hk : w.net[k]? = some ⟨src, dst, .request req⟩) :
      Did w (.env (.deliver k rng)) (.record src dst req)
  | reply {k rng src dst resp nd} (hk : w.net[k]? = some ⟨src, dst, .response resp⟩) (hup : w.crashed dst = false)
      (hnd : w.nodes dst = some nd) : Did w (.env (.deliver k rng)) (.reply src dst resp rng)
  | fire {k rng t nd} (hk : w.timers[k]? = some t) (hup : w.crashed t.node = false)
      (hnd : w.nodes t.node = some nd) (hdue : w.panicked = none ∧ t.fireAt ≤ w.now) :
      Did w (.env (.fire k rng)) (.timer t.node t.id nd.localStep rng)

/-- what a cluster of `n` replicas keeps: every message in flight was sent, every request is for slot 0, each recorder
holds what it served, and a hedge timer is pending only where a proposer was started -/
structure Sane (n : ℕ) (w : Concrete V) : Prop where
  net : ∀ e ∈ w.net, e ∈ sentOf w.trace
  slot : ∀ i nd, w.nodes i = some nd → nd.proposer.slot = 0
  requests : ∀ i j req, ⟨i, j, .request req⟩ ∈ sentOf w.trace → req.slot = 0
  recorder : ∀ j nd, w.nodes j = some nd → nd.recorder.isr = Isr.replay (servedOf w.trace 0 j)
  hedge : ∀ t ∈ w.timers, t.id = .hedge → ∀ nd, w.nodes t.node = some nd → 4 ≤ nd.proposer.step
  arena : Arena.Inv n (view w)

variable {n : ℕ} {w : Concrete V}

theorem Sane.allowed (h : Sane n w) {op : ClusterOp} {act : Act V} (hdid : Did w op act) :
    Arena.Allowed n (view w) act := by
  cases hdid with
  | record hk => exact h.net _ (List.mem_of_getElem? hk)
  | reply hk hup hnd => exact h.net _ (List.mem_of_getElem? hk)
  | @fire k rng t nd hk hup hnd hdue =>
    intro hid p hp
    have hp' : nd.proposer = p := by simpa [view, arenaOf, hnd] using hp
    rw [← hp']
    exact h.hedge t (List.mem_of_getElem? hk) hid nd hnd

/-! ## Each step is an act -/

omit [LinearOrder V] in
theorem view_calm {w w' : Concrete V} (h : World.Calm w w') : view w' = view w := by
  unfold view
  rw [h.trace, h.nodes]

omit [LinearOrder V] in
/-- a call on a replica's proposer, taken over by the harness, is the same call in the arena -/
theorem view_perform {w : Concrete V} {i : NodeId} {nd : ReplicaNode V} (hnd : w.nodes i = some nd)
    (call : Proposer V → Called V) :
    view (w.perform i (nd.withProposer (call nd.proposer))) = (view w).host i call := by
  have hprops : (view w).props i = some nd.proposer := by simp [view, arenaOf, hnd]
  unfold Arena.host
  rw [hprops]
  dsimp only
  cases hc : call nd.proposer with
  | error e => rfl
  | ok r =>
    unfold ReplicaNode.withProposer World.perform view Arena.take
    dsimp only
    rw [arenaOf_sends]
    simp only [arenaOf, Arena.mk.injEq, true_and]
    funext j
    by_cases hj : j = i
    · subst hj; simp
    · simp [hj]

/-- **Simulation step.** A step of the cluster leaves the view alone or is one act on it. -/
theorem sim_step (h : Sane n w) (op : ClusterOp) :
    view (step w op) = view w ∨ ∃ act, Did w op act ∧ view (step w op) = (view w).step act := by
  cases op with
  | kick i =>
    unfold step
    dsimp only
    split_ifs <;> exact .inl rfl
  | env op =>
    show view (w.env ReplicaNode.behaviour op) = view w ∨ _
    rcases World.env_cases ReplicaNode.behaviour w op with hcalm | ⟨w₀, e, nd, rng, hcalm, hup, hnd, ⟨k, rfl, hk⟩, hw⟩ |
      ⟨w₀, t, nd, rng, hcalm, hup, hnd, hdue, ⟨k, rfl, hk⟩, hw⟩ | ⟨w₀, i, nd, rng, hcalm, hnd, rfl, hw⟩
    · exact .inl (view_calm hcalm)
    · have hnd₀ : w₀.nodes e.dst = some nd := by rw [hcalm.nodes, hnd]
      obtain ⟨src, dst, payload⟩ := e
      cases payload with
      | request req =>
        -- the recorder's reply is what the arena's recorder answers
        refine .inr ⟨_, .record hk, ?_⟩
        have hslot : req.slot = 0 := h.requests src dst req (h.net _ (List.mem_of_getElem? hk))
        have hrec := h.recorder dst nd hnd
        have hresp : (nd.recorder.handle req).2 = Arena.answer (servedOf w.trace req.slot dst) req := by
          unfold Recorder.handle Arena.answer
          rw [Isr.replay_snoc, hslot, ← hrec]
          rfl
        show view (step w _) = _
        unfold step
        dsimp only
        rw [hw]
        unfold ReplicaNode.behaviour ReplicaNode.onMessage World.perform view
        dsimp only
        rw [hcalm.trace, hcalm.nodes, hresp]
        refine (arenaOf_record w.trace _ src dst req).trans ?_
        congr 2
        funext j
        by_cases hj : j = dst
        · subst hj; simp [hnd]
        · simp [hj]
      | response resp =>
        refine .inr ⟨_, .reply hk hup hnd, ?_⟩
        show view (step w _) = _
        unfold step
        dsimp only
        rw [hw]
        refine (view_perform (w := { w₀ with trace := w₀.trace ++ [TraceEvent.deliver ⟨src, dst, .response resp⟩] })
          hnd₀ fun p => p.onResponse src resp rng).trans ?_
        congr 1
        unfold view
        dsimp only
        rw [arenaOf_response, hcalm.trace, hcalm.nodes]
    · have hnd₀ : w₀.nodes t.node = some nd := by rw [hcalm.nodes, hnd]
      refine .inr ⟨_, .fire hk hup hnd hdue, ?_⟩
      show view (step w _) = _
      unfold step
      dsimp only
      rw [hw]
      refine (view_perform hnd₀ fun p => p.onTimer t.id nd.localStep rng).trans ?_
      rw [view_calm hcalm]
      rfl
    · -- a restart runs no protocol step
      left
      rw [hw]
      unfold ReplicaNode.behaviour World.perform view
      dsimp only
      rw [show sendsOf i ([] : List (Effect (ConcreteMsg V))) = [] from rfl, List.map_nil, List.append_nil,
        hcalm.trace, hcalm.nodes]
      congr 1
      funext j
      by_cases hj : j = i
      · subst hj; simp [hnd]
      · simp [hj]

/-! ## Every step keeps the cluster sane -/

omit [LinearOrder V] in
/-- an act of the cluster starts no new proposer -/
theorem Did.not_spawn {op : ClusterOp} {act : Act V} (h : Did w op act) (i : NodeId) (p : Proposer V) :
    act ≠ .spawn i p := by
  cases h <;> simp

theorem arena_step (h : Sane n w) (op : ClusterOp) : Arena.Inv n (view (step w op)) := by
  rcases sim_step h op with hsame | ⟨act, hdid, hact⟩
  · rw [hsame]; exact h.arena
  · rw [hact]; exact Arena.inv_step h.arena (h.allowed hdid)

/-- the proposer that a node hosts after a step is the one it hosted, kept by one act -/
theorem node_back (h : Sane n w) (op : ClusterOp) {i : NodeId} {nd' : ReplicaNode V}
    (hnd' : (step w op).nodes i = some nd') :
    ∃ nd act, w.nodes i = some nd ∧ Arena.Kept act i nd.proposer nd'.proposer ∧
      (nd'.proposer.proposal = nd.proposer.proposal ∨ 5 ≤ nd'.proposer.step) := by
  have hprops : (view (step w op)).props i = some nd'.proposer := by simp [view, arenaOf, hnd']
  have hback : ∀ p, (view w).props i = some p → ∃ nd, w.nodes i = some nd ∧ nd.proposer = p := by
    intro p hp
    simpa [view, arenaOf] using hp
  rcases sim_step h op with hsame | ⟨act, hdid, hact⟩
  · rw [hsame] at hprops
    obtain ⟨nd, hnd, heq⟩ := hback _ hprops
    refine ⟨nd, .retire i, hnd, ?_, .inl (by rw [heq])⟩
    rw [heq]
    exact .refl _ _ _
  · rw [hact] at hprops
    rcases Arena.new_props h.arena (h.allowed hdid) hprops with hsp | ⟨p, hp, hkept, hor⟩
    · exact absurd hsp (hdid.not_spawn _ _)
    · obtain ⟨nd, hnd, rfl⟩ := hback p hp
      exact ⟨nd, act, hnd, hkept, hor.imp_right And.left⟩

theorem node_step (h : Sane n w) (op : ClusterOp) {i : NodeId} {nd' : ReplicaNode V}
    (hnd' : (step w op).nodes i = some nd') :
    ∃ nd, w.nodes i = some nd ∧ nd'.proposer.slot = nd.proposer.slot ∧
      (nd'.proposer.step = 0 → nd.proposer.step = 0) := by
  obtain ⟨nd, act, hnd, hkept, -⟩ := node_back h op hnd'
  exact ⟨nd, hnd, hkept.slot, hkept.back⟩

theorem requests_step (h : Sane n w) (op : ClusterOp) {i j : NodeId} {req : RecordRequest V}
    (hreq : ⟨i, j, .request req⟩ ∈ sentOf (step w op).trace) : req.slot = 0 := by
  have hold : ∀ k t x, ((view w).hist k).sent t x → k = 0 := fun k t x ⟨i, j, he⟩ => h.requests i j _ he
  have he : ⟨i, j, .request req⟩ ∈ (view (step w op)).sends := hreq
  rcases sim_step h op with hsame | ⟨act, hdid, hact⟩
  · rw [hsame] at he
    exact h.requests i j req he
  · rw [hact] at he
    rcases Arena.new_request h.arena (h.allowed hdid) he with hmem | hmade
    · exact h.requests i j req hmem
    · cases hmade with
      | copied hx => exact hold _ _ _ hx
      | drawn hs hx hy hv => exact hold _ _ _ hy
      | @opened p hs hk hp =>
        have hp' := hp.hosted
        obtain ⟨nd, hnd, rfl⟩ : ∃ nd, w.nodes i = some nd ∧ nd.proposer = p := by
          simpa [view, arenaOf] using hp'
        rw [← hk]
        exact h.slot i nd hnd

/-- a recorder goes on holding what it served -/
theorem recorder_step (h : Sane n w) (op : ClusterOp) :
    ∀ j nd, (step w op).nodes j = some nd → nd.recorder.isr = Isr.replay (servedOf (step w op).trace 0 j) := by
  -- a call on the proposer of node `i` leaves all recorders, and what they served, as they were
  have hcall : ∀ (w₀ : Concrete V) (i : NodeId) (nd : ReplicaNode V) (c : Called V), w₀.nodes = w.nodes →
      (∀ j, servedOf w₀.trace 0 j = servedOf w.trace 0 j) → w.nodes i = some nd →
      ∀ j nd', (w₀.perform i (nd.withProposer c)).nodes j = some nd' →
        nd'.recorder.isr = Isr.replay (servedOf (w₀.perform i (nd.withProposer c)).trace 0 j) := by
    intro w₀ i nd c hnodes hserved hnd j nd' hnd'
    cases c with
    | error e =>
      have hnd'' : w₀.nodes j = some nd' := hnd'
      rw [hnodes] at hnd''
      show _ = Isr.replay (servedOf w₀.trace 0 j)
      rw [hserved]
      exact h.recorder j nd' hnd''
    | ok r =>
      show _ = Isr.replay (servedOf (w₀.trace ++ (sendsOf i r.2).map TraceEvent.send) 0 j)
      rw [servedOf_append, servedOf_sends, List.append_nil, hserved]
      by_cases hj : j = i
      · subst hj
        obtain rfl : { nd with proposer := r.1 } = nd' := by
          simpa [World.perform, ReplicaNode.withProposer] using hnd'
        exact h.recorder j nd hnd
      · have hnd'' : w₀.nodes j = some nd' := by
          simpa [World.perform, ReplicaNode.withProposer, hj] using hnd'
        rw [hnodes] at hnd''
        exact h.recorder j nd' hnd''
  cases op with
  | kick i =>
    unfold step
    dsimp only
    split_ifs <;> exact h.recorder
  | env op =>
    show ∀ j nd, (w.env ReplicaNode.behaviour op).nodes j = some nd →
      nd.recorder.isr = Isr.replay (servedOf (w.env ReplicaNode.behaviour op).trace 0 j)
    rcases World.env_cases ReplicaNode.behaviour w op with hcalm | ⟨w₀, e, nd, rng, hcalm, hup, hnd, ⟨k, rfl, hk⟩, hw⟩ |
      ⟨w₀, t, nd, rng, hcalm, hup, hnd, hdue, ⟨k, rfl, hk⟩, hw⟩ | ⟨w₀, i, nd, rng, hcalm, hnd, rfl, hw⟩
    · rw [hcalm.nodes, hcalm.trace]
      exact h.recorder
    · rw [hw]
      obtain ⟨src, dst, payload⟩ := e
      cases payload with
      | request req =>
        have hslot : req.slot = 0 := h.requests src dst req (h.net _ (List.mem_of_getElem? hk))
        intro j nd' hnd'
        have htrace : ∀ l : List (Envelope (ConcreteMsg V)),
            servedOf (w₀.trace ++ [TraceEvent.deliver ⟨src, dst, .request req⟩] ++ l.map TraceEvent.send) 0 j =
              servedOf w.trace 0 j ++ if dst = j then [(req.reqStep, req.proposal)] else [] := by
          intro l
          rw [servedOf_append, servedOf_append, servedOf_sends, List.append_nil, servedOf_request, hcalm.trace, hslot]
          simp
        show _ = Isr.replay (servedOf (w₀.trace ++ [TraceEvent.deliver ⟨src, dst, .request req⟩] ++ _) 0 j)
        rw [htrace]
        by_cases hj : j = dst
        · subst hj
          obtain rfl : { nd with recorder := (nd.recorder.handle req).1
                                 localStep := (nd.recorder.handle req).2.step } = nd' := by
            simpa [World.perform, ReplicaNode.behaviour, ReplicaNode.onMessage] using hnd'
          rw [if_pos rfl, Isr.replay_snoc, ← h.recorder j nd hnd]
          rfl
        · have hnd'' : w₀.nodes j = some nd' := by
            simpa [World.perform, ReplicaNode.behaviour, ReplicaNode.onMessage, hj] using hnd'
          rw [hcalm.nodes] at hnd''
          rw [if_neg (Ne.symm hj), List.append_nil]
          exact h.recorder j nd' hnd''
      | response resp =>
        refine hcall { w₀ with trace := w₀.trace ++ [TraceEvent.deliver ⟨src, dst, .response resp⟩] } dst nd _
          hcalm.nodes (fun j => ?_) hnd
        show servedOf (w₀.trace ++ [TraceEvent.deliver ⟨src, dst, .response resp⟩]) 0 j = _
        rw [servedOf_append, servedOf_response, List.append_nil, hcalm.trace]
    · rw [hw]
      exact hcall w₀ t.node nd _ hcalm.nodes (fun j => by rw [hcalm.trace]) hnd
    · rw [hw]
      intro j nd' hnd'
      have hnd'' : w.nodes j = some nd' := by
        by_cases hj : j = i
        · subst hj
          obtain rfl : nd = nd' := by simpa [World.perform, ReplicaNode.behaviour] using hnd'
          exact hnd
        · rw [← hcalm.nodes]
          simpa [World.perform, ReplicaNode.behaviour, hj] using hnd'
      show _ = Isr.replay (servedOf (w₀.trace ++ (sendsOf i []).map TraceEvent.send) 0 j)
      rw [servedOf_append, servedOf_sends, List.append_nil, hcalm.trace]
      exact h.recorder j nd' hnd''

/-- a hedge timer is armed only where a proposer was started -/
theorem hedge_step (h : Sane n w) (op : ClusterOp) :
    ∀ t ∈ (step w op).timers, t.id = .hedge → ∀ nd, (step w op).nodes t.node = some nd → 4 ≤ nd.proposer.step := by
  intro t ht hid nd' hnd'
  have hseat := (arena_step h op).seat t.node nd'.proposer (by simp [view, arenaOf, hnd'])
  suffices hne : nd'.proposer.step ≠ 0 from hseat.started.resolve_left hne
  intro h0
  obtain ⟨nd₀, hnd₀, -, hback⟩ := node_step h op hnd'
  have hold : t ∉ w.timers := by
    intro hmem
    have h4 := h.hedge t hmem hid nd₀ hnd₀
    have := hback h0
    omega
  -- so the timer was armed by this very step
  cases op with
  | kick i =>
    unfold step at ht
    dsimp only at ht
    split_ifs at ht with hc
    · exact hold ht
    · rcases List.mem_append.1 ht with ht | ht
      · exact hold ht
      · rw [List.mem_singleton.1 ht] at hid
        exact absurd hid (by simp)
  | env op =>
    have ht : t ∈ (w.env ReplicaNode.behaviour op).timers := ht
    have hnd' : (w.env ReplicaNode.behaviour op).nodes t.node = some nd' := hnd'
    rcases World.env_cases ReplicaNode.behaviour w op with hcalm | ⟨w₀, e, nd, rng, hcalm, hup, hnd, ⟨k, rfl, hk⟩, hw⟩ |
      ⟨w₀, t', nd, rng, hcalm, hup, hnd, hdue, ⟨k, rfl, hk⟩, hw⟩ | ⟨w₀, i, nd, rng, hcalm, hnd, rfl, hw⟩
    · exact hold (hcalm.timers t ht)
    · rw [hw] at ht
      rcases World.perform_timers ht with ht | ⟨-, nd₁, g, fx, d, ho, hfx⟩
      · exact hold (hcalm.timers t ht)
      · rw [hid] at hfx
        obtain ⟨s, hs⟩ := ReplicaNode.onMessage_armed ho hfx
        exact absurd hs (by simp)
    · rw [hw] at ht hnd'
      rcases World.perform_timers ht with ht | ⟨hnode, nd₁, g, fx, d, ho, hfx⟩
      · exact hold (hcalm.timers t ht)
      · rw [hid] at hfx
        obtain ⟨p', hc, rfl⟩ := ReplicaNode.withProposer_ok ho
        rcases (Proposer.onTimer_moves hc).armed hfx with ⟨s, hs⟩ | ⟨-, hhedge | hfour⟩
        · exact absurd hs (by simp)
        · -- a hedge timer that re-arms itself fired where a proposer was started
          have h4 := h.hedge t' (List.mem_of_getElem? hk) hhedge nd hnd
          rw [hnode] at hnd₀
          obtain rfl : nd = nd₀ := Option.some.inj (hnd.symm.trans hnd₀)
          have := hback h0
          omega
        · rw [ho, hnode] at hnd'
          obtain rfl : { nd with proposer := p' } = nd' := by simpa [World.perform] using hnd'
          rw [h0] at hfour
          exact absurd hfour (by decide)
    · rw [hw] at ht
      rcases World.perform_timers ht with ht | ⟨-, nd₁, g, fx, d, ho, hfx⟩
      · exact hold (hcalm.timers t ht)
      · simp only [ReplicaNode.behaviour, Except.ok.injEq, Prod.mk.injEq] at ho
        obtain ⟨-, -, rfl⟩ := ho
        simp at hfx

/-- **Step lemma.** -/
theorem sane_step (h : Sane n w) (op : ClusterOp) : Sane n (step w op) where
  net := by
    cases op with
    | kick i =>
      unfold step
      dsimp only
      split_ifs <;> exact h.net
    | env op => exact World.env_net_sent _ h.net op
  slot := fun i nd' hnd' => by
    obtain ⟨nd, hnd, hslot, -⟩ := node_step h op hnd'
    rw [hslot]
    exact h.slot i nd hnd
  requests := fun _ _ _ => requests_step h op
  recorder := recorder_step h op
  hedge := hedge_step h op
  arena := arena_step h op

/-! ## The cluster as it is built -/

omit [LinearOrder V] in
theorem build_fresh {cfg : NodeId → Option (ReplicaCfg V)} {i : NodeId} {p : Proposer V}
    (hp : (view (build n cfg)).props i = some p) :
    Arena.Fresh n i p ∧ p.slot = 0 ∧ ∃ c, cfg i = some c ∧ p.leader = c.leader ∧ p.proposal.value = c.initial := by
  obtain ⟨nd, hnd, rfl⟩ : ∃ nd, (build n cfg).nodes i = some nd ∧ nd.proposer = p := by
    simpa [view, arenaOf] using hp
  obtain ⟨c, hc, rfl⟩ : ∃ c, cfg i = some c ∧ ReplicaNode.new n i c = nd := by simpa [build] using hnd
  cases hh : c.hedge with
  | none => exact ⟨by constructor <;> simp [ReplicaNode.new, hh, Proposer.new], by simp [ReplicaNode.new, hh, Proposer.new],
      c, hc, by simp [ReplicaNode.new, hh, Proposer.new], by simp [ReplicaNode.new, hh, Proposer.new]⟩
  | some d => exact ⟨by constructor <;> simp [ReplicaNode.new, hh, Proposer.new, Proposer.withHedging],
      by simp [ReplicaNode.new, hh, Proposer.new, Proposer.withHedging],
      c, hc, by simp [ReplicaNode.new, hh, Proposer.new, Proposer.withHedging],
      by simp [ReplicaNode.new, hh, Proposer.new, Proposer.withHedging]⟩

theorem sane_build (cfg : NodeId → Option (ReplicaCfg V)) : Sane n (build n cfg) where
  net := fun e he => absurd he (by simp [build])
  slot := fun i nd hnd => by
    have hp : (view (build n cfg)).props i = some nd.proposer := by simp [view, arenaOf, hnd]
    exact (build_fresh hp).2.1
  requests := fun i j req he => absurd he (by simp [build])
  recorder := fun j nd hnd => by
    obtain ⟨c, hc, rfl⟩ : ∃ c, cfg j = some c ∧ ReplicaNode.new n j c = nd := by simpa [build] using hnd
    rfl
  hedge := fun t ht => absurd ht (by simp [build])
  arena := Arena.inv_init fun i p hp => (build_fresh hp).1

/-- **Run lemma.** -/
theorem sane_run (cfg : NodeId → Option (ReplicaCfg V)) (ops : List ClusterOp) : Sane n ((build n cfg).run ops) :=
  Runs.run_invariant (I := Sane n) (fun _ op hs _ => sane_step hs op) (sane_build cfg) (Runs.along_true _ _ ops)

end Concrete

end Queso
