/-
What a step of the single-slot cluster does, with the timers.

`ReplicaNode.Took` is all that a callback of a replica can do, and `step_turns` all that a step of the cluster can do. The
results about pending timers and about what a retry resends are proved from them.
-/
import Queso.Sim.Callback
import Queso.Consensus.Refine

namespace Queso

variable {V : Type} [LinearOrder V]

namespace ReplicaNode

/-- all that one callback does to a replica -/
inductive Took (ctx : Ctx (NodeId → Draw)) (nd : ReplicaNode V) :
    Stimulus (ConcreteMsg V) → ReplicaNode V → List (Effect (ConcreteMsg V)) → Prop where
  | records {src req} :
      Took ctx nd (.message src (.request req))
        { nd with recorder := (nd.recorder.handle req).1, localStep := (nd.recorder.handle req).2.step }
        [.send src (.response (nd.recorder.handle req).2)]
  | reply {src resp p fx} (h : nd.proposer.onResponse src resp ctx.rng = .ok (p, fx)) :
      Took ctx nd (.message src (.response resp)) { nd with proposer := p } fx
  | timer {id p fx} (h : nd.proposer.onTimer id nd.localStep ctx.rng = .ok (p, fx)) :
      Took ctx nd (.timer id) { nd with proposer := p } fx
  | restart : Took ctx nd .restart nd []

theorem respond_took {ctx : Ctx (NodeId → Draw)} {x : Stimulus (ConcreteMsg V)} {nd nd' : ReplicaNode V} {g : Unit}
    {fx : List (Effect (ConcreteMsg V))} (h : behaviour.respond ctx x nd () = .ok (nd', g, fx)) : Took ctx nd x nd' fx := by
  cases x with
  | message src payload =>
    cases payload with
    | request req =>
      have hread : behaviour.respond ctx (.message src (.request req)) nd () =
          .ok ({ nd with recorder := (nd.recorder.handle req).1, localStep := (nd.recorder.handle req).2.step }, (),
            [.send src (.response (nd.recorder.handle req).2)]) := rfl
      rw [hread] at h
      simp only [Except.ok.injEq, Prod.mk.injEq] at h
      obtain ⟨rfl, -, rfl⟩ := h
      exact .records
    | response resp =>
      obtain ⟨p, hc, rfl⟩ := withProposer_ok (c := nd.proposer.onResponse src resp ctx.rng) h
      exact .reply hc
  | timer id =>
    obtain ⟨p, hc, rfl⟩ := withProposer_ok (c := nd.proposer.onTimer id nd.localStep ctx.rng) h
    exact .timer hc
  | restart =>
    have hread : behaviour.respond ctx .restart nd () = .ok (nd, (), []) := rfl
    rw [hread] at h
    simp only [Except.ok.injEq, Prod.mk.injEq] at h
    obtain ⟨rfl, -, rfl⟩ := h
    exact .restart

/-- only a call on the proposer can panic -/
theorem respond_error {ctx : Ctx (NodeId → Draw)} {x : Stimulus (ConcreteMsg V)} {nd : ReplicaNode V} {e : Panic}
    (h : behaviour.respond ctx x nd () = .error e) :
    (∃ src resp, x = .message src (.response resp) ∧ nd.proposer.onResponse src resp ctx.rng = .error e) ∨
      ∃ id, nd.proposer.onTimer id nd.localStep ctx.rng = .error e := by
  have herr : ∀ c : Called V, nd.withProposer c = .error e → c = .error e := by
    intro c hc
    cases c with
    | error e' => exact congrArg Except.error (Except.error.inj hc)
    | ok r => exact absurd hc (by simp [withProposer])
  cases x with
  | message src payload =>
    cases payload with
    | request req => exact absurd h (by simp [Behaviour.respond, behaviour, onMessage])
    | response resp => exact .inl ⟨src, resp, rfl, herr _ h⟩
  | timer id => exact .inr ⟨id, herr _ h⟩
  | restart => exact absurd h (by simp [Behaviour.respond, behaviour])

end ReplicaNode

namespace Concrete

variable {w : Concrete V} {op : ClusterOp}

/-- **All a step can do** that does not panic -/
theorem step_turns (hok : (step w op).panicked = none) :
    (∃ eop, op = .env eop ∧ World.Quiet w eop (step w op)) ∨
    (∃ i, op = .kick i ∧ (step w op = w ∨ step w op = w.injectTimer i 0 .kickoff)) ∨
    ∃ eop i x rng left nd nd' fx, op = .env eop ∧ World.Arises w eop i x rng left ∧
      World.Callback ReplicaNode.behaviour w i x rng left nd nd' fx (step w op) ∧
      ReplicaNode.Took ⟨i, w.now, rng⟩ nd x nd' fx := by
  cases op with
  | kick i =>
    refine .inr (.inl ⟨i, rfl, ?_⟩)
    unfold step
    dsimp only
    split_ifs
    · exact .inl rfl
    · exact .inr rfl
  | env op =>
    have hok' : (w.env ReplicaNode.behaviour op).panicked = none := hok
    rcases World.env_callback ReplicaNode.behaviour hok' with hquiet |
      ⟨i, x, rng, left, nd, nd', fx, harises, hcb⟩
    · exact .inl ⟨op, rfl, hquiet⟩
    · exact .inr (.inr ⟨op, i, x, rng, left, nd, nd', fx, rfl, harises, hcb, ReplicaNode.respond_took hcb.outcome⟩)

/-- the node a step's callback leaves at `j` -/
theorem callback_node {i j : NodeId} {x : Stimulus (ConcreteMsg V)} {rng : NodeId → Draw} {left : List PendingTimer}
    {nd nd' nd₁ : ReplicaNode V} {fx : List (Effect (ConcreteMsg V))} {w' : Concrete V}
    (h : World.Callback ReplicaNode.behaviour w i x rng left nd nd' fx w') (hj : w'.nodes j = some nd₁) :
    j = i ∧ nd₁ = nd' ∨ j ≠ i ∧ w.nodes j = some nd₁ := by
  rw [h.nodes] at hj
  by_cases hji : j = i
  · subst hji
    exact .inl ⟨rfl, by simpa using hj.symm⟩
  · exact .inr ⟨hji, by simpa [hji] using hj⟩

/-- **Where a panic comes from**: a call on some replica's proposer -/
theorem step_panicked {e : Panic} (hp : w.panicked = none) (h : (step w op).panicked = some e) :
    ∃ i nd rng, w.nodes i = some nd ∧
      ((∃ src resp, ⟨src, i, .response resp⟩ ∈ w.net ∧ nd.proposer.onResponse src resp rng = .error e) ∨
        ∃ id, nd.proposer.onTimer id nd.localStep rng = .error e) := by
  cases op with
  | kick i =>
    unfold step at h
    dsimp only at h
    split_ifs at h
    · rw [hp] at h; exact absurd h (by simp)
    · exact absurd (hp.symm.trans h) (by simp)
  | env op =>
    have hpanic : (w.env ReplicaNode.behaviour op).panicked = some e := h
    rcases World.env_event ReplicaNode.behaviour w op with hquiet |
      ⟨-, i, x, rng, left, nd, harises, hnd, ⟨e', he'⟩ | ⟨nd', fx, hcb⟩⟩
    · rw [hquiet.panicked, hp] at hpanic
      exact absurd hpanic (by simp)
    · obtain rfl : e' = e := Option.some.inj (he'.panicked.symm.trans hpanic)
      rcases ReplicaNode.respond_error he'.outcome with ⟨src, resp, rfl, hc⟩ | ⟨id, hc⟩
      · cases harises with
        | message hk hup => exact ⟨i, nd, rng, hnd, .inl ⟨src, resp, List.mem_of_getElem? hk, hc⟩⟩
      · exact ⟨i, nd, rng, hnd, .inr ⟨id, hc⟩⟩
    · rw [hcb.panicked] at hpanic
      exact absurd hpanic (by simp)

end Concrete

end Queso
