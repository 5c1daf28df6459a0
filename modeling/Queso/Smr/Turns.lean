/-
What a step of the replicated log does, with the timers.

`Launches` is an attempt started at the frontier with everything it arms, `Course` all that a callback of a replica can
do, and `step_turns` all that a step of the cluster can do. They say more than the moves that the safety results rest on:
each result is given as the code computes it, with its effects in order. The results about pending timers, about the
counters and about when an attempt acts are proved from them.
-/
import Queso.Sim.Callback
import Queso.Smr.Refine

namespace Queso

namespace SmrNode

/-- an idle replica starts an attempt at its frontier: the front of its queue, or a probe that is watched -/
inductive Launches (ctx : SmrCtx) (nd : SmrNode) (sh : Shared) : SmrNode → Shared → List (Effect SmrMsg) → Prop where
  | op {o queue leader delay} (hq : nd.queue = o :: queue) (hl : sh.policy.leaderFor nd.durable.nextSlot = .ok leader)
      (hd : sh.policy.delayFor nd.durable.nextSlot ctx.selfId = .ok delay) :
      Launches ctx nd sh (launch ctx { nd with queue := queue } (.op o.opId) o.command leader delay).1
        { sh with policy := sh.policy.noteAttemptStart nd.durable.nextSlot ctx.now }
        (launch ctx { nd with queue := queue } (.op o.opId) o.command leader delay).2
  | probe {delay} (hd : sh.policy.delayFor nd.durable.nextSlot ctx.selfId = .ok delay) :
      Launches ctx nd sh
        ((launch ctx nd .catchUp (catchUpProbe nd.durable.nextSlot) none delay).1.armCatchUpWatchdog
          nd.durable.nextSlot).1
        { sh with policy := sh.policy.noteAttemptStart nd.durable.nextSlot ctx.now }
        ((launch ctx nd .catchUp (catchUpProbe nd.durable.nextSlot) none delay).2 ++
          [.timer CATCH_UP_WATCHDOG_TICKS .catchUpWatchdog])

/-- the attempt's proposer takes a reply for its slot, or a timer that is not the replica's own -/
inductive Calls (ctx : SmrCtx) (nd : SmrNode) (attempt : CurrentAttempt) :
    Stimulus SmrMsg → Proposer Command → List (Effect SmrMsg) → Prop where
  | reply {src resp p fx} (hslot : attempt.slot = resp.slot)
      (h : attempt.proposer.onResponse src resp ctx.rng = .ok (p, fx)) (hd : p.decided = none) :
      Calls ctx nd attempt (.message src (.response resp)) p fx
  | timer {id p fx} (hk : id ≠ .kickoff) (hw : id ≠ .catchUpWatchdog)
      (h : attempt.proposer.onTimer id nd.localStep ctx.rng = .ok (p, fx)) : Calls ctx nd attempt (.timer id) p fx

/-- all that a callback does -/
inductive Course (ctx : SmrCtx) (nd : SmrNode) (sh : Shared) :
    Stimulus SmrMsg → SmrNode → Shared → List (Effect SmrMsg) → Prop where
  | serves {src req} :
      Course ctx nd sh (.message src (.request req))
        { nd with
          durable :=
            { nd.durable with
              recorders := nd.durable.recorders.insert req.slot ((nd.durable.recorder req.slot).handle req).1 }
          localStep :=
            if nd.currentAttempt.any fun a => a.slot == req.slot then ((nd.durable.recorder req.slot).handle req).2.step
            else nd.localStep }
        sh [.send src (.response ((nd.durable.recorder req.slot).handle req).2)]
  | ignores {x} (hreq : ∀ src req, x ≠ .message src (.request req)) (hrestart : x ≠ .restart)
      (htimer : ∀ id a, x = .timer id → nd.currentAttempt = some a → id = .kickoff ∨ id = .catchUpWatchdog) :
      Course ctx nd sh x nd sh []
  | drives {x attempt p fx} (ha : nd.currentAttempt = some attempt) (hc : Calls ctx nd attempt x p fx) :
      Course ctx nd sh x (nd.withAttempt { attempt with proposer := p }) sh fx
  | begins {nd' sh' fx} (hidle : nd.currentAttempt = none) (h : Launches ctx nd sh nd' sh' fx)
      (hop : nd'.isCatchingUp = false) : Course ctx nd sh (.timer .kickoff) nd' sh' fx
  | reissues {attempt generation nd' sh' fx} (ha : nd.currentAttempt = some attempt) (ho : attempt.origin = .catchUp)
      (hw : nd.watchdogArmedFor = some (attempt.slot, generation)) (hg : generation = nd.watchdogGeneration)
      (h : Launches ctx { nd with currentAttempt := none } sh nd' sh' fx) (hcu : nd'.isCatchingUp = true) :
      Course ctx nd sh (.timer .catchUpWatchdog) nd' sh' fx
  | rejoins {nd' sh' fx}
      (h : Launches ctx { nd with queue := [], currentAttempt := none, metrics := .default } sh nd' sh' fx)
      (hcu : nd'.isCatchingUp = true) : Course ctx nd sh .restart nd' sh' fx
  /-- the attempt decides: it is applied, and the replica rests or goes on with another attempt -/
  | finishes {src resp attempt p fx₁ decided queue sh₂ nd' sh' fx₂} (ha : nd.currentAttempt = some attempt)
      (hslot : attempt.slot = resp.slot) (hfront : attempt.slot = nd.durable.nextSlot)
      (h : attempt.proposer.onResponse src resp ctx.rng = .ok (p, fx₁)) (hd : p.decided = some decided)
      (hnext : (nd' = { (nd.withAttempt { attempt with proposer := p }).applied { attempt with proposer := p } decided with
            queue := queue } ∧ fx₂ = []) ∨
        Launches ctx { (nd.withAttempt { attempt with proposer := p }).applied { attempt with proposer := p } decided with
            queue := queue } sh₂ nd' sh' fx₂) :
      Course ctx nd sh (.message src (.response resp)) nd' sh' (fx₁ ++ fx₂)

variable {ctx : SmrCtx} {nd nd' : SmrNode} {sh sh' : Shared} {fx : List (Effect SmrMsg)}

theorem launch_drives (ctx : SmrCtx) (nd : SmrNode) (origin : AttemptOrigin) (command : Command)
    (leader : Option NodeId) (delay : Option ℕ) :
    (launch ctx nd origin command leader delay).1.Drives origin command nd.durable.nextSlot
      ((nd.proposerFor ctx.selfId command leader delay).start ctx.rng).1 :=
  withAttempt_drives _ _

theorem Drives.isCatchingUp {origin : AttemptOrigin} {command : Command} {slot : ℕ} {p : Proposer Command}
    (h : nd.Drives origin command slot p) : nd.isCatchingUp = decide (origin = .catchUp) := by
  obtain ⟨b, hb⟩ := h
  unfold SmrNode.isCatchingUp
  rw [hb]

theorem launch_op_isCatchingUp (ctx : SmrCtx) (nd : SmrNode) (id : OpId) (command : Command) (leader : Option NodeId)
    (delay : Option ℕ) : (launch ctx nd (.op id) command leader delay).1.isCatchingUp = false := by
  rw [(launch_drives ctx nd (.op id) command leader delay).isCatchingUp]
  simp

theorem launch_probe_isCatchingUp (ctx : SmrCtx) (nd : SmrNode) (delay : Option ℕ) (slot : ℕ) :
    ((launch ctx nd .catchUp (catchUpProbe nd.durable.nextSlot) none delay).1.armCatchUpWatchdog slot).1.isCatchingUp =
      true := by
  obtain ⟨b, hb⟩ := launch_drives ctx nd .catchUp (catchUpProbe nd.durable.nextSlot) none delay
  unfold isCatchingUp armCatchUpWatchdog
  dsimp only
  rw [hb]
  simp

theorem beginNextAttempt_launches (h : beginNextAttempt ctx nd sh = .ok (nd', sh', fx)) :
    nd' = nd ∧ sh' = sh ∧ fx = [] ∨
      nd.currentAttempt = none ∧ Launches ctx nd sh nd' sh' fx ∧ nd'.isCatchingUp = false := by
  rcases beginNextAttempt_ok h with ⟨rfl, rfl, rfl, -⟩ | ⟨o, queue, leader, hnone, hq, hl, hs⟩
  · exact .inl ⟨rfl, rfl, rfl⟩
  · obtain ⟨delay, hd, rfl, rfl, rfl⟩ := startAttempt_launch hs
    exact .inr ⟨hnone, .op hq hl hd, launch_op_isCatchingUp _ _ _ _ _ _⟩

theorem beginCatchUp_launches (hidle : nd.currentAttempt = none) (h : beginCatchUp ctx nd sh = .ok (nd', sh', fx)) :
    Launches ctx nd sh nd' sh' fx ∧ nd'.isCatchingUp = true := by
  obtain ⟨nd₁, fx₁, hs, rfl, rfl⟩ := beginCatchUp_ok hidle h
  obtain ⟨delay, hd, rfl, rfl, rfl⟩ := startAttempt_launch hs
  exact ⟨.probe hd, launch_probe_isCatchingUp _ _ _ _⟩

theorem finishAttempt_course {attempt : CurrentAttempt} {decided : Command} (ha : nd.currentAttempt = some attempt)
    (h : finishAttempt ctx nd sh decided = .ok (nd', sh', fx)) :
    attempt.slot = nd.durable.nextSlot ∧ ∃ queue sh₂,
      (nd' = { nd.applied attempt decided with queue := queue } ∧ fx = []) ∨
        Launches ctx { nd.applied attempt decided with queue := queue } sh₂ nd' sh' fx := by
  have hresume : ∀ queue sh₂, beginNextAttempt ctx { nd.applied attempt decided with queue := queue } sh₂ =
      .ok (nd', sh', fx) → (nd' = { nd.applied attempt decided with queue := queue } ∧ fx = []) ∨
        Launches ctx { nd.applied attempt decided with queue := queue } sh₂ nd' sh' fx := by
    intro queue sh₂ hb
    rcases beginNextAttempt_launches hb with ⟨rfl, -, rfl⟩ | ⟨-, hl, -⟩
    · exact .inl ⟨rfl, rfl⟩
    · exact .inr hl
  obtain ⟨attempt', policy, ha', hf, -, hnext⟩ := finishAttempt_ok h
  obtain rfl := Option.some.inj (ha.symm.trans ha')
  refine ⟨hf, ?_⟩
  rcases hnext with ⟨id, -, -, hb⟩ | ⟨id, -, -, hb⟩ | ⟨-, -, hb⟩ | ⟨-, -, hb⟩
  · exact ⟨nd.queue, _, hresume nd.queue _ hb⟩
  · exact ⟨⟨id, attempt.command⟩ :: nd.queue, _, hresume _ _ hb⟩
  · exact ⟨nd.queue, _, hresume nd.queue _ hb⟩
  · exact ⟨nd.queue, _, .inr (beginCatchUp_launches rfl hb).1⟩

theorem onReply_course {src : NodeId} {resp : RecordResponse Command}
    (h : onReply ctx src resp nd sh = .ok (nd', sh', fx)) :
    Course ctx nd sh (.message src (.response resp)) nd' sh' fx := by
  rcases onReply_ok h with ⟨rfl, rfl, rfl⟩ | ⟨attempt, p, fx₁, ha, hslot, hr, hnext⟩
  · exact .ignores (by simp) (by simp) (by simp)
  · rcases hnext with ⟨hd, rfl, rfl, rfl⟩ | ⟨decided, fx₂, hd, hfin, rfl⟩
    · exact .drives ha (.reply hslot hr hd)
    · obtain ⟨b, hb⟩ := withAttempt_drives nd { attempt with proposer := p }
      obtain ⟨hfront, queue, sh₂, hnext⟩ := finishAttempt_course hb hfin
      exact .finishes ha hslot hfront hr hd hnext

theorem onTimer_course {id : TimerId} (h : onTimer ctx id nd sh = .ok (nd', sh', fx)) :
    Course ctx nd sh (.timer id) nd' sh' fx := by
  have hignored (ht : ∀ a, nd.currentAttempt = some a → id = .kickoff ∨ id = .catchUpWatchdog) :
      Course ctx nd sh (.timer id) nd sh [] := by
    refine .ignores (by simp) (by simp) fun id' a heq ha => ?_
    obtain rfl : id = id' := by simpa using heq
    exact ht a ha
  rcases onTimer_ok h with ⟨rfl, rfl, rfl, -, hidle⟩ | ⟨rfl, hb⟩ | ⟨attempt, generation, rfl, ha, ho, hw, hg, hb⟩ |
    ⟨attempt, p, hk, hw, ha, hr, rfl, rfl⟩
  · refine hignored fun a ha => .inr ?_
    by_contra hw
    rw [hidle hw] at ha
    cases ha
  · rcases beginNextAttempt_launches hb with ⟨rfl, rfl, rfl⟩ | ⟨hidle, hl, hop⟩
    · exact hignored fun _ _ => .inl rfl
    · exact .begins hidle hl hop
  · obtain ⟨hl, hcu⟩ := beginCatchUp_launches rfl hb
    exact .reissues ha ho hw hg hl hcu
  · exact .drives ha (.timer hk hw hr)

/-- the attempt that a launch puts in flight, and the effects of its proposer's start -/
theorem Launches.attempt (h : Launches ctx nd sh nd' sh' fx) :
    ∃ origin command leader delay counted more,
      nd'.currentAttempt = some ⟨origin, command, nd.durable.nextSlot,
        ((nd.proposerFor ctx.selfId command leader delay).start ctx.rng).1, counted⟩ ∧
      fx = ((nd.proposerFor ctx.selfId command leader delay).start ctx.rng).2 ++ more ∧
      (origin = .catchUp ∧ more = [.timer CATCH_UP_WATCHDOG_TICKS .catchUpWatchdog] ∨
        origin ≠ .catchUp ∧ more = []) := by
  cases h with
  | @op o queue leader delay hq hl hd =>
    obtain ⟨b, hb⟩ := launch_drives ctx { nd with queue := queue } (.op o.opId) o.command leader delay
    exact ⟨_, o.command, leader, delay, b, [], hb, (List.append_nil _).symm, .inr ⟨by simp, rfl⟩⟩
  | @probe delay hd =>
    obtain ⟨b, hb⟩ := launch_drives ctx nd .catchUp (catchUpProbe nd.durable.nextSlot) none delay
    exact ⟨_, _, none, delay, b, _, hb, rfl, .inl ⟨rfl, rfl⟩⟩

/-- **All a callback can do** -/
theorem respond_course {x : Stimulus SmrMsg} (h : behaviour.respond ctx x nd sh = .ok (nd', sh', fx)) :
    Course ctx nd sh x nd' sh' fx := by
  cases x with
  | message src payload =>
    cases payload with
    | request req =>
      have hcall : onRequest src req nd sh = .ok (nd', sh', fx) := h
      simp only [onRequest, Except.ok.injEq, Prod.mk.injEq] at hcall
      obtain ⟨rfl, rfl, rfl⟩ := hcall
      exact .serves
    | response resp => exact onReply_course h
  | timer id => exact onTimer_course h
  | restart =>
    obtain ⟨hl, hcu⟩ := beginCatchUp_launches rfl (show beginCatchUp ctx
      { nd with queue := [], currentAttempt := none, metrics := .default } sh = .ok (nd', sh', fx) from h)
    exact .rejoins hl hcu

end SmrNode

namespace Smr

variable {w : Smr} {op : SmrOp}

/-- a submission that does not panic: an operation is queued, and an idle queue is kicked -/
structure Queued (w : Smr) (i : NodeId) (c : Command) (nd : SmrNode) (w' : Smr) : Prop where
  client : c.client ≠ CATCH_UP_CLIENT
  node : w.nodes i = some nd
  nodes : w'.nodes = Function.update w.nodes i (some { nd with queue := nd.queue ++ [⟨w.shared.nextOpId, c⟩] })
  policy : w'.shared.policy = w.shared.policy
  crashed : w'.crashed = w.crashed
  now : w'.now = w.now
  timers : ∃ kicks, w'.timers = w.timers ++ kicks ∧ ∀ t ∈ kicks, t.id = .kickoff
  sent : sentOf w'.trace = sentOf w.trace
  panicked : w'.panicked = w.panicked

theorem submit_queued {i : NodeId} {c : Command} (hok : (step w (.submit i c)).panicked = none) :
    ∃ nd, Queued w i c nd (step w (.submit i c)) := by
  unfold step at hok ⊢
  dsimp only at hok ⊢
  split_ifs at hok ⊢ with hp
  · rw [hok] at hp; exact absurd hp (by simp)
  · unfold submit at hok ⊢
    split_ifs at hok ⊢ with hc
    cases hn : w.nodes i with
    | none => simp only [hn] at hok; exact absurd hok (by simp)
    | some nd =>
      refine ⟨nd, ?_⟩
      dsimp only
      split_ifs
      · exact
          { client := hc, node := hn, nodes := rfl, policy := rfl, crashed := rfl, now := rfl, sent := rfl
            panicked := rfl
            timers := ⟨_, rfl, fun t ht => by rw [List.mem_singleton.1 ht]⟩ }
      · exact
          { client := hc, node := hn, nodes := rfl, policy := rfl, crashed := rfl, now := rfl, sent := rfl
            panicked := rfl
            timers := ⟨[], by simp, fun t ht => absurd ht (by simp)⟩ }

/-- **All a step can do** that does not panic -/
theorem step_turns (hok : (step w op).panicked = none) :
    (∃ eop, op = .env eop ∧ World.Quiet w eop (step w op)) ∨
    (∃ i c nd, op = .submit i c ∧ Queued w i c nd (step w op)) ∨
    ∃ eop i x rng left nd nd' fx, op = .env eop ∧ World.Arises w eop i x rng left ∧
      World.Callback SmrNode.behaviour w i x rng left nd nd' fx (step w op) ∧
      SmrNode.Course ⟨i, w.now, rng⟩ nd w.shared x nd' (step w op).shared fx := by
  cases op with
  | submit i c =>
    obtain ⟨nd, hq⟩ := submit_queued hok
    exact .inr (.inl ⟨i, c, nd, rfl, hq⟩)
  | env op =>
    have hok' : (w.env SmrNode.behaviour op).panicked = none := hok
    rcases World.env_callback SmrNode.behaviour hok' with hquiet |
      ⟨i, x, rng, left, nd, nd', fx, harises, hcb⟩
    · exact .inl ⟨op, rfl, hquiet⟩
    · exact .inr (.inr ⟨op, i, x, rng, left, nd, nd', fx, rfl, harises, hcb, SmrNode.respond_course hcb.outcome⟩)

/-- the replica a step's callback leaves at `j` -/
theorem callback_node {i j : NodeId} {x : Stimulus SmrMsg} {rng : NodeId → Draw} {left : List PendingTimer}
    {nd nd' nd₁ : SmrNode} {fx : List (Effect SmrMsg)} {w' : Smr}
    (h : World.Callback SmrNode.behaviour w i x rng left nd nd' fx w') (hj : w'.nodes j = some nd₁) :
    j = i ∧ nd₁ = nd' ∨ j ≠ i ∧ w.nodes j = some nd₁ := by
  rw [h.nodes] at hj
  by_cases hji : j = i
  · subst hji
    exact .inl ⟨rfl, by simpa using hj.symm⟩
  · exact .inr ⟨hji, by simpa [hji] using hj⟩

end Smr

end Queso
