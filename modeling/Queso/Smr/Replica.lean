/-
A replica of the replicated log: a recorder for each slot, the applied log with the state it makes, and at most one
attempt, always at the frontier slot.

The attempt proposes either a queued client operation or, after a restart, a probe that nobody submitted. When its slot
decides, the replica applies the decision and goes on: an operation that lost is proposed again at the next slot, and a
probe is followed by the next slot's until one of them wins. `Durable` survives a restart; the rest is dropped, except
for the watchdog's bookkeeping and the observed step, which the code leaves as they are.

A proposer's timers are told apart from the two that the replica handles itself: the kickoff after a submission and the
catch-up watchdog.
-/
import Queso.Consensus.Proposer
import Queso.Smr.Kv
import Queso.Smr.Tuning

namespace Queso

abbrev OpId := ℕ

abbrev SmrMsg := ConcreteMsg Command

/-- what a completed operation returned to its caller, the source's `Outcome` -/
inductive OpOutcome where
  | put
  | get (value : Option Value)
deriving DecidableEq, Repr

structure OpRecord where
  replica : NodeId
  command : Command
  invokedAt : ℕ
  completedAt : Option ℕ
  outcome : Option OpOutcome
  decidedSlot : Option ℕ
deriving DecidableEq

structure QueuedOp where
  opId : OpId
  command : Command
deriving DecidableEq

inductive AttemptOrigin where
  | op (id : OpId)
  | catchUp
deriving DecidableEq

structure CurrentAttempt where
  origin : AttemptOrigin
  command : Command
  slot : ℕ
  proposer : Proposer Command
  activatedCounted : Bool

structure NodeMetrics where
  decisions : ℕ
  roundsTotal : ℕ
  fastPathDecisions : ℕ
  proposerActivations : ℕ
deriving DecidableEq

def NodeMetrics.default : NodeMetrics := ⟨0, 0, 0, 0⟩

/-- what survives a crash -/
structure Durable where
  recorders : AList fun _ : ℕ => Recorder Command
  nextSlot : ℕ
  kv : Kv
  appliedLog : List Command
deriving DecidableEq

def Durable.default : Durable := ⟨∅, 0, Kv.new, []⟩

/-- the recorder of a slot, made when the slot is first touched -/
def Durable.recorder (d : Durable) (slot : ℕ) : Recorder Command := (d.recorders.lookup slot).getD Recorder.new

structure SmrNode where
  durable : Durable
  queue : List QueuedOp
  currentAttempt : Option CurrentAttempt
  /-- the slot and generation that the last armed watchdog watches -/
  watchdogArmedFor : Option (ℕ × ℕ)
  metrics : NodeMetrics
  watchdogGeneration : ℕ
  totalReplicas : ℕ
  /-- the co-located recorder's last observed step, at the slot of the attempt -/
  localStep : ℕ

/-- a submission, or the completion of an operation -/
inductive ClientEvent where
  | invoked (id : OpId) (command : Command)
  | completed (id : OpId) (command : Command) (slot : ℕ) (outcome : OpOutcome)
deriving DecidableEq

/-- what the replicas share. `history` lists submissions and completions in order; no step reads it. -/
structure Shared where
  results : AList fun _ : OpId => OpRecord
  nextOpId : ℕ
  policy : LeaderPolicy
  history : List ClientEvent

/-- `128 * RETRY_DELAY_TICKS` -/
def CATCH_UP_WATCHDOG_TICKS : ℕ := 128 * RETRY_DELAY_TICKS

abbrev SmrCtx := Ctx (NodeId → Draw)

abbrev SmrOutcome := Outcome SmrNode Shared SmrMsg

/-- count the activation of the attempt's proposer, once -/
def CurrentAttempt.noteActivation (a : CurrentAttempt) (m : NodeMetrics) : CurrentAttempt × NodeMetrics :=
  if a.activatedCounted = false ∧ a.proposer.activated then
    ({ a with activatedCounted := true }, { m with proposerActivations := m.proposerActivations + 1 })
  else (a, m)

/-- an operation decided at `slot`: its caller gets the outcome, if the operation is known -/
def Shared.complete (sh : Shared) (id : OpId) (now slot : ℕ) (outcome : OpOutcome) : Shared :=
  match sh.results.lookup id with
  | none => sh
  | some r =>
    { sh with
      results := sh.results.insert id
        { r with completedAt := some now, decidedSlot := some slot, outcome := some outcome }
      history := sh.history ++ [.completed id r.command slot outcome] }

/-- `Outcome` of a decided operation -/
def Command.outcome (c : Command) (applied : Applied) : OpOutcome :=
  match c with
  | .put _ _ _ _ => .put
  | .get _ _ _ => .get applied.getValue

/-- strictly after every completion so far -/
def Shared.nextInvokedAt (sh : Shared) (now : ℕ) : ℕ :=
  match (sh.results.entries.filterMap fun e => e.2.completedAt).max? with
  | some t => max now (t + 1)
  | none => now

namespace SmrNode

def new (totalReplicas : ℕ) : SmrNode where
  durable := .default
  queue := []
  currentAttempt := none
  watchdogArmedFor := none
  metrics := .default
  watchdogGeneration := 0
  totalReplicas := totalReplicas
  localStep := 0

def isCatchingUp (nd : SmrNode) : Bool :=
  match nd.currentAttempt with
  | some a => decide (a.origin = .catchUp)
  | none => false

/-- the proposer of an attempt at the frontier, hedged if the policy hedges -/
def proposerFor (nd : SmrNode) (self : NodeId) (command : Command) (leader : Option NodeId) (delay : Option ℕ) :
    Proposer Command :=
  match delay with
  | none => Proposer.new self nd.totalReplicas command leader nd.durable.nextSlot
  | some d => (Proposer.new self nd.totalReplicas command leader nd.durable.nextSlot).withHedging d

/-- the replica with `attempt` in flight -/
def withAttempt (nd : SmrNode) (attempt : CurrentAttempt) : SmrNode :=
  let (attempt, metrics) := attempt.noteActivation nd.metrics
  { nd with currentAttempt := some attempt, metrics := metrics }

/-- start a proposer at the frontier: what `begin_next_attempt` and `begin_catch_up` have in common -/
def startAttempt (ctx : SmrCtx) (nd : SmrNode) (sh : Shared) (origin : AttemptOrigin) (command : Command)
    (leader : Option NodeId) : SmrOutcome :=
  let slot := nd.durable.nextSlot
  match sh.policy.delayFor slot ctx.selfId with
  | .error e => .error e
  | .ok delay =>
    let (proposer, fx) := (nd.proposerFor ctx.selfId command leader delay).start ctx.rng
    .ok (nd.withAttempt ⟨origin, command, slot, proposer, false⟩,
      { sh with policy := sh.policy.noteAttemptStart slot ctx.now }, fx)

/-- an idle replica proposes the front of its queue -/
def beginNextAttempt (ctx : SmrCtx) (nd : SmrNode) (sh : Shared) : SmrOutcome :=
  if nd.currentAttempt.isSome then .ok (nd, sh, [])
  else match nd.queue with
    | [] => .ok (nd, sh, [])
    | op :: queue =>
      match sh.policy.leaderFor nd.durable.nextSlot with
      | .error e => .error e
      | .ok leader => startAttempt ctx { nd with queue := queue } sh (.op op.opId) op.command leader

/-- watch the catch-up attempt at `slot` -/
def armCatchUpWatchdog (nd : SmrNode) (slot : ℕ) : SmrNode × List (Effect SmrMsg) :=
  ({ nd with
      watchdogGeneration := nd.watchdogGeneration + 1
      watchdogArmedFor := some (slot, nd.watchdogGeneration + 1) },
    [.timer CATCH_UP_WATCHDOG_TICKS .catchUpWatchdog])

/-- an idle replica probes the frontier, never as the slot's leader -/
def beginCatchUp (ctx : SmrCtx) (nd : SmrNode) (sh : Shared) : SmrOutcome :=
  if nd.currentAttempt.isSome then .ok (nd, sh, [])
  else
    let slot := nd.durable.nextSlot
    match startAttempt ctx nd sh .catchUp (catchUpProbe slot) none with
    | .error e => .error e
    | .ok (nd, sh, fx) =>
      let (nd, armed) := nd.armCatchUpWatchdog slot
      .ok (nd, sh, fx ++ armed)

/-- the attempt in flight is a catch-up attempt at `slot` -/
def stalledAt (nd : SmrNode) (slot : ℕ) : Bool :=
  match nd.currentAttempt with
  | some a => decide (a.slot = slot) && decide (a.origin = .catchUp)
  | none => false

/-- the watchdog fired: unless it is superseded, replace a catch-up attempt it still watches by a fresh one -/
def onCatchUpWatchdog (ctx : SmrCtx) (nd : SmrNode) (sh : Shared) : SmrOutcome :=
  match nd.watchdogArmedFor with
  | none => .ok (nd, sh, [])
  | some (watchedSlot, watchedGeneration) =>
    if watchedGeneration ≠ nd.watchdogGeneration then .ok (nd, sh, [])
    else if nd.stalledAt watchedSlot = false then .ok (nd, sh, [])
    else beginCatchUp ctx { nd with currentAttempt := none } sh

/-- the replica after it applied the decision of its attempt -/
def applied (nd : SmrNode) (attempt : CurrentAttempt) (decided : Command) : SmrNode :=
  { nd with
    currentAttempt := none
    metrics :=
      { nd.metrics with
        decisions := nd.metrics.decisions + 1
        roundsTotal := nd.metrics.roundsTotal + attempt.proposer.step / 4
        fastPathDecisions := nd.metrics.fastPathDecisions + if attempt.proposer.decidedViaFastPath then 1 else 0 }
    durable :=
      { nd.durable with
        kv := (nd.durable.kv.apply decided).1
        appliedLog := nd.durable.appliedLog ++ [decided]
        nextSlot := nd.durable.nextSlot + 1 } }

/-- the attempt's slot decided `decided`: apply it, then go on with what the attempt was for -/
def finishAttempt (ctx : SmrCtx) (nd : SmrNode) (sh : Shared) (decided : Command) : SmrOutcome :=
  match nd.currentAttempt with
  | none => .error .noAttempt
  | some attempt =>
    if attempt.slot ≠ nd.durable.nextSlot then .error .offFrontier
    else
      match sh.policy.noteSlotDecided attempt.slot ctx.now with
      | .error e => .error e
      | .ok policy =>
        let outcome := decided.outcome (nd.durable.kv.apply decided).2
        let nd := nd.applied attempt decided
        let sh := { sh with policy := policy }
        match attempt.origin with
        | .op id =>
          if decided = attempt.command then
            beginNextAttempt ctx nd (sh.complete id ctx.now attempt.slot outcome)
          else
            beginNextAttempt ctx { nd with queue := ⟨id, attempt.command⟩ :: nd.queue } sh
        | .catchUp =>
          if decided = attempt.command then beginNextAttempt ctx nd sh else beginCatchUp ctx nd sh

/-- take over a call on the attempt's proposer, and finish the attempt if `finish` and it decided -/
def driveAttempt (nd : SmrNode) (attempt : CurrentAttempt) : Called Command →
    Except Panic (SmrNode × Option Command × List (Effect SmrMsg))
  | .error e => .error e
  | .ok (p, fx) => .ok (nd.withAttempt { attempt with proposer := p }, p.decided, fx)

/-- the recorder's side: serve the slot that the request names -/
def onRequest (src : NodeId) (req : RecordRequest Command) (nd : SmrNode) (sh : Shared) : SmrOutcome :=
  let (recorder, resp) := (nd.durable.recorder req.slot).handle req
  .ok ({ nd with
        durable := { nd.durable with recorders := nd.durable.recorders.insert req.slot recorder }
        localStep := if nd.currentAttempt.any fun a => a.slot == req.slot then resp.step else nd.localStep },
      sh, [.send src (.response resp)])

/-- the proposer's side: a reply for the slot of the attempt -/
def onReply (ctx : SmrCtx) (src : NodeId) (resp : RecordResponse Command) (nd : SmrNode) (sh : Shared) : SmrOutcome :=
  match nd.currentAttempt with
  | none => .ok (nd, sh, [])
  | some attempt =>
    if attempt.slot ≠ resp.slot then .ok (nd, sh, [])
    else
      match nd.driveAttempt attempt (attempt.proposer.onResponse src resp ctx.rng) with
      | .error e => .error e
      | .ok (nd, none, fx) => .ok (nd, sh, fx)
      | .ok (nd, some decided, fx) =>
        match finishAttempt ctx nd sh decided with
        | .error e => .error e
        | .ok (nd, sh, more) => .ok (nd, sh, fx ++ more)

def onMessage (ctx : SmrCtx) (src : NodeId) (payload : SmrMsg) (nd : SmrNode) (sh : Shared) : SmrOutcome :=
  match payload with
  | .request req => onRequest src req nd sh
  | .response resp => onReply ctx src resp nd sh

def onTimer (ctx : SmrCtx) (id : TimerId) (nd : SmrNode) (sh : Shared) : SmrOutcome :=
  if id = .kickoff then beginNextAttempt ctx nd sh
  else if id = .catchUpWatchdog then onCatchUpWatchdog ctx nd sh
  else
    match nd.currentAttempt with
    | none => .ok (nd, sh, [])
    | some attempt =>
      match nd.driveAttempt attempt (attempt.proposer.onTimer id nd.localStep ctx.rng) with
      | .error e => .error e
      | .ok (nd, _, fx) => .ok (nd, sh, fx)

/-- drop what a crash loses and rejoin as a learner -/
def onRestart (ctx : SmrCtx) (nd : SmrNode) (sh : Shared) : SmrOutcome :=
  beginCatchUp ctx { nd with queue := [], currentAttempt := none, metrics := .default } sh

def behaviour : Behaviour SmrNode Shared SmrMsg (NodeId → Draw) where
  onMessage := onMessage
  onTimer := onTimer
  onRestart := onRestart

/-- take a client's operation in, and whether the replica must be kicked -/
def enqueue (nd : SmrNode) (id : OpId) (command : Command) : SmrNode × Bool :=
  ({ nd with queue := nd.queue ++ [⟨id, command⟩] }, decide ((nd.queue ++ [(⟨id, command⟩ : QueuedOp)]).length = 1))

end SmrNode

/-- a new operation is pending -/
def Shared.invoke (sh : Shared) (id : OpId) (replica : NodeId) (command : Command) (now : ℕ) : Shared :=
  { sh with
    results := sh.results.insert id ⟨replica, command, sh.nextInvokedAt now, none, none, none⟩
    history := sh.history ++ [.invoked id command] }

end Queso
