/-
The wire messages, the passive recorder and the active proposer of one slot.

A proposer runs the threshold clock `s = 4 * round + phase`: it sends `record(s, p)` to every recorder, waits for a
quorum of replies to that step and then either processes the phase (all replies at its step) or catches up to the
furthest reply. Phase 0 proposes under fresh priorities, phase 1 spreads, phase 2 detects consensus and phase 3 gathers
the candidate of the next round. The leader of the slot tags its first proposal with `H`, and a quorum whose first
values are all one `H` proposal decides at once.

`start` arms the first step, or the hedge timer. Called again on an undecided proposer it restarts round 1.

`localStep` is the content of the cell that the co-located recorder keeps up to date, read only when the proposer was
built with hedging.
-/
import Queso.Consensus.Isr
import Mathlib.Data.List.AList
import Mathlib.Data.List.MinMax

namespace Queso

variable {V : Type}

/-! ## The wire -/

structure RecordRequest (V : Type) where
  slot : ℕ
  reqStep : ℕ
  proposal : Proposal V
deriving DecidableEq, Repr

/-- the recorder's summary, with the slot and step of the request it answers -/
structure RecordResponse (V : Type) where
  slot : ℕ
  reqStep : ℕ
  step : ℕ
  first : Option (Proposal V)
  priorAgg : Option (Proposal V)
deriving DecidableEq, Repr

inductive ConcreteMsg (V : Type) where
  | request (req : RecordRequest V)
  | response (resp : RecordResponse V)
deriving DecidableEq, Repr

/-! ## The recorder -/

structure Recorder (V : Type) where
  isr : Isr V
deriving DecidableEq, Repr

def Recorder.new : Recorder V := ⟨Isr.new⟩

def Recorder.handle [LinearOrder V] (r : Recorder V) (req : RecordRequest V) : Recorder V × RecordResponse V :=
  let (isr, summary) := r.isr.record req.reqStep req.proposal
  (⟨isr⟩, ⟨req.slot, req.reqStep, summary.step, summary.first, summary.priorAgg⟩)

/-! ## The proposer -/

/-- round 1, phase 0: the only step at which a leader attaches `H` -/
def FIRST_ROUND_STEP : ℕ := 4

def RETRY_DELAY_TICKS : ℕ := 20

def RETRY_BACKOFF_MAX_SHIFT : ℕ := 6

def HEDGE_RECHECK_TICKS : ℕ := RETRY_DELAY_TICKS

/-- the spacing before the `retries`-th retry: doubled up to the cap, then constant -/
def retryBackoffDelay (retries : ℕ) : ℕ := RETRY_DELAY_TICKS * 2 ^ min retries RETRY_BACKOFF_MAX_SHIFT

/-- a map from recorders, as `BTreeMap<NodeId, _>` -/
abbrev ByRecorder (α : Type) := AList fun _ : NodeId => α

structure Proposer (V : Type) where
  selfId : NodeId
  slot : ℕ
  totalReplicas : ℕ
  leader : Option NodeId
  step : ℕ
  proposal : Proposal V
  decided : Option V
  responses : ByRecorder (RecordResponse V)
  sent : ByRecorder (Proposal V)
  retriesThisStep : ℕ
  activationDelay : ℕ
  /-- whether the co-located recorder's step is wired up -/
  localRecorderStep : Bool
  lastSeenProgress : Option ℕ
  activated : Bool

/-- what one call on a proposer yields -/
abbrev Called (V : Type) := Except Panic (Proposer V × List (Effect (ConcreteMsg V)))

namespace Proposer

/-- the placeholder priority of the initial template is never sent as it is -/
def new (selfId : NodeId) (totalReplicas : ℕ) (initialValue : V) (leader : Option NodeId) (slot : ℕ) : Proposer V where
  selfId := selfId
  slot := slot
  totalReplicas := totalReplicas
  leader := leader
  step := 0
  proposal := ⟨initialValue, H, selfId⟩
  decided := none
  responses := ∅
  sent := ∅
  retriesThisStep := 0
  activationDelay := 0
  localRecorderStep := false
  lastSeenProgress := none
  activated := false

def withHedging (p : Proposer V) (activationDelay : ℕ) : Proposer V :=
  { p with activationDelay := activationDelay, localRecorderStep := true }

def decidedViaFastPath (p : Proposer V) : Bool := p.decided.isSome && p.step == FIRST_ROUND_STEP

def quorumThreshold (p : Proposer V) : ℕ := p.totalReplicas / 2 + 1

def isLeader (p : Proposer V) : Bool := p.leader == some p.selfId

def allRecorders (p : Proposer V) : List NodeId := List.range p.totalReplicas

/-- the replies collected for the current step -/
def replies (p : Proposer V) : List (RecordResponse V) := p.responses.entries.map Sigma.snd

/-- what `begin_step` prepares for recorder `r`: the leader's `H` in round 1, a fresh priority in every other phase 0,
the working proposal itself in phases 1 to 3 -/
def prepare (p : Proposer V) (draw : NodeId → Draw) (r : NodeId) : Proposal V :=
  if p.step % 4 = 0 ∧ p.step = FIRST_ROUND_STEP ∧ p.isLeader then ⟨p.proposal.value, H, p.selfId⟩
  else if p.step % 4 = 0 then ⟨p.proposal.value, (draw r).val, p.selfId⟩
  else p.proposal

def sendRequest (p : Proposer V) (r : NodeId) (q : Proposal V) : Effect (ConcreteMsg V) :=
  .send r (.request ⟨p.slot, p.step, q⟩)

/-- prepare and send this step's requests, then arm the retry timer -/
def beginStep (p : Proposer V) (draw : NodeId → Draw) : Proposer V × List (Effect (ConcreteMsg V)) :=
  ({ p with
      activated := true
      responses := ∅
      sent := p.allRecorders.foldl (fun m r => m.insert r (p.prepare draw r)) ∅
      retriesThisStep := 0 },
    p.allRecorders.map (fun r => p.sendRequest r (p.prepare draw r)) ++ [.timer RETRY_DELAY_TICKS (.retry p.step)])

/-- kick off round 1; a decided proposer ignores it, an undecided one restarts -/
def start (p : Proposer V) (draw : NodeId → Draw) : Proposer V × List (Effect (ConcreteMsg V)) :=
  if p.decided.isSome then (p, [])
  else
    let p := { p with step := FIRST_ROUND_STEP }
    if p.activationDelay = 0 then p.beginStep draw else (p, [.timer p.activationDelay .hedge])

/-- the co-located recorder's step, if it is wired up -/
def current (p : Proposer V) (localStep : ℕ) : Option ℕ := if p.localRecorderStep then some localStep else none

/-- the co-located recorder is past our step, and moved since the last look -/
def sawFreshProgress (p : Proposer V) (localStep : ℕ) : Bool :=
  match p.current localStep with
  | some step => decide (p.step < step) && decide (some step ≠ p.lastSeenProgress)
  | none => false

/-- the hedge timer fired: defer once more on fresh progress of the co-located recorder, else activate -/
def maybeActivateAfterHedge (p : Proposer V) (localStep : ℕ) (draw : NodeId → Draw) :
    Proposer V × List (Effect (ConcreteMsg V)) :=
  if p.decided.isSome then (p, [])
  else if p.sawFreshProgress localStep then
    ({ p with lastSeenProgress := p.current localStep }, [.timer HEDGE_RECHECK_TICKS .hedge])
  else p.beginStep draw

/-- the furthest reply ahead of our step, ties broken by the recorder's id -/
def furthestReply (p : Proposer V) : Option (RecordResponse V) :=
  ((p.responses.entries.filter fun e => p.step < e.2.step).argmax fun e => toLex (e.2.step, e.1)).map Sigma.snd

section Ordered

variable [LinearOrder V]

/-- the phase-0 fast path: every reply reports one and the same `H` proposal first -/
def fastPathValue : List (RecordResponse V) → Option V
  | [] => none
  | r :: rs =>
    match r.first with
    | none => none
    | some first =>
      if first.priority ≠ H then none
      else if (r :: rs).all fun r => match r.first with
        | some p => decide (p.priority = H) && decide (p = first)
        | none => false
      then some first.value
      else none

/-- the bodies of `if s mod 4 = k` -/
def processPhase (p : Proposer V) : Except Panic (Proposer V) :=
  match p.step % 4 with
  | 0 =>
    match fastPathValue p.replies with
    | some value => .ok { p with decided := some value }
    | none =>
      match bestOf (p.replies.map (·.first)) with
      | some best => .ok { p with proposal := best }
      | none => .error .quorumWithoutFirst
  | 1 => .ok p
  | 2 =>
    if bestOf (p.replies.map (·.priorAgg)) = some p.proposal then .ok { p with decided := some p.proposal.value }
    else .ok p
  | _ =>
    match bestOf (p.replies.map (·.priorAgg)) with
    | some best => .ok { p with proposal := best }
    | none => .error .quorumWithoutPriorAgg

/-- a quorum is in: process the phase and advance, or catch up -/
def processQuorum (p : Proposer V) (draw : NodeId → Draw) : Called V :=
  if p.replies.all fun r => r.step == p.step then
    match p.processPhase with
    | .error e => .error e
    | .ok p => if p.decided.isNone then .ok ({ p with step := p.step + 1 }.beginStep draw) else .ok (p, [])
  else
    match p.furthestReply with
    | none => .error .noReplyAhead
    | some best =>
      match best.first with
      | none => .error .aheadWithoutFirst
      | some first => .ok ({ p with step := best.step, proposal := first }.beginStep draw)

/-- a reply from `src`: ignore it when stale, else keep the first one of each recorder and process a quorum -/
def onResponse (p : Proposer V) (src : NodeId) (resp : RecordResponse V) (draw : NodeId → Draw) : Called V :=
  if p.decided.isSome then .ok (p, [])
  else if resp.slot ≠ p.slot ∨ resp.reqStep ≠ p.step then .ok (p, [])
  else
    let p := { p with responses := if src ∈ p.responses then p.responses else p.responses.insert src resp }
    if p.quorumThreshold ≤ p.responses.keys.length then p.processQuorum draw else .ok (p, [])

omit [LinearOrder V] in
/-- resend to the recorders `rs` what was prepared for them -/
def resend (p : Proposer V) : List NodeId → Except Panic (List (Effect (ConcreteMsg V)))
  | [] => .ok []
  | r :: rs =>
    match p.sent.lookup r with
    | none => .error .nothingSent
    | some q =>
      match p.resend rs with
      | .error e => .error e
      | .ok fx => .ok (p.sendRequest r q :: fx)

omit [LinearOrder V] in
/-- a retry, hedge or kickoff timer fired -/
def onTimer (p : Proposer V) (id : TimerId) (localStep : ℕ) (draw : NodeId → Draw) : Called V :=
  match id with
  | .kickoff => .ok (p.start draw)
  | .hedge => .ok (p.maybeActivateAfterHedge localStep draw)
  | .catchUpWatchdog => .ok (p, [])
  | .retry s =>
    if p.decided.isSome ∨ p.activated = false ∨ s ≠ p.step then .ok (p, [])
    else if p.quorumThreshold ≤ p.responses.keys.length then .ok (p, [])
    else
      match p.resend (p.allRecorders.filter fun r => r ∉ p.responses) with
      | .error e => .error e
      | .ok fx =>
        .ok ({ p with retriesThisStep := p.retriesThisStep + 1 },
          fx ++ [.timer (retryBackoffDelay p.retriesThisStep) (.retry p.step)])

end Ordered

end Proposer

end Queso
