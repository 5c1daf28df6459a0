/-
The simulation kernel: a clock, an agenda of timers, message arrivals and faults, the network, the faults in force and
the trace.

Every event takes a sequence number when it is scheduled or recorded, and the agenda is run in the order of time and
sequence number. A message that is sent is dropped at once, by the faults in force or by the scheduler, or it travels
until its arrival is dispatched; there the faults are looked at again. A callback runs to its end before the next event:
its effects are carried out in order.

A `Harness` is what a kernel is run with: the nodes' callbacks, the size of a payload, what the scheduler decides and
what the generator yields. A message is decided on once, so its id tells one draw of the scheduler from another; the sequence
number under which a callback is recorded tells one draw of a node from another.

`dispatched` lists the events taken from the agenda, and `unclaimed` the messages that arrived where no node was
registered; no step reads them. Sequence numbers and message ids are `u64` in the source and do not wrap here; the clock
saturates as it does there.
-/
import Mathlib.Data.List.AList
import Queso.Lib.Agenda
import Queso.Sim.Node

namespace Queso.Sim

open Agenda

abbrev MessageId := ℕ

/-- `u64::MAX` -/
def MAX : ℕ := 2 ^ 64 - 1

/-- `saturating_add` on the clock -/
def advance (t ticks : ℕ) : ℕ := min (t + ticks) MAX

/-! ## Faults -/

inductive DropReason where
  | crashed
  | partitioned
  | scheduler
  | partitionedAtArrival
deriving DecidableEq, Repr

structure FaultState where
  crashed : Finset NodeId
  partition : Option (Finset NodeId × Finset NodeId)
  slow : AList fun _ : NodeId => ℕ
deriving DecidableEq

inductive FaultCommand where
  | crash (node : NodeId)
  | restart (node : NodeId)
  | partition (groupA groupB : Finset NodeId)
  | heal
  | slowNode (node : NodeId) (multiplier : ℕ)
  | clearSlow (node : NodeId)
deriving DecidableEq

namespace FaultState

def default : FaultState := ⟨∅, none, ∅⟩

def crash (f : FaultState) (node : NodeId) : FaultState := { f with crashed := insert node f.crashed }

def restart (f : FaultState) (node : NodeId) : FaultState := { f with crashed := f.crashed.erase node }

def isCrashed (f : FaultState) (node : NodeId) : Bool := decide (node ∈ f.crashed)

def setPartition (f : FaultState) (a b : Finset NodeId) : FaultState := { f with partition := some (a, b) }

def heal (f : FaultState) : FaultState := { f with partition := none }

def isPartitioned (f : FaultState) (a b : NodeId) : Bool :=
  match f.partition with
  | none => false
  | some (g₁, g₂) => decide (a ∈ g₁ ∧ b ∈ g₂) || decide (a ∈ g₂ ∧ b ∈ g₁)

def setSlow (f : FaultState) (node : NodeId) (multiplier : ℕ) : FaultState :=
  if multiplier ≤ 1 then { f with slow := f.slow.erase node } else { f with slow := f.slow.insert node multiplier }

def clearSlow (f : FaultState) (node : NodeId) : FaultState := { f with slow := f.slow.erase node }

def slowMultiplier (f : FaultState) (src dst : NodeId) : ℕ :=
  max ((f.slow.lookup src).getD 1) ((f.slow.lookup dst).getD 1)

end FaultState

/-! ## Events and messages -/

inductive TraceEvent where
  | send (time seq : ℕ) (id : MessageId) (src dst : NodeId) (size : ℕ)
  | deliver (time seq : ℕ) (id : MessageId) (src dst : NodeId)
  | drop (time seq : ℕ) (id : MessageId) (src dst : NodeId) (reason : DropReason)
  | timerScheduled (time seq : ℕ) (node : NodeId) (timerId : TimerId) (fireAt : ℕ)
  | timerFired (time seq : ℕ) (node : NodeId) (timerId : TimerId)
  | timerDropped (time seq : ℕ) (node : NodeId) (timerId : TimerId)
  | crash (time seq : ℕ) (node : NodeId)
  | restart (time seq : ℕ) (node : NodeId)
  | partition (time seq : ℕ) (groupA groupB : Finset NodeId)
  | heal (time seq : ℕ)
  | slowNode (time seq : ℕ) (node : NodeId) (multiplier : ℕ)
  | leaderChanged (time seq : ℕ) (leader : Option NodeId)
deriving DecidableEq

inductive EventKind where
  | timer (node : NodeId) (timerId : TimerId)
  | messageArrival (id : MessageId)
  | fault (cmd : FaultCommand)
deriving DecidableEq

abbrev ScheduledEvent := Entry EventKind

structure EnvelopeMeta where
  id : MessageId
  src : NodeId
  dst : NodeId
  size : ℕ
  sentAt : ℕ
deriving DecidableEq

structure Envelope (M : Type) where
  info : EnvelopeMeta
  payload : M
deriving DecidableEq

/-- what the scheduler makes of a message -/
inductive Decision where
  | deliver (delay : ℕ)
  | drop
deriving DecidableEq

/-- what the scheduler sees besides the envelope -/
structure SchedulerCtx where
  now : ℕ
  leader : Option NodeId

/-- why a run ended: a callback panicked, or a fault was scheduled in the past -/
inductive Halt where
  | panic (e : Panic)
  | faultInPast
deriving DecidableEq

structure Harness (N G M R : Type) where
  behaviour : Behaviour N G M R
  size : M → ℕ
  decide : Envelope M → SchedulerCtx → Decision
  rng : ℕ → R

structure Kernel (N G M : Type) where
  now : ℕ
  nextSeq : ℕ
  nextMessageId : ℕ
  trace : List TraceEvent
  faults : FaultState
  leader : Option NodeId
  queue : List ScheduledEvent
  inFlight : AList fun _ : MessageId => Envelope M
  nodes : NodeId → Option N
  shared : G
  halted : Option Halt
  dispatched : List ScheduledEvent
  unclaimed : List MessageId

variable {N G M R : Type}

namespace Kernel

def new (shared : G) : Kernel N G M where
  now := 0
  nextSeq := 0
  nextMessageId := 0
  trace := []
  faults := .default
  leader := none
  queue := []
  inFlight := ∅
  nodes := fun _ => none
  shared := shared
  halted := none
  dispatched := []
  unclaimed := []

/-- record an event at the current time, under a fresh sequence number -/
def record (k : Kernel N G M) (ev : ℕ → ℕ → TraceEvent) : Kernel N G M :=
  { k with nextSeq := k.nextSeq + 1, trace := k.trace ++ [ev k.now k.nextSeq] }

/-- record an event of the agenda, under the number it was scheduled with -/
def recordAs (k : Kernel N G M) (seq : ℕ) (ev : ℕ → ℕ → TraceEvent) : Kernel N G M :=
  { k with trace := k.trace ++ [ev k.now seq] }

/-- schedule an event under a fresh sequence number -/
def push (k : Kernel N G M) (time : ℕ) (kind : EventKind) : Kernel N G M :=
  { k with nextSeq := k.nextSeq + 1, queue := schedule ⟨time, k.nextSeq, kind⟩ k.queue }

def send (h : Harness N G M R) (src dst : NodeId) (payload : M) (k : Kernel N G M) : Kernel N G M :=
  let id := k.nextMessageId
  let info : EnvelopeMeta := ⟨id, src, dst, h.size payload, k.now⟩
  let k := { k with nextMessageId := id + 1 }.record fun time seq => .send time seq id src dst info.size
  if k.faults.isCrashed src || k.faults.isCrashed dst then
    k.record fun time seq => .drop time seq id src dst .crashed
  else if k.faults.isPartitioned src dst then
    k.record fun time seq => .drop time seq id src dst .partitioned
  else match h.decide ⟨info, payload⟩ ⟨k.now, k.leader⟩ with
    | .deliver delay =>
      let totalDelay := max (min (delay * k.faults.slowMultiplier src dst) MAX) 1
      { k.push (advance k.now totalDelay) (.messageArrival id) with
        inFlight := k.inFlight.insert id ⟨info, payload⟩ }
    | .drop => k.record fun time seq => .drop time seq id src dst .scheduler

/-- the trace event and the agenda entry share one sequence number -/
def scheduleTimer (node : NodeId) (after : ℕ) (timerId : TimerId) (k : Kernel N G M) : Kernel N G M :=
  let fireAt := advance k.now (max after 1)
  let scheduled : TraceEvent := .timerScheduled k.now k.nextSeq node timerId fireAt
  { k with trace := k.trace ++ [scheduled] }.push fireAt (.timer node timerId)

/-- carry out one effect of a callback of node `self` -/
def effect (h : Harness N G M R) (self : NodeId) (k : Kernel N G M) : Effect M → Kernel N G M
  | .send dst payload => k.send h self dst payload
  | .timer after id => k.scheduleTimer self after id

/-- take over the outcome of a callback at node `i` -/
def perform (h : Harness N G M R) (i : NodeId) (k : Kernel N G M) : Outcome N G M → Kernel N G M
  | .error e => { k with halted := some (.panic e) }
  | .ok (nd, g, fx) => fx.foldl (effect h i) { k with nodes := Function.update k.nodes i (some nd), shared := g }

def setLeader (leader : Option NodeId) (k : Kernel N G M) : Kernel N G M :=
  { k with leader := leader }.record fun time seq => .leaderChanged time seq leader

def applyFaultCommand (h : Harness N G M R) (k : Kernel N G M) : FaultCommand → Kernel N G M
  | .crash node => { k with faults := k.faults.crash node }.record fun time seq => .crash time seq node
  | .restart node =>
    let seq := k.nextSeq
    let k := { k with faults := k.faults.restart node }.record fun time seq => .restart time seq node
    match k.nodes node with
    | none => k
    | some nd => k.perform h node (h.behaviour.onRestart ⟨node, k.now, h.rng seq⟩ nd k.shared)
  | .partition a b => { k with faults := k.faults.setPartition a b }.record fun time seq => .partition time seq a b
  | .heal => { k with faults := k.faults.heal }.record fun time seq => .heal time seq
  | .slowNode node multiplier =>
    { k with faults := k.faults.setSlow node multiplier }.record fun time seq => .slowNode time seq node multiplier
  | .clearSlow node =>
    { k with faults := k.faults.clearSlow node }.record fun time seq => .slowNode time seq node 1

def scheduleFault (time : UInt64) (cmd : FaultCommand) (k : Kernel N G M) : Kernel N G M :=
  if time.toNat < k.now then { k with halted := some .faultInPast } else k.push time.toNat (.fault cmd)

def dispatchTimer (h : Harness N G M R) (node : NodeId) (timerId : TimerId) (seq : ℕ) (k : Kernel N G M) :
    Kernel N G M :=
  if k.faults.isCrashed node then k.recordAs seq fun time seq => .timerDropped time seq node timerId
  else match k.nodes node with
    | none => k
    | some nd =>
      (k.recordAs seq fun time seq => .timerFired time seq node timerId).perform h node
        (h.behaviour.onTimer ⟨node, k.now, h.rng seq⟩ timerId nd k.shared)

/-- the sender may have crashed since: only the destination and the path are looked at again -/
def dispatchMessageArrival (h : Harness N G M R) (id : MessageId) (seq : ℕ) (k : Kernel N G M) : Kernel N G M :=
  match k.inFlight.lookup id with
  | none => k
  | some envelope =>
    let k := { k with inFlight := k.inFlight.erase id }
    let src := envelope.info.src
    let dst := envelope.info.dst
    if k.faults.isCrashed dst then k.recordAs seq fun time seq => .drop time seq id src dst .crashed
    else if k.faults.isPartitioned src dst then
      k.recordAs seq fun time seq => .drop time seq id src dst .partitionedAtArrival
    else match k.nodes dst with
      | none => { k with unclaimed := k.unclaimed ++ [id] }
      | some nd =>
        (k.recordAs seq fun time seq => .deliver time seq id src dst).perform h dst
          (h.behaviour.onMessage ⟨dst, k.now, h.rng seq⟩ src envelope.payload nd k.shared)

/-- what `run_until` does with the event it popped -/
def handle (h : Harness N G M R) (e : ScheduledEvent) (k : Kernel N G M) : Kernel N G M :=
  match e.kind with
  | .timer node timerId => k.dispatchTimer h node timerId e.seq
  | .messageArrival id => k.dispatchMessageArrival h id e.seq
  | .fault cmd => k.applyFaultCommand h cmd

/-- one turn of `run_until`: the first event of the agenda -/
def dispatch (h : Harness N G M R) (k : Kernel N G M) : Kernel N G M :=
  match k.queue with
  | [] => k
  | e :: queue => { k with now := e.time, queue := queue, dispatched := k.dispatched ++ [e] }.handle h e

/-- the first event of the agenda is not past `limit` -/
def due (k : Kernel N G M) (limit : ℕ) : Bool :=
  match k.queue with
  | [] => false
  | e :: _ => decide (e.time ≤ limit)

/-- `run_until`, if it is over within `fuel` turns; a panic ends it as well -/
def runUntil (h : Harness N G M R) (limit : ℕ) : ℕ → Kernel N G M → Option (Kernel N G M)
  | 0, k => if k.halted.isSome || !k.due limit then some k else none
  | fuel + 1, k => if k.halted.isSome || !k.due limit then some k else runUntil h limit fuel (k.dispatch h)

end Kernel

/-- what a driver of the kernel can call, and one turn of its event loop -/
inductive KernelOp (N M : Type) where
  | addNode (id : NodeId) (node : N)
  | setLeader (leader : Option NodeId)
  | injectMessage (src dst : NodeId) (payload : M)
  | injectTimer (node : NodeId) (after : ℕ) (timerId : TimerId)
  | fault (cmd : FaultCommand)
  | scheduleFault (time : UInt64) (cmd : FaultCommand)
  | dispatch

namespace Kernel

def step (h : Harness N G M R) (k : Kernel N G M) (op : KernelOp N M) : Kernel N G M :=
  if k.halted.isSome then k
  else match op with
    | .addNode id node => { k with nodes := Function.update k.nodes id (some node) }
    | .setLeader leader => k.setLeader leader
    | .injectMessage src dst payload => k.send h src dst payload
    | .injectTimer node after timerId => k.scheduleTimer node after timerId
    | .fault cmd => k.applyFaultCommand h cmd
    | .scheduleFault time cmd => k.scheduleFault time cmd
    | .dispatch => k.dispatch h

end Kernel

end Queso.Sim
