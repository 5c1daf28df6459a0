/-
The process of one replica: boot from the snapshot, then batch after batch of events.

A batch applies its events in turn and buffers what they send. If one of them was a message, the durable state is
persisted; then the buffered sends are flushed and the operations that completed are answered. A panic or a snapshot
that cannot be persisted ends the process. The process can be killed at any point; what stays is its disk.

`released` lists what left the process, over all its boots, and `saves` every attempt to persist. No step reads them.
The events of a batch are whatever the environment chooses: any timer may fire, and any message may come, which is more
than a run of the process sees.
-/
import Queso.Lib.Runs
import Queso.Net.Persist
import Queso.Sim.World

namespace Queso.Net

/-- `u64::MAX` -/
def MAX_TICK : ℕ := 2 ^ 64 - 1

def GROUP_COMMIT_BATCH_LIMIT : ℕ := 64

/-- how a process is started, the same at each boot -/
structure Config where
  id : NodeId
  totalReplicas : ℕ
  leader : Option NodeId
  /-- the replicas that it dials, itself aside -/
  peers : List NodeId
  /-- `debug_assert` is compiled in -/
  debugAssertions : Bool

inductive Event where
  | message (src : NodeId) (payload : SmrMsg)
  | timer (id : TimerId)
  | clientSubmit (command : Command)
deriving DecidableEq

/-- only a message can change what is durable -/
def Event.mayMutateDurable : Event → Bool
  | .message _ _ => true
  | _ => false

/-- an event taken from the inbox, the ticks since the boot, and what the generator will return -/
structure Dispatch where
  event : Event
  elapsed : ℕ
  rng : NodeId → Draw

/-- a live process -/
structure Running where
  node : SmrNode
  shared : Shared
  /-- the lowest tick of this boot -/
  baseline : ℕ
  now : ℕ
  pendingOutbound : List (Envelope SmrMsg)
  /-- the operations whose clients wait for an answer -/
  pending : List OpId
  nextOpId : ℕ
  fault : Option DiskFault

/-- what leaves the process: a message, or the answer to the client of an operation with its record -/
inductive Release where
  | sent (e : Envelope SmrMsg)
  | outcome (id : OpId) (record : OpRecord)
deriving DecidableEq

/-- an attempt to persist -/
structure Save where
  durable : Durable
  tick : ℕ
  ending : WriteEnd
deriving DecidableEq

structure Process where
  disk : Disk
  running : Option Running
  released : List Release
  saves : List Save

/-- take a client's operation in and kick an idle replica -/
def submit (ctx : SmrCtx) (debugAssertions : Bool) (id : OpId) (replica : NodeId) (command : Command) (nd : SmrNode)
    (sh : Shared) : SmrOutcome :=
  if debugAssertions = true ∧ command.client = CATCH_UP_CLIENT then .error .reservedClient
  else
    let (nd, shouldKick) := nd.enqueue id command
    .ok (nd, sh.invoke id replica command ctx.now, if shouldKick then [.timer 0 .kickoff] else [])

namespace Running

/-- a replica at its boot, cold or from its snapshot -/
def boot (cfg : Config) (fault : Option DiskFault) (durable : Durable) (baseline : ℕ) : Running where
  node := { SmrNode.new cfg.totalReplicas with durable := durable }
  shared := ⟨∅, 0, .fixed cfg.leader, []⟩
  baseline := baseline
  now := baseline
  pendingOutbound := []
  pending := []
  nextOpId := 0
  fault := fault

/-- the clock, fixed for one event -/
def tickNow (r : Running) (elapsed : ℕ) : Running := { r with now := min (r.baseline + elapsed) MAX_TICK }

def ctx (cfg : Config) (r : Running) (rng : NodeId → Draw) : SmrCtx := ⟨cfg.id, r.now, rng⟩

/-- take over what a call on the replica returned, and buffer what it sent -/
def absorb (cfg : Config) (r : Running) : SmrOutcome → Except Panic Running
  | .error e => .error e
  | .ok (nd, sh, fx) =>
    .ok { r with node := nd, shared := sh, pendingOutbound := r.pendingOutbound ++ sendsOf cfg.id fx }

def dispatch (cfg : Config) (r : Running) (d : Dispatch) : Except Panic Running :=
  let r := r.tickNow d.elapsed
  match d.event with
  | .message src payload => r.absorb cfg (r.node.onMessage (r.ctx cfg d.rng) src payload r.shared)
  | .timer id => r.absorb cfg (r.node.onTimer (r.ctx cfg d.rng) id r.shared)
  | .clientSubmit command =>
    { r with nextOpId := r.nextOpId + 1, pending := r.pending ++ [r.nextOpId] }.absorb cfg
      (submit (r.ctx cfg d.rng) cfg.debugAssertions r.nextOpId cfg.id command r.node r.shared)

/-- the events of a batch, one after another -/
def applyBatch (cfg : Config) : Running → List Dispatch → Except Panic Running
  | r, [] => .ok r
  | r, d :: ds =>
    match r.dispatch cfg d with
    | .error e => .error e
    | .ok r => r.applyBatch cfg ds

/-- what `flush_outbound` hands to the network, or to its own inbox -/
def flushed (cfg : Config) (r : Running) : List Release :=
  (r.pendingOutbound.filter fun e => decide (e.dst = cfg.id ∨ e.dst ∈ cfg.peers)).map .sent

/-- the record of an operation that completed -/
def completed (r : Running) (id : OpId) : Option OpRecord :=
  (r.shared.results.lookup id).filter fun record => record.outcome.isSome

/-- the answers to the clients whose operations completed -/
def answers (r : Running) : List Release := r.pending.filterMap fun id => (r.completed id).map (.outcome id)

/-- the process after a batch was released -/
def settled (r : Running) : Running :=
  { r with pendingOutbound := [], pending := r.pending.filter fun id => (r.completed id).isNone }

end Running

/-- where a process is killed in a batch: before its snapshot is written, in the write, or after so many releases -/
inductive Kill where
  | applying
  | writing (point : WriteKill)
  | releasing (released : ℕ)
deriving DecidableEq

def Kill.write : Kill → Option WriteKill
  | .writing point => some point
  | _ => none

def Kill.release : Kill → Option ℕ
  | .releasing released => some released
  | _ => none

inductive ProcOp where
  | boot (fault : Option DiskFault) (elapsed : ℕ) (rng : NodeId → Draw) (kill : Option ℕ)
  | batch (first : Dispatch) (ready : List Dispatch) (kill : Option Kill)
  | kill

namespace Process

/-- before the first boot -/
def blank : Process := ⟨.blank, none, [], []⟩

/-- hand `releases` out, in order; or only the first ones, when the process is killed there -/
def release (p : Process) (r : Running) (releases : List Release) : Option ℕ → Process
  | none => { p with running := some r, released := p.released ++ releases }
  | some n => { p with running := none, released := p.released ++ releases.take n }

/-- a cold replica if there is no snapshot; else one that rejoins from it as a learner -/
def bootFrom (b : Bincode) (cfg : Config) (p : Process) (fault : Option DiskFault) (elapsed : ℕ) (rng : NodeId → Draw)
    (kill : Option ℕ) : Process :=
  match load b p.disk with
  | .error _ => p
  | .ok none => { p with running := some (.boot cfg fault .default 0) }
  | .ok (some (durable, maxTick)) =>
    let r := (Running.boot cfg fault durable maxTick).tickNow elapsed
    match r.absorb cfg (r.node.onRestart (r.ctx cfg rng) r.shared) with
    | .error _ => p
    | .ok r => p.release { r with pendingOutbound := [] } (r.flushed cfg) kill

/-- the events of one batch: the one that woke the loop, and those already in the inbox up to the limit -/
def batchOf (first : Dispatch) (ready : List Dispatch) : List Dispatch := (first :: ready).take GROUP_COMMIT_BATCH_LIMIT

/-- persist what the batch may have changed -/
def persisted (b : Bincode) (p : Process) (r : Running) (events : List Dispatch) (kill : Option WriteKill) :
    Process × Running × Bool :=
  if (events.any fun d => d.event.mayMutateDurable) = true then
    let w := persist b r.fault kill p.disk r.node.durable r.now
    ({ p with disk := w.disk, saves := p.saves ++ [⟨r.node.durable, r.now, w.ending⟩] }, { r with fault := w.fault },
      decide (w.ending = .done))
  else (p, r, true)

/-- apply a batch, persist, flush the sends and answer the clients -/
def runBatch (b : Bincode) (cfg : Config) (p : Process) (r : Running) (events : List Dispatch) (kill : Option Kill) :
    Process :=
  match r.applyBatch cfg events with
  | .error _ => { p with running := none }
  | .ok r =>
    if kill = some .applying then { p with running := none }
    else
      let (p, r, releasedOk) := p.persisted b r events (kill.bind Kill.write)
      if releasedOk then p.release r.settled (r.flushed cfg ++ r.answers) (kill.bind Kill.release)
      else { p with running := none }

def step (b : Bincode) (cfg : Config) (p : Process) : ProcOp → Process
  | .boot fault elapsed rng kill => if p.running.isSome then p else p.bootFrom b cfg fault elapsed rng kill
  | .batch first ready kill =>
    match p.running with
    | none => p
    | some r => p.runBatch b cfg r (batchOf first ready) kill
  | .kill => { p with running := none }

abbrev run (b : Bincode) (cfg : Config) (p : Process) (ops : List ProcOp) : Process := Runs.run (step b cfg) p ops

end Process

end Queso.Net
