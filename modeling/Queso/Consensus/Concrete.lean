/-
The single-slot cluster: replicas that host one proposer and one recorder each, in the asynchronous world.

`build` is the general form: which ids host a replica and what each proposer was built with (its initial value, whom it
takes for the leader, its hedging delay or none). `newWithDelays` is the driver's constructor, with one leader for all.
A driver starts a proposer by injecting its kickoff timer (`kick`); `run_slot` does so for every live replica.
-/
import Queso.Lib.Runs
import Queso.Sim.World
import Queso.Consensus.Proposer

namespace Queso

variable {V : Type}

structure ReplicaNode (V : Type) where
  proposer : Proposer V
  recorder : Recorder V
  /-- the co-located recorder's most recently observed step -/
  localStep : ℕ

/-- what a replica's proposer is built with; `hedge` is the delay given to `with_hedging`, if it was called -/
structure ReplicaCfg (V : Type) where
  initial : V
  leader : Option NodeId
  hedge : Option ℕ

abbrev Concrete (V : Type) := World (ReplicaNode V) Unit (ConcreteMsg V)

namespace ReplicaNode

def new (n : ℕ) (i : NodeId) (c : ReplicaCfg V) : ReplicaNode V where
  proposer :=
    match c.hedge with
    | none => Proposer.new i n c.initial c.leader 0
    | some delay => (Proposer.new i n c.initial c.leader 0).withHedging delay
  recorder := Recorder.new
  localStep := 0

def withProposer (nd : ReplicaNode V) : Called V → Outcome (ReplicaNode V) Unit (ConcreteMsg V)
  | .error e => .error e
  | .ok (p, fx) => .ok ({ nd with proposer := p }, (), fx)

def onTimer (ctx : Ctx (NodeId → Draw)) (id : TimerId) (nd : ReplicaNode V) (_ : Unit) :
    Outcome (ReplicaNode V) Unit (ConcreteMsg V) :=
  nd.withProposer (nd.proposer.onTimer id nd.localStep ctx.rng)

variable [LinearOrder V]

def onMessage (ctx : Ctx (NodeId → Draw)) (src : NodeId) (payload : ConcreteMsg V) (nd : ReplicaNode V) (_ : Unit) :
    Outcome (ReplicaNode V) Unit (ConcreteMsg V) :=
  match payload with
  | .request req =>
    let (recorder, resp) := nd.recorder.handle req
    .ok ({ nd with recorder := recorder, localStep := resp.step }, (), [.send src (.response resp)])
  | .response resp => nd.withProposer (nd.proposer.onResponse src resp ctx.rng)

/-- `on_restart` is left at its default, which does nothing -/
def behaviour : Behaviour (ReplicaNode V) Unit (ConcreteMsg V) (NodeId → Draw) where
  onMessage := onMessage
  onTimer := onTimer
  onRestart := fun _ nd _ => .ok (nd, (), [])

end ReplicaNode

/-- what can happen to a cluster: a decision of the environment, or the driver's kickoff of a live replica -/
inductive ClusterOp where
  | env (op : EnvOp (NodeId → Draw))
  | kick (i : NodeId)

namespace Concrete

def build (n : ℕ) (cfg : NodeId → Option (ReplicaCfg V)) : Concrete V where
  nodes := fun i => (cfg i).map (ReplicaNode.new n i)
  shared := ()
  crashed := fun _ => false
  net := []
  timers := []
  now := 0
  trace := []
  panicked := none

/-- a map from replica ids, as `BTreeMap<NodeId, _>` -/
abbrev ByReplica (α : Type) := AList fun _ : NodeId => α

def newWithDelays (initialValues : ByReplica V) (leader : Option NodeId) (activationDelays : ByReplica ℕ) :
    Concrete V :=
  build initialValues.keys.length fun i => (initialValues.lookup i).map fun v =>
    ⟨v, leader, some ((activationDelays.lookup i).getD 0)⟩

variable [LinearOrder V]

def step (w : Concrete V) : ClusterOp → Concrete V
  | .env op => w.env ReplicaNode.behaviour op
  | .kick i => if w.panicked.isSome ∨ w.crashed i then w else w.injectTimer i 0 .kickoff

abbrev run (w : Concrete V) (ops : List ClusterOp) : Concrete V := Runs.run step w ops

/-- replica `i`'s decision, if it has delivered one -/
def decided (w : Concrete V) (i : NodeId) : Option V := (w.nodes i).bind fun nd => nd.proposer.decided

end Concrete

end Queso
