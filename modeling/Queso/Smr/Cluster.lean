/-
The cluster of replicas that replicate the log, in the asynchronous world, with clients that submit to any replica.

A submission runs outside any callback: it queues the operation and kicks the replica by a timer if its queue was empty.
It is not refused by a crashed replica, and a panic stops the run.
-/
import Queso.Lib.Runs
import Queso.Sim.World
import Queso.Smr.Replica

namespace Queso

abbrev Smr := World SmrNode Shared SmrMsg

/-- what can happen to a cluster: a decision of the environment, or a client's submission to a replica -/
inductive SmrOp where
  | env (op : EnvOp (NodeId → Draw))
  | submit (replica : NodeId) (command : Command)

namespace Smr

def build (n : ℕ) (policy : LeaderPolicy) : Smr where
  nodes := fun i => if i < n then some (SmrNode.new n) else none
  shared := ⟨∅, 0, policy, []⟩
  crashed := fun _ => false
  net := []
  timers := []
  now := 0
  trace := []
  panicked := none

/-- `n` replicas with one leader for every slot, or none -/
def newWithLeader (n : ℕ) (leader : Option NodeId) : Smr := build n (.fixed leader)

/-- `n + 1` replicas whose leaders are tuned by epochs -/
def newWithTuning (n epochLen baseDelay : ℕ) : Smr :=
  build (n + 1) (.tuned (EpochTuner.new 0 ((List.range n).map (· + 1)) epochLen baseDelay))

/-- how a cluster is built: `new` and `new_with_leader`, or `new_with_tuning` with `n + 1` replicas -/
inductive Setup where
  | leader (n : ℕ) (leader : Option NodeId)
  | tuning (n epochLen baseDelay : ℕ)

def Setup.size : Setup → ℕ
  | .leader n _ => n
  | .tuning n _ _ => n + 1

def Setup.cluster : Setup → Smr
  | .leader n l => newWithLeader n l
  | .tuning n epochLen baseDelay => newWithTuning n epochLen baseDelay

def submit (w : Smr) (replica : NodeId) (command : Command) : Smr :=
  if command.client = CATCH_UP_CLIENT then { w with panicked := some .reservedClient }
  else match w.nodes replica with
    | none => { w with panicked := some .unknownReplica }
    | some nd =>
      let id := w.shared.nextOpId
      let (nd, shouldKick) := nd.enqueue id command
      let w' :=
        { w with
          nodes := Function.update w.nodes replica (some nd)
          shared := { w.shared.invoke id replica command w.now with nextOpId := id + 1 } }
      if shouldKick then w'.injectTimer replica 0 .kickoff else w'

def step (w : Smr) : SmrOp → Smr
  | .env op => w.env SmrNode.behaviour op
  | .submit replica command => if w.panicked.isSome then w else w.submit replica command

abbrev run (w : Smr) (ops : List SmrOp) : Smr := Runs.run step w ops

/-- the commands that replica `i` has applied -/
def appliedLog (w : Smr) (i : NodeId) : List Command :=
  match w.nodes i with
  | none => []
  | some nd => nd.durable.appliedLog

def nextSlot (w : Smr) (i : NodeId) : ℕ :=
  match w.nodes i with
  | none => 0
  | some nd => nd.durable.nextSlot

end Smr

end Queso
