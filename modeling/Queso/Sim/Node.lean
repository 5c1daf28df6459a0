/-
What a replica sees of the harness: node and timer ids, the context of a callback, and what a callback may emit.

A callback is a function of the context, the node and what the nodes share. It returns the new node, the new shared
state and the effects it asked for, in order; or the panic it raised. Timer ids are `u64` in the source: a retry timer
carries its step and the three reserved ids are `u64::MAX`, `u64::MAX - 1` and `u64::MAX - 2`. Steps stay far below
them, so the four name spaces are separate constructors here.
-/
import Mathlib.Tactic

namespace Queso

abbrev NodeId := ℕ

/-- the timers a replica arms -/
inductive TimerId where
  | kickoff
  | hedge
  | catchUpWatchdog
  | retry (step : ℕ)
deriving DecidableEq, Repr

/-- the panics of the modelled code, one for each `expect`, index or assertion -/
inductive Panic where
  /-- `process_quorum`: not all replies are at our step and none is ahead of it -/
  | noReplyAhead
  /-- `process_quorum`: the reply ahead of us reports no first value -/
  | aheadWithoutFirst
  /-- `process_phase`, phase 0: no reply of the quorum reports a first value -/
  | quorumWithoutFirst
  /-- `process_phase`, phase 3: no reply of the quorum reports a prior aggregate -/
  | quorumWithoutPriorAgg
  /-- `on_timer`: a retry for a recorder that nothing was sent to -/
  | nothingSent
  /-- `finish_attempt` without a live attempt -/
  | noAttempt
  /-- `finish_attempt` for a slot other than the frontier -/
  | offFrontier
  /-- `submit` under the client id reserved for catch-up probes -/
  | reservedClient
  /-- `submit` to an id that hosts no replica -/
  | unknownReplica
  /-- `config_for` a slot whose epoch was never opened -/
  | epochNotOpened
  /-- `absorb` of a slot outside the open epoch -/
  | epochOutOfOrder
deriving DecidableEq, Repr

/-- the context of one callback: the node's own id, the clock, and what the generator will return -/
structure Ctx (R : Type) where
  selfId : NodeId
  now : ℕ
  rng : R

/-- what a callback asks of the harness -/
inductive Effect (M : Type) where
  | send (dst : NodeId) (payload : M)
  | timer (after : ℕ) (id : TimerId)
deriving DecidableEq, Repr

/-- the outcome of a callback on a node `N` that shares `G` with the other nodes -/
abbrev Outcome (N G M : Type) := Except Panic (N × G × List (Effect M))

/-- the callbacks of a node -/
structure Behaviour (N G M R : Type) where
  onMessage : Ctx R → NodeId → M → N → G → Outcome N G M
  onTimer : Ctx R → TimerId → N → G → Outcome N G M
  onRestart : Ctx R → N → G → Outcome N G M

end Queso
