import Queso.Lib.Runs
import Queso.Lib.Quorum
import Queso.Lib.Register
import Queso.Lib.Linearize
import Queso.Lib.Backtrack
import Queso.Lib.Agenda
import Queso.Lib.EventLoop
import Queso.Lib.Json
import Queso.Lib.Signal
import Queso.Sim.World
import Queso.Sim.Callback
import Queso.Sim.Kernel
import Queso.Sim.Accounting
import Queso.Sim.Refinement
import Queso.Sim.Seeded
import Queso.Sim.Punctual
import Queso.Consensus.Isr
import Queso.Consensus.Proposer
import Queso.Consensus.Moves
import Queso.Consensus.Rounds
import Queso.Consensus.Arena
import Queso.Consensus.Trace
import Queso.Consensus.Coverage
import Queso.Consensus.Flow
import Queso.Consensus.Sole
import Queso.Consensus.Concrete
import Queso.Consensus.Refine
import Queso.Consensus.Turns
import Queso.Consensus.Panics
import Queso.Consensus.Agreement
import Queso.Consensus.Rekick
import Queso.Consensus.Retry
import Queso.Consensus.Unparked
import Queso.Consensus.Prompt
import Queso.Consensus.FastPath
import Queso.Consensus.Tcast
import Queso.Consensus.Algorithm
import Queso.Consensus.Slot
import Queso.Spec.Abstract
import Queso.Spec.Lockstep
import Queso.Spec.Concrete
import Queso.Spec.Dominance
import Queso.Consensus.Relay
import Queso.Smr.Command
import Queso.Smr.Kv
import Queso.Smr.Tuning
import Queso.Smr.Replica
import Queso.Smr.Cluster
import Queso.Smr.Moves
import Queso.Smr.Refine
import Queso.Smr.Turns
import Queso.Smr.Invariant
import Queso.Smr.Panics
import Queso.Smr.Unparked
import Queso.Smr.Agreement
import Queso.Smr.Linearizable
import Queso.Smr.CatchUp
import Queso.Smr.Dedup
import Queso.Smr.Custody
import Queso.Smr.Epochs
import Queso.Smr.Checker
import Queso.Smr.Completion
import Queso.Smr.Driver
import Queso.Smr.Invocation
import Queso.Smr.Overtaking
import Queso.Smr.Advance
import Queso.Conformance.Source
import Queso.Chain.State
import Queso.Chain.Checkpoints
import Queso.Chain.Report
import Queso.Conformance.Observer
import Queso.Conformance.Polling
import Queso.Conformance.Sampling
import Queso.Conformance.Verdict
import Queso.Conformance.Harness
import Queso.Smr.Episode
import Queso.Smr.Watchdog
import Queso.Smr.Activation
import Queso.Smr.Deferral
import Queso.Net.Persist
import Queso.Net.Driver
import Queso.Net.Books
import Queso.Net.Durability
import Queso.Net.Tags
import Queso.Net.Reboot
import Queso.Net.Crew
import Queso.Net.Accord
import Queso.Net.Transport
import Queso.Net.Service
import Queso.Net.Alarm
import Queso.Smr.Hedging
import Queso.Soak.Postmortem
import Queso.Soak.Schedule
import Queso.Soak.Injected
import Queso.Soak.Expectation
import Queso.Soak.Replay
