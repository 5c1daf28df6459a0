/-
The kernel with its generator and its scheduler, and what becomes of a run that is taken in slices.

The nodes and the scheduler draw from one stream, so here both are programs over the state of the generator: a callback
is a `Prog`, which sends, arms timers and draws in some order, and the scheduler is asked once for each message that
nothing has dropped. The rest of the kernel is `Kernel`'s own.

`drained_in_slices`: calls of `run_until` up to nondecreasing instants leave everything as the last one alone does, the
state of the generator and of the scheduler included; and they return, unless the last instant is the end of the clock.
-/
import Queso.Lib.EventLoop
import Queso.Sim.Accounting

namespace Queso.Sim

/-- what a callback does with its context, one call after another, over a generator with states `P` -/
inductive Prog (N G M P : Type) where
  | done (nd : N) (g : G)
  | panic (e : Panic)
  | send (dst : NodeId) (payload : M) (next : Prog N G M P)
  | timer (after : ℕ) (id : TimerId) (next : Prog N G M P)
  /-- the state of the generator is read and moved on -/
  | rng (draw : P → P) (next : P → Prog N G M P)

/-- the nodes and the scheduler a kernel is run with; the scheduler has a state of its own -/
structure Machine (N G M P S : Type) where
  onMessage : Ctx Unit → NodeId → M → N → G → Prog N G M P
  onTimer : Ctx Unit → TimerId → N → G → Prog N G M P
  onRestart : Ctx Unit → N → G → Prog N G M P
  size : M → ℕ
  decide : Envelope M → SchedulerCtx → S → P → Decision × S × P

structure Seeded (N G M P S : Type) where
  kernel : Kernel N G M
  rng : P
  scheduler : S

variable {N G M P S : Type}

/-- a harness that has decided already; it runs no callback -/
def Machine.decided (m : Machine N G M P S) (d : Decision) : Harness N G M Unit where
  behaviour := ⟨fun _ _ _ nd g => .ok (nd, g, []), fun _ _ nd g => .ok (nd, g, []), fun _ nd g => .ok (nd, g, [])⟩
  size := m.size
  decide := fun _ _ => d
  rng := fun _ => ()

namespace Seeded

/-- nothing in force drops the message, so the scheduler is asked -/
def passes (k : Kernel N G M) (src dst : NodeId) : Bool :=
  !(k.faults.isCrashed src || k.faults.isCrashed dst) && !k.faults.isPartitioned src dst

def send (m : Machine N G M P S) (src dst : NodeId) (payload : M) (s : Seeded N G M P S) : Seeded N G M P S :=
  let k := s.kernel
  if passes k src dst then
    let envelope : Envelope M := ⟨⟨k.nextMessageId, src, dst, m.size payload, k.now⟩, payload⟩
    let (decision, scheduler, rng) := m.decide envelope ⟨k.now, k.leader⟩ s.scheduler s.rng
    ⟨k.send (m.decided decision) src dst payload, rng, scheduler⟩
  else { s with kernel := k.send (m.decided .drop) src dst payload }

/-- a callback of node `i` -/
def exec (m : Machine N G M P S) (i : NodeId) : Prog N G M P → Seeded N G M P S → Seeded N G M P S
  | .done nd g, s =>
    { s with kernel := { s.kernel with nodes := Function.update s.kernel.nodes i (some nd), shared := g } }
  | .panic e, s => { s with kernel := { s.kernel with halted := some (.panic e) } }
  | .send dst payload next, s => exec m i next (s.send m i dst payload)
  | .timer after id next, s => exec m i next { s with kernel := s.kernel.scheduleTimer i after id }
  | .rng draw next, s => exec m i (next s.rng) { s with rng := draw s.rng }

def applyFaultCommand (m : Machine N G M P S) (s : Seeded N G M P S) : FaultCommand → Seeded N G M P S
  | .restart node =>
    let k := { s.kernel with faults := s.kernel.faults.restart node }.record fun time seq => .restart time seq node
    match k.nodes node with
    | none => { s with kernel := k }
    | some nd => exec m node (m.onRestart ⟨node, k.now, ()⟩ nd k.shared) { s with kernel := k }
  | cmd => { s with kernel := s.kernel.applyFaultCommand (m.decided .drop) cmd }

def dispatchTimer (m : Machine N G M P S) (node : NodeId) (timerId : TimerId) (seq : ℕ) (s : Seeded N G M P S) :
    Seeded N G M P S :=
  let k := s.kernel
  if k.faults.isCrashed node then
    { s with kernel := k.recordAs seq fun time seq => .timerDropped time seq node timerId }
  else match k.nodes node with
    | none => s
    | some nd =>
      exec m node (m.onTimer ⟨node, k.now, ()⟩ timerId nd k.shared)
        { s with kernel := k.recordAs seq fun time seq => .timerFired time seq node timerId }

def dispatchMessageArrival (m : Machine N G M P S) (id : MessageId) (seq : ℕ) (s : Seeded N G M P S) :
    Seeded N G M P S :=
  match s.kernel.inFlight.lookup id with
  | none => s
  | some envelope =>
    let k := { s.kernel with inFlight := s.kernel.inFlight.erase id }
    let src := envelope.info.src
    let dst := envelope.info.dst
    if k.faults.isCrashed dst then
      { s with kernel := k.recordAs seq fun time seq => .drop time seq id src dst .crashed }
    else if k.faults.isPartitioned src dst then
      { s with kernel := k.recordAs seq fun time seq => .drop time seq id src dst .partitionedAtArrival }
    else match k.nodes dst with
      | none => { s with kernel := { k with unclaimed := k.unclaimed ++ [id] } }
      | some nd =>
        exec m dst (m.onMessage ⟨dst, k.now, ()⟩ src envelope.payload nd k.shared)
          { s with kernel := k.recordAs seq fun time seq => .deliver time seq id src dst }

def handle (m : Machine N G M P S) (e : ScheduledEvent) (s : Seeded N G M P S) : Seeded N G M P S :=
  match e.kind with
  | .timer node timerId => s.dispatchTimer m node timerId e.seq
  | .messageArrival id => s.dispatchMessageArrival m id e.seq
  | .fault cmd => s.applyFaultCommand m cmd

/-- the first event is off the agenda, and the clock stands at it -/
def popped (e : ScheduledEvent) (queue : List ScheduledEvent) (s : Seeded N G M P S) : Seeded N G M P S :=
  { s with kernel := { s.kernel with now := e.time, queue := queue, dispatched := s.kernel.dispatched ++ [e] } }

/-- one turn of `run_until` -/
def dispatch (m : Machine N G M P S) (s : Seeded N G M P S) : Seeded N G M P S :=
  match s.kernel.queue with
  | [] => s
  | e :: queue => (s.popped e queue).handle m e

/-- `run_until` goes on: no callback has panicked, and the first event is not past `limit` -/
def due (limit : ℕ) (s : Seeded N G M P S) : Bool := !s.kernel.halted.isSome && s.kernel.due limit

/-- `run_until`, if it is over within `fuel` turns -/
def runUntil (m : Machine N G M P S) (limit fuel : ℕ) (s : Seeded N G M P S) : Option (Seeded N G M P S) :=
  EventLoop.runUntil due (dispatch m) limit fuel s

/-- a call of `run_until` at `s` returns with `s'` -/
def Returns (m : Machine N G M P S) (limit : ℕ) (s s' : Seeded N G M P S) : Prop :=
  ∃ fuel, s.runUntil m limit fuel = some s'

/-- calls of `run_until` up to each of the instants in order, with no other call in between, return with `s'` -/
def Drains (m : Machine N G M P S) : List ℕ → Seeded N G M P S → Seeded N G M P S → Prop
  | [], s, s' => s = s'
  | limit :: limits, s, s' => ∃ s₁, Returns m limit s s₁ ∧ Drains m limits s₁ s'

variable {m : Machine N G M P S} {s s' s₁ s₂ : Seeded N G M P S} {limit a b : ℕ}

theorem returns_iff : Returns m limit s s' ↔ EventLoop.Runs due (dispatch m) limit s s' :=
  EventLoop.runs_iff_runUntil.symm

theorem drains_iff {limits : List ℕ} : Drains m limits s s' ↔ EventLoop.Slices due (dispatch m) limits s s' := by
  induction limits generalizing s with
  | nil => exact Iff.rfl
  | cons limit limits ih => exact exists_congr fun s₁ => and_congr returns_iff ih

theorem due_later (a b : ℕ) (s : Seeded N G M P S) (hab : a ≤ b) (h : due a s = true) : due b s = true := by
  unfold due at h ⊢
  obtain ⟨hok, hdue⟩ := Bool.and_eq_true_iff.1 h
  rw [hok, Bool.true_and]
  exact due_mono hab hdue

/-! ## What a turn does to the agenda -/

/-- the clock stands, and what is new on the agenda is later -/
def Ahead (s s' : Seeded N G M P S) : Prop := s'.kernel.now = s.kernel.now ∧ Later s.kernel s'.kernel

theorem Ahead.trans (h : Ahead s s₁) (h' : Ahead s₁ s₂) : Ahead s s₂ :=
  ⟨h'.1.trans h.1, h.2.trans h'.2 h.1⟩

theorem Ahead.same (hnow : s'.kernel.now = s.kernel.now) (hqueue : s'.kernel.queue = s.kernel.queue) : Ahead s s' :=
  ⟨hnow, .same hqueue⟩

theorem Ahead.carried (h : Carried s.kernel s'.kernel) : Ahead s s' := ⟨h.now, h.later⟩

theorem send_ahead (src dst : NodeId) (payload : M) (s : Seeded N G M P S) : Ahead s (s.send m src dst payload) := by
  unfold send
  dsimp only
  split_ifs
  · exact .carried (send_carries _ src dst payload s.kernel)
  · exact .carried (send_carries _ src dst payload s.kernel)

theorem exec_ahead (i : NodeId) (p : Prog N G M P) (s : Seeded N G M P S) : Ahead s (exec m i p s) := by
  induction p generalizing s with
  | done nd g => exact .same rfl rfl
  | panic e => exact .same rfl rfl
  | send dst payload next ih => exact (send_ahead i dst payload s).trans (ih _)
  | timer after id next ih =>
    have harm : Ahead s { s with kernel := s.kernel.scheduleTimer i after id } :=
      .carried (scheduleTimer_carries i after id s.kernel)
    exact harm.trans (ih _)
  | rng draw next ih =>
    have hdraw : Ahead s { s with rng := draw s.rng } := .same rfl rfl
    exact hdraw.trans (ih s.rng _)

theorem applyFaultCommand_ahead (s : Seeded N G M P S) (cmd : FaultCommand) : Ahead s (s.applyFaultCommand m cmd) := by
  unfold applyFaultCommand
  split
  · dsimp only
    split
    · exact .same rfl rfl
    · exact Ahead.trans (.same rfl rfl) (exec_ahead ..)
  · have hturn := applyFaultCommand_turned (m.decided .drop) s.kernel cmd
    exact ⟨hturn.now, hturn.later⟩

theorem handle_ahead (e : ScheduledEvent) (s : Seeded N G M P S) : Ahead s (s.handle m e) := by
  unfold handle
  split
  · unfold dispatchTimer
    dsimp only
    split_ifs
    · exact .same rfl rfl
    · split
      · exact .same rfl rfl
      · exact Ahead.trans (.same rfl rfl) (exec_ahead ..)
  · unfold dispatchMessageArrival
    split
    · exact .same rfl rfl
    · dsimp only
      split_ifs
      · exact .same rfl rfl
      · exact .same rfl rfl
      · split
        · exact .same rfl rfl
        · exact Ahead.trans (.same rfl rfl) (exec_ahead ..)
  · exact applyFaultCommand_ahead s _

def times (s : Seeded N G M P S) : Multiset ℕ := ↑(s.kernel.queue.map (·.time))

/-- a turn takes the first event, and what it schedules is later -/
theorem dispatch_times (hlimit : limit < MAX) (h : due limit s = true) :
    ∃ t rest added, t ≤ limit ∧ times s = t ::ₘ rest ∧ times (s.dispatch m) = added + rest ∧ ∀ u ∈ added, t < u := by
  obtain ⟨e, queue, hq, hle⟩ := due_head (Bool.and_eq_true_iff.1 h).2
  have hdispatch : s.dispatch m = (s.popped e queue).handle m e := by
    unfold dispatch
    rw [hq]
  obtain ⟨-, fresh, hperm, hlater⟩ := handle_ahead (m := m) e (s.popped e queue)
  refine ⟨e.time, ↑(queue.map (·.time)), ↑(fresh.map (·.time)), hle, ?_, ?_, fun u hu => ?_⟩
  · unfold times
    rw [hq]
    rfl
  · unfold times
    rw [hdispatch, Multiset.coe_add, ← List.map_append]
    exact Multiset.coe_eq_coe.2 (hperm.map _)
  · obtain ⟨x, hx, rfl⟩ := List.mem_map.1 (Multiset.mem_coe.1 hu)
    exact hlater (hle.trans_lt hlimit) x hx

/-! ## Slices -/

/-- a call of `run_until` returns when the instant is before the end of the clock -/
theorem returns_of_lt (hlimit : limit < MAX) (s : Seeded N G M P S) : ∃ s', Returns m limit s s' := by
  have hturn := fun (s : Seeded N G M P S) (h : due limit s = true) => dispatch_times (m := m) hlimit h
  obtain ⟨s', h⟩ := EventLoop.soonest_terminates hturn s
  exact ⟨s', returns_iff.2 h⟩

/-- a call returns with one state at most -/
theorem Returns.unique (h₁ : Returns m limit s s₁) (h₂ : Returns m limit s s₂) : s₁ = s₂ :=
  EventLoop.Runs.unique (returns_iff.1 h₁) (returns_iff.1 h₂)

/-- **Slices of a run.** Draining the agenda up to one instant after another is one call up to the last of them. -/
theorem drained_in_slices (m : Machine N G M P S) (s : Seeded N G M P S) (instants : List ℕ) (last : ℕ)
    (hsorted : (instants ++ [last]).Pairwise (· ≤ ·)) :
    (∀ s', Drains m (instants ++ [last]) s s' ↔ Returns m last s s') ∧
      (∀ s₁ s₂, Returns m last s s₁ → Returns m last s s₂ → s₁ = s₂) ∧
      (last < MAX → ∃ s', Returns m last s s') := by
  have hle : ∀ a ∈ instants, a ≤ last := fun a ha =>
    (List.pairwise_append.1 hsorted).2.2 a ha last (List.mem_singleton_self _)
  refine ⟨fun s' => ?_, fun s₁ s₂ => Returns.unique, fun hlast => returns_of_lt hlast s⟩
  rw [drains_iff, returns_iff]
  exact EventLoop.slices_iff due_later hle

/-- a node that draws at every timer and sends the draw to itself; the scheduler draws the delay from the same stream -/
def echo : Machine Unit Unit ℕ ℕ ℕ where
  onMessage := fun _ _ payload nd g => .timer payload .hedge (.done nd g)
  onTimer := fun ctx _ nd g => .rng (5 * · + 3) fun draw => .send ctx.selfId draw (.done nd g)
  onRestart := fun _ nd g => .done nd g
  size := fun _ => 1
  decide := fun _ _ asked rng => (.deliver (rng % 4), asked + 1, 5 * rng + 3)

def echoing : Seeded Unit Unit ℕ ℕ ℕ where
  kernel := { (Kernel.new () : Kernel Unit Unit ℕ).scheduleTimer 0 1 .hedge with nodes := fun _ => some () }
  rng := 7
  scheduler := 0

theorem drained_in_slices_echo :
    (∀ s', Drains echo [2, 5, 5, 60] echoing s' ↔ Returns echo 60 echoing s') ∧ ∃ s', Returns echo 60 echoing s' := by
  have h := drained_in_slices echo echoing [2, 5, 5] 60 (by decide)
  exact ⟨h.1, h.2.2 (by decide)⟩

/-- the stream has been drawn from by the node and by the scheduler in turn -/
example : ((echoing.runUntil echo 60 10).map fun s => (s.kernel.now, s.rng, s.scheduler)) = some (11, 4843, 2) := by
  decide +kernel

end Seeded

end Queso.Sim
