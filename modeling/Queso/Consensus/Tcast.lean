/-
Threshold synchronous broadcast over the simulation kernel.

In a call every live replica disseminates its input. The sends of `min live` are repeated until every live replica has
its input; those of another sender only until the destination holds the inputs of a majority of all replicas. After each
batch the kernel runs until its agenda is empty.

`Delivers` is the contract: each live replica's `R` holds the inputs of a majority, and `B` is one live replica's input
and part of every `R`. `tcast_spec` says that a call meets it, or gives up after `MAX_TCAST_RETRIES` batches. What carries
the proof is that a call starts on an idle kernel, so nothing but its own inputs is ever in flight (`Carrying`), and that
a pair of replicas is dropped from the pending ones only when it is `Served`, which no later batch undoes.
-/
import Queso.Consensus.Proposal
import Queso.Sim.Accounting

namespace Queso.Algorithm

open Sim

variable {V : Type}

abbrev ProposalSet (V : Type) := Finset (Proposal V)

/-- the highest-priority proposal -/
def best [LinearOrder V] (set : ProposalSet V) : Option (Proposal V) := if h : set.Nonempty then some (set.max' h) else none

/-! ## A replica -/

/-- the mailbox of the call in progress, and the priority drawn for the round -/
structure ReplicaNode (V : Type) where
  received : AList fun _ : NodeId => ProposalSet V
  drawnPriority : Option UInt64

/-- `TimerId(0)` -/
abbrev DRAW_PRIORITY_TIMER : TimerId := .retry 0

namespace ReplicaNode

def new : ReplicaNode V := ⟨∅, none⟩

/-- the first set of a sender stays -/
def onMessage (src : NodeId) (set : ProposalSet V) (nd : ReplicaNode V) : ReplicaNode V :=
  match nd.received.lookup src with
  | some _ => nd
  | none => { nd with received := nd.received.insert src set }

def onTimer (draw : UInt64) (timerId : TimerId) (nd : ReplicaNode V) : ReplicaNode V :=
  if timerId = DRAW_PRIORITY_TIMER then { nd with drawnPriority := some draw } else nd

def onRestart (_ : ReplicaNode V) : ReplicaNode V := new

/-- a message is the sender's proposal set -/
def behaviour : Behaviour (ReplicaNode V) Unit (ProposalSet V) UInt64 where
  onMessage _ src set nd _ := .ok (nd.onMessage src set, (), [])
  onTimer ctx timerId nd _ := .ok (nd.onTimer ctx.rng timerId, (), [])
  onRestart _ nd _ := .ok (nd.onRestart, (), [])

end ReplicaNode

abbrev Net (V : Type) := Kernel (ReplicaNode V) Unit (ProposalSet V)

abbrev Link (V : Type) := Harness (ReplicaNode V) Unit (ProposalSet V) UInt64

/-- the kernel under any scheduler and any draws -/
def link (decide : Sim.Envelope (ProposalSet V) → SchedulerCtx → Decision) (rng : ℕ → UInt64) : Link V :=
  ⟨ReplicaNode.behaviour, Finset.card, decide, rng⟩

/-- `Kernel::run`: a turn takes one event and no callback schedules another, so the agenda's length is turns enough -/
def run (hn : Link V) (k : Net V) : Net V := (k.runUntil hn MAX k.queue.length).getD k

/-- what replica `i` has received in this call -/
def received (k : Net V) (i : NodeId) : AList fun _ : NodeId => ProposalSet V :=
  match k.nodes i with
  | none => ∅
  | some nd => nd.received

def drawn (k : Net V) (i : NodeId) : Option UInt64 := (k.nodes i).bind (·.drawnPriority)

/-! ## The call -/

def MAX_TCAST_RETRIES : ℕ := 500

inductive TcastPanic where
  /-- "tcast called without a live majority" -/
  | noLiveMajority
  /-- "tcast called with no live replicas" -/
  | noLiveReplicas
  /-- "tcast: missing input for live replica", or the replica has no mailbox -/
  | missingInput (id : NodeId)
  /-- "tcast failed to converge": the retries are exhausted -/
  | notConverged
deriving DecidableEq, Repr

/-- the inputs of a call, or the sets it returns, by replica -/
abbrev Sets (V : Type) := NodeId → Option (ProposalSet V)

structure TcastResult (V : Type) where
  r : Sets V
  b : ProposalSet V

/-- every live replica starts the call with its own input only -/
def seed (live : List NodeId) (inputs : Sets V) (k : Net V) : Net V :=
  { k with
    nodes := fun i =>
      if i ∈ live then (k.nodes i).map fun nd => { nd with received := AList.insert i ((inputs i).getD ∅) ∅ }
      else k.nodes i }

/-- the sends of a call -/
def pairs (live : List NodeId) : List (NodeId × NodeId) :=
  live.flatMap fun src => (live.filter (src ≠ ·)).map fun dst => (src, dst)

/-- `pending.retain`: not delivered, and not abandoned because `dst` has a majority without it -/
def retains (bSrc majorityThreshold : ℕ) (k : Net V) (pair : NodeId × NodeId) : Bool :=
  ((received k pair.2).lookup pair.1).isNone &&
    !(decide (pair.1 ≠ bSrc) && decide (majorityThreshold ≤ (received k pair.2).keys.length))

/-- one batch: every pending send once more, and the kernel runs until it is idle -/
def resend (hn : Link V) (inputs : Sets V) (pending : List (NodeId × NodeId)) (k : Net V) : Net V :=
  run hn (pending.foldl (fun k pair => k.send hn pair.1 pair.2 ((inputs pair.1).getD ∅)) k)

/-- the retry loop, with so many attempts left -/
def retry (hn : Link V) (inputs : Sets V) (bSrc majorityThreshold : ℕ) :
    ℕ → List (NodeId × NodeId) → Net V → Except TcastPanic (Net V)
  | attempts, pending, k =>
    let pending := pending.filter (retains bSrc majorityThreshold k)
    if pending.isEmpty then .ok k
    else match attempts with
      | 0 => .error .notConverged
      | attempts + 1 => retry hn inputs bSrc majorityThreshold attempts pending (resend hn inputs pending k)

/-- all that replica `i` has received -/
def union [DecidableEq V] (k : Net V) (i : NodeId) : ProposalSet V :=
  (received k i).keys.toFinset.biUnion fun src => ((received k i).lookup src).getD ∅

def tcast [DecidableEq V] (hn : Link V) (live : List NodeId) (totalReplicas : ℕ) (inputs : Sets V) (k : Net V) :
    Except TcastPanic (TcastResult V × Net V) :=
  if 2 * live.length ≤ totalReplicas then .error .noLiveMajority
  else match live.min? with
    | none => .error .noLiveReplicas
    | some bSrc =>
      match live.find? fun id => (inputs id).isNone || (k.nodes id).isNone with
      | some id => .error (.missingInput id)
      | none =>
        match retry hn inputs bSrc (totalReplicas / 2 + 1) MAX_TCAST_RETRIES (pairs live) (seed live inputs k) with
        | .error e => .error e
        | .ok k => .ok (⟨fun i => if i ∈ live then some (union k i) else none, (inputs bSrc).getD ∅⟩, k)

/-! ## What a turn does -/

theorem received_of {k : Net V} {i : NodeId} {nd : ReplicaNode V} (h : k.nodes i = some nd) :
    received k i = nd.received := by
  unfold received
  rw [h]

theorem drawn_of {k : Net V} {i : NodeId} {nd : ReplicaNode V} (h : k.nodes i = some nd) :
    drawn k i = nd.drawnPriority := by
  unfold drawn
  rw [h]
  rfl

/-- a message leaves what was received before it, and adds its own set at most -/
theorem onMessage_received {src src' : NodeId} {set set' : ProposalSet V} {nd : ReplicaNode V} :
    (nd.received.lookup src' = some set' → (nd.onMessage src set).received.lookup src' = some set') ∧
      ((nd.onMessage src set).received.lookup src' = some set' →
        nd.received.lookup src' = some set' ∨ src' = src ∧ set' = set) := by
  unfold ReplicaNode.onMessage
  cases hsrc : nd.received.lookup src with
  | some s => exact ⟨id, .inl⟩
  | none =>
    by_cases heq : src' = src
    · subst heq
      refine ⟨fun h => absurd h (by simp [hsrc]), fun h => .inr ⟨rfl, ?_⟩⟩
      simpa using h.symm
    · dsimp only
      rw [AList.lookup_insert_ne heq]
      exact ⟨id, .inl⟩

theorem onMessage_drawn (src : NodeId) (set : ProposalSet V) (nd : ReplicaNode V) :
    (nd.onMessage src set).drawnPriority = nd.drawnPriority := by
  unfold ReplicaNode.onMessage
  split <;> rfl

/-- a turn that is not a fault: mailboxes only grow, by what was in flight, and no drawn priority is lost -/
structure Turn (k k' : Net V) : Prop where
  queue : k'.queue = k.queue
  faults : k'.faults = k.faults
  halted : k'.halted = k.halted
  flying : ∀ id envelope, k'.inFlight.lookup id = some envelope → k.inFlight.lookup id = some envelope
  nodes : ∀ i, (k'.nodes i).isSome = (k.nodes i).isSome
  kept : ∀ i src set, (received k i).lookup src = some set → (received k' i).lookup src = some set
  fresh : ∀ i src set, (received k' i).lookup src = some set → (received k i).lookup src = some set ∨
    ∃ id envelope, k.inFlight.lookup id = some envelope ∧ envelope.info.src = src ∧ envelope.payload = set
  drawn : ∀ i, (drawn k i).isSome → (drawn k' i).isSome

variable {k k' k₀ : Net V}

/-- no callback ran -/
theorem Turn.idle (hqueue : k'.queue = k.queue) (hfaults : k'.faults = k.faults) (hhalted : k'.halted = k.halted)
    (hnodes : k'.nodes = k.nodes)
    (hfly : ∀ id envelope, k'.inFlight.lookup id = some envelope → k.inFlight.lookup id = some envelope) :
    Turn k k' where
  queue := hqueue
  faults := hfaults
  halted := hhalted
  flying := hfly
  nodes := fun i => by rw [hnodes]
  kept := fun i src set h => by unfold received at *; rwa [hnodes]
  fresh := fun i src set h => .inl (by unfold received at *; rwa [hnodes] at h)
  drawn := fun i h => by unfold Algorithm.drawn at *; rwa [hnodes]

/-- a callback ran at node `i`, after the kernel took note of the event -/
theorem Turn.called {hn : Link V} (h : Turn k k₀) {i : NodeId} {nd : ReplicaNode V} (nd' : ReplicaNode V)
    (hsame : k₀.nodes = k.nodes) (hnd : k.nodes i = some nd)
    (hkept : ∀ src set, nd.received.lookup src = some set → nd'.received.lookup src = some set)
    (hfresh : ∀ src set, nd'.received.lookup src = some set → nd.received.lookup src = some set ∨
      ∃ id envelope, k.inFlight.lookup id = some envelope ∧ envelope.info.src = src ∧ envelope.payload = set)
    (hdrawn : nd.drawnPriority.isSome → nd'.drawnPriority.isSome) :
    Turn k (k₀.perform hn i (.ok (nd', (), []))) := by
  have hat : (k₀.perform hn i (.ok (nd', (), []))).nodes i = some nd' := Function.update_self ..
  have helse : ∀ j, j ≠ i → (k₀.perform hn i (.ok (nd', (), []))).nodes j = k.nodes j := by
    intro j hj
    rw [← hsame]
    exact Function.update_of_ne hj ..
  refine
    { queue := h.queue
      faults := h.faults
      halted := h.halted
      flying := h.flying
      nodes := fun j => ?_
      kept := fun j src set hset => ?_
      fresh := fun j src set hset => ?_
      drawn := fun j hset => ?_ }
  all_goals by_cases hj : j = i
  · rw [hj, hat, hnd]
    rfl
  · rw [helse j hj]
  · rw [hj, received_of hnd] at hset
    rw [hj, received_of hat]
    exact hkept src set hset
  · unfold received at *
    rwa [helse j hj]
  · rw [hj, received_of hat] at hset
    rw [hj, received_of hnd]
    exact hfresh src set hset
  · unfold received at *
    rw [helse j hj] at hset
    exact .inl hset
  · rw [hj, drawn_of hnd] at hset
    rw [hj, drawn_of hat]
    exact hdrawn hset
  · unfold Algorithm.drawn at *
    rwa [helse j hj]

variable (scheduler : Sim.Envelope (ProposalSet V) → SchedulerCtx → Decision) (rng : ℕ → UInt64)

theorem dispatchTimer_turn (node : NodeId) (timerId : TimerId) (seq : ℕ) (k : Net V) :
    Turn k (k.dispatchTimer (link scheduler rng) node timerId seq) := by
  unfold Kernel.dispatchTimer
  split_ifs
  · exact .idle rfl rfl rfl rfl fun _ _ h => h
  cases hnd : k.nodes node with
  | none => exact .idle rfl rfl rfl rfl fun _ _ h => h
  | some nd =>
    have hnoted : Turn k (k.recordAs seq fun time seq => .timerFired time seq node timerId) :=
      .idle rfl rfl rfl rfl fun _ _ h => h
    refine hnoted.called (nd.onTimer (rng seq) timerId) rfl hnd ?_ ?_ ?_
    all_goals unfold ReplicaNode.onTimer
    · intro src set h
      split_ifs <;> exact h
    · intro src set h
      split_ifs at h <;> exact .inl h
    · intro h
      split_ifs
      · rfl
      · exact h

theorem dispatchMessageArrival_turn (id : MessageId) (seq : ℕ) (k : Net V) :
    Turn k (k.dispatchMessageArrival (link scheduler rng) id seq) := by
  have herase : ∀ id' envelope, (k.inFlight.erase id).lookup id' = some envelope →
      k.inFlight.lookup id' = some envelope := by
    intro id' envelope h
    by_cases heq : id' = id
    · rw [heq, AList.lookup_erase] at h
      cases h
    · rwa [AList.lookup_erase_ne heq] at h
  unfold Kernel.dispatchMessageArrival
  cases henv : k.inFlight.lookup id with
  | none => exact .idle rfl rfl rfl rfl fun _ _ h => h
  | some envelope =>
    dsimp only
    split_ifs
    · exact .idle rfl rfl rfl rfl herase
    · exact .idle rfl rfl rfl rfl herase
    cases hnd : k.nodes envelope.info.dst with
    | none => exact .idle rfl rfl rfl rfl herase
    | some nd =>
      have hnoted : Turn k ({ k with inFlight := k.inFlight.erase id }.recordAs seq fun time seq =>
          .deliver time seq id envelope.info.src envelope.info.dst) := .idle rfl rfl rfl rfl herase
      refine hnoted.called (nd.onMessage envelope.info.src envelope.payload) rfl hnd
        (fun src set h => onMessage_received.1 h) (fun src set h => ?_) (fun h => ?_)
      · rcases onMessage_received.2 h with h | ⟨hsrc, hset⟩
        · exact .inl h
        · exact .inr ⟨id, envelope, henv, hsrc.symm, hset.symm⟩
      · rwa [onMessage_drawn]

/-! ## Running until the agenda is empty -/

/-- the kernel while only messages of this call are in flight: `Ok src set` says that `set` is what `src` sends in it -/
structure Carrying (Ok : NodeId → ProposalSet V → Prop) (live : List NodeId) (k : Net V) : Prop where
  sound : Sim.Sound k
  running : k.halted = none
  calm : ∀ e ∈ k.queue, ∀ cmd, e.kind ≠ .fault cmd
  up : ∀ i ∈ live, k.faults.isCrashed i = false ∧ (k.nodes i).isSome
  flying : ∀ id envelope, k.inFlight.lookup id = some envelope → Ok envelope.info.src envelope.payload
  mail : ∀ i ∈ live, ∀ src set, (received k i).lookup src = some set → Ok src set

/-- mailboxes only grow, and no node goes -/
structure Kept (k k' : Net V) : Prop where
  nodes : ∀ i, (k'.nodes i).isSome = (k.nodes i).isSome
  mail : ∀ i src set, (received k i).lookup src = some set → (received k' i).lookup src = some set

theorem Kept.refl (k : Net V) : Kept k k := ⟨fun _ => rfl, fun _ _ _ h => h⟩

theorem Kept.trans {k'' : Net V} (h : Kept k k') (h' : Kept k' k'') : Kept k k'' :=
  ⟨fun i => (h'.nodes i).trans (h.nodes i), fun i src set hset => h'.mail i src set (h.mail i src set hset)⟩

theorem Kept.of_nodes (h : k'.nodes = k.nodes) : Kept k k' :=
  ⟨fun i => by rw [h], fun i src set hset => by unfold received at *; rwa [h]⟩

/-- between two batches: nothing is in flight and nothing is on the agenda -/
structure Idle (live : List NodeId) (k : Net V) : Prop where
  sound : Sim.Sound k
  running : k.halted = none
  empty : k.queue = []
  quiet : ∀ id, k.inFlight.lookup id = none
  up : ∀ i ∈ live, k.faults.isCrashed i = false ∧ (k.nodes i).isSome

variable {Ok : NodeId → ProposalSet V → Prop} {live : List NodeId}

/-- with an event taken from its agenda -/
def taking (k : Net V) (e : ScheduledEvent) (queue : List ScheduledEvent) : Net V :=
  { k with now := e.time, queue := queue, dispatched := k.dispatched ++ [e] }

theorem dispatch_of_cons {hn : Link V} {e : ScheduledEvent} {queue : List ScheduledEvent} (hq : k.queue = e :: queue) :
    k.dispatch hn = (taking k e queue).handle hn e := by
  unfold Kernel.dispatch
  rw [hq]
  rfl

theorem taking_turn {e : ScheduledEvent} {queue : List ScheduledEvent} (hcalm : ∀ cmd, e.kind ≠ .fault cmd) :
    Turn (taking k e queue) ((taking k e queue).handle (link scheduler rng) e) := by
  unfold Kernel.handle
  cases hkind : e.kind with
  | timer node timerId => exact dispatchTimer_turn scheduler rng ..
  | messageArrival id => exact dispatchMessageArrival_turn scheduler rng ..
  | fault cmd => exact absurd hkind (hcalm cmd)

/-- **One turn of the event loop.** -/
theorem Carrying.dispatch (h : Carrying Ok live k) :
    Carrying Ok live (k.dispatch (link scheduler rng)) ∧ Kept k (k.dispatch (link scheduler rng)) := by
  cases hq : k.queue with
  | nil =>
    have hsame : k.dispatch (link scheduler rng) = k := by
      unfold Kernel.dispatch
      rw [hq]
    rw [hsame]
    exact ⟨h, .refl k⟩
  | cons e queue =>
    have hsound := dispatch_sound h.sound (link scheduler rng)
    have ht : Turn (taking k e queue) ((taking k e queue).handle (link scheduler rng) e) :=
      taking_turn scheduler rng (h.calm e (by rw [hq]; exact List.mem_cons_self))
    rw [dispatch_of_cons hq] at hsound ⊢
    refine ⟨?_, ht.nodes, ht.kept⟩
    exact
      { sound := hsound
        running := ht.halted.trans h.running
        calm := fun x hx => h.calm x (by
          rw [hq]
          rw [ht.queue] at hx
          exact List.mem_cons_of_mem _ hx)
        up := fun i hi => ⟨by rw [ht.faults]; exact (h.up i hi).1, (ht.nodes i).trans (h.up i hi).2⟩
        flying := fun id envelope henv => h.flying id envelope (ht.flying id envelope henv)
        mail := fun i hi src set hset => by
          rcases ht.fresh i src set hset with hold | ⟨id, envelope, henv, rfl, rfl⟩
          · exact h.mail i hi src set hold
          · exact h.flying id envelope henv }

/-- a callback of a replica schedules nothing -/
theorem dispatch_queue (k : Net V) : (k.dispatch (link scheduler rng)).queue = k.queue.tail := by
  cases hq : k.queue with
  | nil =>
    unfold Kernel.dispatch
    rw [hq]
    exact hq
  | cons e queue =>
    rw [dispatch_of_cons hq]
    unfold Kernel.handle
    cases e.kind with
    | timer node timerId => exact (dispatchTimer_turn scheduler rng ..).queue
    | messageArrival id => exact (dispatchMessageArrival_turn scheduler rng ..).queue
    | fault cmd =>
      cases cmd with
      | restart node =>
        dsimp only [Kernel.applyFaultCommand]
        split <;> rfl
      | crash node => rfl
      | partition a b => rfl
      | heal => rfl
      | slowNode node multiplier => rfl
      | clearSlow node => rfl

/-- **`run` returns**: as many turns as there are events on the agenda are enough. -/
theorem run_returns (k : Net V) :
    k.runUntil (link scheduler rng) MAX k.queue.length = some (run (link scheduler rng) k) := by
  have hreturns : ∀ fuel (k : Net V), k.queue.length = fuel →
      ∃ k', k.runUntil (link scheduler rng) MAX fuel = some k' := by
    intro fuel
    induction fuel with
    | zero =>
      intro k hlen
      have hidle : k.due MAX = false := by
        unfold Kernel.due
        rw [List.length_eq_zero_iff.1 hlen]
      exact ⟨k, by unfold Kernel.runUntil; simp [hidle]⟩
    | succ fuel ih =>
      intro k hlen
      unfold Kernel.runUntil
      split_ifs
      · exact ⟨k, rfl⟩
      · apply ih
        rw [dispatch_queue, List.length_tail, hlen]
        rfl
  obtain ⟨k', hk'⟩ := hreturns _ k rfl
  unfold run
  rw [hk']
  rfl

/-- **A batch runs to its end**: the agenda is empty, nothing is in flight, and mailboxes hold what they held. -/
theorem Carrying.run (h : Carrying Ok live k) :
    Carrying Ok live (run (link scheduler rng) k) ∧ Kept k (run (link scheduler rng) k) ∧
      Idle live (run (link scheduler rng) k) := by
  have hend := runUntil_ends (run_returns scheduler rng k)
  obtain ⟨hcarry, hkept⟩ := runUntil_invariant (I := fun x => Carrying Ok live x ∧ Kept k x) (link scheduler rng)
    (fun x hx _ _ => ⟨(hx.1.dispatch scheduler rng).1, hx.2.trans (hx.1.dispatch scheduler rng).2⟩) ⟨h, .refl k⟩ (run_returns scheduler rng k)
  have hempty : (Algorithm.run (link scheduler rng) k).queue = [] := by
    apply List.eq_nil_iff_forall_not_mem.2
    intro e he
    have hpast := not_due hcarry.sound (hend.resolve_left fun hne => hne hcarry.running) e he
    exact absurd (hcarry.sound.times e he) (not_le.2 hpast)
  refine ⟨hcarry, hkept, hcarry.sound, hcarry.running, hempty, fun id => ?_, hcarry.up⟩
  -- a message in flight has its arrival on the agenda
  apply Option.not_isSome_iff_eq_none.1
  intro hfly
  have harrivals := congrArg Tally.arrivals ((hcarry.sound.accounted id).flying hfly).2.2
  unfold Kernel.tally at harrivals
  dsimp only at harrivals
  rw [hempty] at harrivals
  cases harrivals

/-! ## Sending a batch -/

theorem Carrying.send (h : Carrying Ok live k) (hn : Link V) {src : NodeId} (dst : NodeId) {set : ProposalSet V}
    (hok : Ok src set) : Carrying Ok live (k.send hn src dst set) ∧ (k.send hn src dst set).nodes = k.nodes := by
  have hsound := send_sound h.sound hn src dst set
  unfold Kernel.send at hsound ⊢
  dsimp only at hsound ⊢
  split_ifs at hsound ⊢
  · exact ⟨⟨hsound, h.running, h.calm, h.up, h.flying, h.mail⟩, rfl⟩
  · exact ⟨⟨hsound, h.running, h.calm, h.up, h.flying, h.mail⟩, rfl⟩
  split at hsound
  · next delay hdecide =>
    refine ⟨⟨hsound, h.running, fun e he cmd => ?_, h.up, fun id envelope henv => ?_, h.mail⟩, rfl⟩
    · rcases Agenda.mem_schedule.1 he with rfl | he
      · exact EventKind.noConfusion
      · exact h.calm e he cmd
    · dsimp only at henv
      by_cases hid : id = k.nextMessageId
      · rw [hid, AList.lookup_insert] at henv
        obtain rfl := Option.some.inj henv
        exact hok
      · rw [AList.lookup_insert_ne hid] at henv
        exact h.flying id envelope henv
  · next hdecide =>
    exact ⟨⟨hsound, h.running, h.calm, h.up, h.flying, h.mail⟩, rfl⟩

variable {inputs : Sets V}

/-- a batch of sends of the call's inputs -/
theorem Carrying.sends (h : Carrying Ok live k) (hn : Link V) {pending : List (NodeId × NodeId)}
    (hok : ∀ pair ∈ pending, Ok pair.1 ((inputs pair.1).getD ∅)) :
    Carrying Ok live (pending.foldl (fun k pair => k.send hn pair.1 pair.2 ((inputs pair.1).getD ∅)) k) ∧
      (pending.foldl (fun k pair => k.send hn pair.1 pair.2 ((inputs pair.1).getD ∅)) k).nodes = k.nodes := by
  induction pending generalizing k with
  | nil => exact ⟨h, rfl⟩
  | cons pair pending ih =>
    obtain ⟨hfirst, hnodes⟩ := h.send hn pair.2 (hok pair List.mem_cons_self)
    obtain ⟨hrest, hnodes'⟩ := ih hfirst fun x hx => hok x (List.mem_cons_of_mem _ hx)
    exact ⟨hrest, hnodes'.trans hnodes⟩

theorem Carrying.resend (h : Carrying Ok live k) {pending : List (NodeId × NodeId)}
    (hok : ∀ pair ∈ pending, Ok pair.1 ((inputs pair.1).getD ∅)) :
    Carrying Ok live (resend (link scheduler rng) inputs pending k) ∧
      Kept k (resend (link scheduler rng) inputs pending k) ∧
      Idle live (resend (link scheduler rng) inputs pending k) := by
  obtain ⟨hsent, hnodes⟩ := h.sends (link scheduler rng) hok
  obtain ⟨hcarry, hkept, hidle⟩ := hsent.run scheduler rng
  exact ⟨hcarry, (Kept.of_nodes hnodes).trans hkept, hidle⟩

/-! ## The retry loop -/

variable {bSrc majorityThreshold : ℕ}

/-- the destination has the sender's input, or a majority without it; the latter never for `bSrc` -/
def Served (bSrc majorityThreshold : ℕ) (k : Net V) (pair : NodeId × NodeId) : Prop :=
  ((received k pair.2).lookup pair.1).isSome ∨
    pair.1 ≠ bSrc ∧ majorityThreshold ≤ (received k pair.2).keys.length

theorem served_of_dropped {pair : NodeId × NodeId} (h : ¬retains bSrc majorityThreshold k pair) :
    Served bSrc majorityThreshold k pair := by
  unfold retains at h
  unfold Served
  cases hset : (received k pair.2).lookup pair.1 with
  | some set => exact .inl rfl
  | none =>
    right
    simpa [hset] using h

theorem length_keys_of_kept {m m' : AList fun _ : NodeId => ProposalSet V}
    (h : ∀ src set, m.lookup src = some set → m'.lookup src = some set) : m.keys.length ≤ m'.keys.length := by
  have hsub : m.keys ⊆ m'.keys := by
    intro src hsrc
    obtain ⟨set, hset⟩ := Option.isSome_iff_exists.1 (AList.lookup_isSome.2 hsrc)
    exact AList.lookup_isSome.1 (by rw [h src set hset]; rfl)
  exact (m.nodupKeys.subperm hsub).length_le

/-- no batch undoes it -/
theorem Served.kept {pair : NodeId × NodeId} (h : Served bSrc majorityThreshold k pair) (hk : Kept k k') :
    Served bSrc majorityThreshold k' pair := by
  rcases h with h | ⟨hsrc, hlen⟩
  · obtain ⟨set, hset⟩ := Option.isSome_iff_exists.1 h
    exact .inl (by rw [hk.mail _ _ _ hset]; rfl)
  · exact .inr ⟨hsrc, hlen.trans (length_keys_of_kept fun src set => hk.mail pair.2 src set)⟩

/-- what the filter drops is served -/
theorem pending_or_served {all pending : List (NodeId × NodeId)}
    (h : ∀ pair ∈ all, pair ∈ pending ∨ Served bSrc majorityThreshold k pair) : ∀ pair ∈ all,
      pair ∈ pending.filter (retains bSrc majorityThreshold k) ∨ Served bSrc majorityThreshold k pair := by
  intro pair hpair
  by_cases hkeep : retains bSrc majorityThreshold k pair = true
  · rcases h pair hpair with hmem | hserved
    · exact .inl (List.mem_filter.2 ⟨hmem, hkeep⟩)
    · exact .inr hserved
  · exact .inr (served_of_dropped hkeep)

theorem served_of_empty {all pending : List (NodeId × NodeId)}
    (h : ∀ pair ∈ all, pair ∈ pending ∨ Served bSrc majorityThreshold k pair)
    (hnil : (pending.filter (retains bSrc majorityThreshold k)).isEmpty) :
    ∀ pair ∈ all, Served bSrc majorityThreshold k pair := by
  intro pair hpair
  rcases pending_or_served h pair hpair with hmem | hserved
  · rw [List.isEmpty_iff.1 hnil] at hmem
    cases hmem
  · exact hserved

/-- **The retry loop** gives up, or ends on an idle kernel with every pair served. -/
theorem retry_spec (attempts : ℕ) {all pending : List (NodeId × NodeId)} (h : Carrying Ok live k) (hidle : Idle live k)
    (hok : ∀ pair ∈ all, Ok pair.1 ((inputs pair.1).getD ∅)) (hsub : ∀ pair ∈ pending, pair ∈ all)
    (hserved : ∀ pair ∈ all, pair ∈ pending ∨ Served bSrc majorityThreshold k pair) :
    retry (link scheduler rng) inputs bSrc majorityThreshold attempts pending k = .error .notConverged ∨
      ∃ k', retry (link scheduler rng) inputs bSrc majorityThreshold attempts pending k = .ok k' ∧
        Carrying Ok live k' ∧ Idle live k' ∧ Kept k k' ∧ ∀ pair ∈ all, Served bSrc majorityThreshold k' pair := by
  induction attempts generalizing pending k with
  | zero =>
    unfold retry
    dsimp only
    split_ifs with hnil
    · exact .inr ⟨k, rfl, h, hidle, .refl k, served_of_empty hserved hnil⟩
    · exact .inl rfl
  | succ attempts ih =>
    unfold retry
    dsimp only
    split_ifs with hnil
    · exact .inr ⟨k, rfl, h, hidle, .refl k, served_of_empty hserved hnil⟩
    · have hsub' : ∀ pair ∈ pending.filter (retains bSrc majorityThreshold k), pair ∈ all := fun pair hpair =>
        hsub pair (List.mem_of_mem_filter hpair)
      obtain ⟨hcarry, hkept, hidle'⟩ := h.resend scheduler rng
        fun pair hpair => hok pair (hsub' pair hpair)
      have hserved' := fun pair hpair => (pending_or_served hserved pair hpair).imp_right (·.kept hkept)
      rcases ih hcarry hidle' hsub' hserved' with hfail | ⟨k', hk', hcarry', hidle'', hkept', hall⟩
      · exact .inl hfail
      · exact .inr ⟨k', hk', hcarry', hidle'', hkept.trans hkept', hall⟩

/-! ## The contract -/

/-- what a call returns -/
structure Delivers (live : List NodeId) (totalReplicas : ℕ) (inputs : Sets V) (res : TcastResult V) : Prop where
  majority : ∀ i ∈ live, ∃ r, res.r i = some r ∧
    ∃ S : Finset NodeId, totalReplicas < 2 * S.card ∧ ∀ j ∈ S, j ∈ live ∧ ∃ P, inputs j = some P ∧ P ⊆ r
  universal : ∃ j ∈ live, inputs j = some res.b ∧ ∀ i ∈ live, ∀ r, res.r i = some r → res.b ⊆ r
  genuine : ∀ i ∈ live, ∀ r, res.r i = some r → ∀ p ∈ r, ∃ j ∈ live, ∃ P, inputs j = some P ∧ p ∈ P

/-- a set that a replica sends in this call -/
def Sends (live : List NodeId) (inputs : Sets V) (src : NodeId) (set : ProposalSet V) : Prop :=
  src ∈ live ∧ inputs src = some set

theorem mem_pairs {src dst : NodeId} : (src, dst) ∈ pairs live ↔ src ∈ live ∧ dst ∈ live ∧ src ≠ dst := by
  unfold pairs
  simp only [List.mem_flatMap, List.mem_map, List.mem_filter, decide_eq_true_eq, Prod.mk.injEq]
  constructor
  · rintro ⟨a, ha, b, ⟨hb, hne⟩, rfl, rfl⟩
    exact ⟨ha, hb, hne⟩
  · rintro ⟨hs, hd, hne⟩
    exact ⟨src, hs, dst, ⟨hd, hne⟩, rfl, rfl⟩

theorem received_seed {i : NodeId} (hi : i ∈ live) (hnd : (k.nodes i).isSome) :
    received (seed live inputs k) i = AList.insert i ((inputs i).getD ∅) ∅ := by
  obtain ⟨nd, hnd⟩ := Option.isSome_iff_exists.1 hnd
  unfold received seed
  dsimp only
  rw [if_pos hi, hnd]
  rfl

theorem nodes_seed (i : NodeId) : ((seed live inputs k).nodes i).isSome = (k.nodes i).isSome := by
  unfold seed
  dsimp only
  split_ifs
  · exact Option.isSome_map
  · rfl

/-- a call starts with the inputs of the replicas at home and nothing in flight -/
theorem seed_spec (h : Idle live k) (hin : ∀ i ∈ live, (inputs i).isSome) :
    Carrying (Sends live inputs) live (seed live inputs k) ∧ Idle live (seed live inputs k) := by
  have hsound : Sim.Sound (seed live inputs k) := h.sound.frame _ k.shared k.leader k.halted
  have hup : ∀ i ∈ live, (seed live inputs k).faults.isCrashed i = false ∧ ((seed live inputs k).nodes i).isSome :=
    fun i hi => ⟨(h.up i hi).1, by rw [nodes_seed]; exact (h.up i hi).2⟩
  refine ⟨?_, hsound, h.running, h.empty, h.quiet, hup⟩
  refine
    { sound := hsound
      running := h.running
      calm := fun e he => ?_
      up := hup
      flying := fun id envelope henv => ?_
      mail := fun i hi src set hset => ?_ }
  · have hempty : (seed live inputs k).queue = [] := h.empty
    rw [hempty] at he
    cases he
  · have hnone : (seed live inputs k).inFlight.lookup id = none := h.quiet id
    rw [hnone] at henv
    cases henv
  · obtain ⟨P, hP⟩ := Option.isSome_iff_exists.1 (hin i hi)
    rw [received_seed hi (h.up i hi).2, hP] at hset
    by_cases hsrc : src = i
    · rw [hsrc, AList.lookup_insert] at hset
      rw [hsrc]
      exact ⟨hi, hP.trans hset⟩
    · rw [AList.lookup_insert_ne hsrc] at hset
      cases hset

/-- when every send is served, a replica holds the inputs of a majority -/
theorem majority_of_served {i : NodeId} {totalReplicas : ℕ} (hi : i ∈ live) (hlive : live.Nodup)
    (hmajority : totalReplicas < 2 * live.length) (hself : ((received k i).lookup i).isSome)
    (hserved : ∀ pair ∈ pairs live, Served bSrc (totalReplicas / 2 + 1) k pair) :
    totalReplicas < 2 * (received k i).keys.length := by
  by_cases hall : ∀ src ∈ live, ((received k i).lookup src).isSome
  · have hsub : live ⊆ (received k i).keys := fun src hsrc => AList.lookup_isSome.1 (hall src hsrc)
    have := (hlive.subperm hsub).length_le
    omega
  · push Not at hall
    obtain ⟨src, hsrc, hmissing⟩ := hall
    have hne : src ≠ i := fun heq => hmissing (by rw [heq]; exact hself)
    rcases hserved (src, i) (mem_pairs.2 ⟨hsrc, hi, hne⟩) with hgot | ⟨-, hlen⟩
    · exact absurd hgot hmissing
    · dsimp only at hlen
      omega

variable [DecidableEq V]

theorem mem_union {i : NodeId} {p : Proposal V} :
    p ∈ union k i ↔ ∃ src set, (received k i).lookup src = some set ∧ p ∈ set := by
  unfold union
  simp only [Finset.mem_biUnion, List.mem_toFinset]
  constructor
  · rintro ⟨src, hsrc, hp⟩
    obtain ⟨set, hset⟩ := Option.isSome_iff_exists.1 (AList.lookup_isSome.2 hsrc)
    rw [hset] at hp
    exact ⟨src, set, hset, hp⟩
  · rintro ⟨src, set, hset, hp⟩
    exact ⟨src, AList.lookup_isSome.1 (by rw [hset]; rfl), by rw [hset]; exact hp⟩

/-- what the mailboxes hold when every send is served -/
theorem delivers_of_served {totalReplicas : ℕ} (h : Carrying (Sends live inputs) live k) (hlive : live.Nodup)
    (hmajority : totalReplicas < 2 * live.length) (hbSrc : bSrc ∈ live)
    (hself : ∀ i ∈ live, ((received k i).lookup i).isSome)
    (hserved : ∀ pair ∈ pairs live, Served bSrc (totalReplicas / 2 + 1) k pair) :
    Delivers live totalReplicas inputs
      ⟨fun i => if i ∈ live then some (union k i) else none, (inputs bSrc).getD ∅⟩ := by
  have hr : ∀ i ∈ live, ∀ r, (if i ∈ live then some (union k i) else none) = some r → r = union k i := by
    intro i hi r heq
    rw [if_pos hi] at heq
    exact (Option.some.inj heq).symm
  have hpart : ∀ i ∈ live, ∀ src, ((received k i).lookup src).isSome →
      src ∈ live ∧ ∃ P, inputs src = some P ∧ P ⊆ union k i := by
    intro i hi src hsrc
    obtain ⟨P, hP⟩ := Option.isSome_iff_exists.1 hsrc
    obtain ⟨hlive, hinput⟩ := h.mail i hi src P hP
    exact ⟨hlive, P, hinput, fun p hp => mem_union.2 ⟨src, P, hP, hp⟩⟩
  refine
    { majority := fun i hi => ⟨union k i, if_pos hi, (received k i).keys.toFinset, ?_, fun j hj => ?_⟩
      universal := ⟨bSrc, hbSrc, ?_, fun i hi r hri => ?_⟩
      genuine := fun i hi r hri p hp => ?_ }
  · rw [List.toFinset_card_of_nodup (AList.keys_nodup _)]
    exact majority_of_served hi hlive hmajority (hself i hi) hserved
  · exact hpart i hi j (AList.lookup_isSome.2 (List.mem_toFinset.1 hj))
  · obtain ⟨-, P, hP, -⟩ := hpart bSrc hbSrc bSrc (hself bSrc hbSrc)
    rw [hP]
    rfl
  · -- the sends of `bSrc` are never abandoned
    have hgot : ((received k i).lookup bSrc).isSome := by
      by_cases heq : bSrc = i
      · rw [heq]
        exact hself i hi
      · rcases hserved (bSrc, i) (mem_pairs.2 ⟨hbSrc, hi, heq⟩) with hgot | ⟨hne, -⟩
        · exact hgot
        · exact absurd rfl hne
    obtain ⟨-, P, hP, hsub⟩ := hpart i hi bSrc hgot
    rw [hr i hi r hri, hP]
    exact hsub
  · rw [hr i hi r hri] at hp
    obtain ⟨src, set, hset, hmem⟩ := mem_union.1 hp
    obtain ⟨hsrc, hinput⟩ := h.mail i hi src set hset
    exact ⟨src, hsrc, set, hinput, hmem⟩

/-- **`tcast` meets its contract**, or its retries are exhausted. -/
theorem tcast_spec {totalReplicas : ℕ} (h : Idle live k) (hlive : live.Nodup)
    (hmajority : totalReplicas < 2 * live.length) (hin : ∀ i ∈ live, (inputs i).isSome) :
    tcast (link scheduler rng) live totalReplicas inputs k = .error .notConverged ∨
      ∃ res k', tcast (link scheduler rng) live totalReplicas inputs k = .ok (res, k') ∧
        Delivers live totalReplicas inputs res ∧ Idle live k' ∧ ∀ i, (k'.nodes i).isSome = (k.nodes i).isSome := by
  obtain ⟨bSrc, hmin⟩ : ∃ bSrc, live.min? = some bSrc := by
    apply Option.isSome_iff_exists.1
    obtain ⟨i, hi⟩ := List.exists_mem_of_length_pos (l := live) (by omega)
    exact List.isSome_min?_of_mem hi
  have hbSrc : bSrc ∈ live := List.min?_mem hmin
  have hall : live.find? (fun id => (inputs id).isNone || (k.nodes id).isNone) = none := by
    apply List.find?_eq_none.2
    intro i hi
    simp [Option.isSome_iff_ne_none.1 (hin i hi), Option.isSome_iff_ne_none.1 (h.up i hi).2]
  have hok : ∀ pair ∈ pairs live, Sends live inputs pair.1 ((inputs pair.1).getD ∅) := by
    intro pair hpair
    have hsrc := (mem_pairs.1 hpair).1
    obtain ⟨P, hP⟩ := Option.isSome_iff_exists.1 (hin pair.1 hsrc)
    exact ⟨hsrc, by rw [hP]; rfl⟩
  obtain ⟨hcarry, hidle⟩ := seed_spec h hin
  unfold tcast
  rw [if_neg (by omega), hmin]
  dsimp only
  rw [hall]
  dsimp only
  rcases retry_spec scheduler rng MAX_TCAST_RETRIES hcarry hidle hok (fun _ hpair => hpair)
    (fun _ hpair => .inl hpair) with
    hfail | ⟨k', hk', hcarry', hidle', hkept, hserved⟩
  · rw [hfail]
    exact .inl rfl
  · rw [hk']
    refine .inr ⟨_, _, rfl, ?_, hidle', fun i => (hkept.nodes i).trans (nodes_seed i)⟩
    refine delivers_of_served hcarry' hlive hmajority hbSrc (fun i hi => ?_) hserved
    have hown : (received (seed live inputs k) i).lookup i = some ((inputs i).getD ∅) := by
      rw [received_seed hi (h.up i hi).2, AList.lookup_insert]
    rw [hkept.mail i i _ hown]
    rfl

end Queso.Algorithm
