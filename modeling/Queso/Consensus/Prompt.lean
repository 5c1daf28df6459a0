/-
One slot with a leader on a punctual network: where every replica stands, from turn to turn.

`ConcreteCluster` is the driver of one slot on the simulation kernel. `run_slot` kicks off every live replica at once; the
leader begins round 1 there and then and tags its proposal with `H`, and a replica with an activation delay waits it
out. Where messages arrive within `D` ticks and every other delay is `D` or more, the leader's request is the first that
each live recorder sees, and no replica ever leaves the first step.

The invariant is `Prompt`. It says of each live replica where it stands (`Stage`): while it waits for replies, every live
recorder's is in, or on its way, or the request is, and each of them is due in time. `Prompt.due` is the step lemma.
-/
import Queso.Consensus.Panics
import Queso.Sim.Punctual

namespace Queso

open Sim

variable {V : Type}

/-! ## The driver -/

structure ConcreteCluster (V : Type) where
  kernel : Kernel (ReplicaNode V) Unit (ConcreteMsg V)
  /-- in ascending order -/
  live : List NodeId

namespace ConcreteCluster

/-- what the scheduler decides and the generator yields -/
structure Chance (V : Type) where
  decide : Sim.Envelope (ConcreteMsg V) → SchedulerCtx → Decision
  rng : ℕ → NodeId → Draw

def newWithDelays (initialValues : Concrete.ByReplica V) (leader : Option NodeId)
    (activationDelays : Concrete.ByReplica ℕ) : ConcreteCluster V where
  kernel :=
    { (Kernel.new () : Kernel (ReplicaNode V) Unit (ConcreteMsg V)).setLeader leader with
      nodes := (Concrete.newWithDelays initialValues leader activationDelays).nodes }
  live := initialValues.keys.insertionSort (· ≤ ·)

/-- this replica's decision, if it has delivered one -/
def decided (c : ConcreteCluster V) (i : NodeId) : Option V := (c.kernel.nodes i).bind fun nd => nd.proposer.decided

def decidedViaFastPath (c : ConcreteCluster V) (i : NodeId) : Bool :=
  (c.kernel.nodes i).any fun nd => nd.proposer.decidedViaFastPath

/-- whether this replica's proposer has ever sent a request -/
def activated (c : ConcreteCluster V) (i : NodeId) : Bool := (c.kernel.nodes i).any fun nd => nd.proposer.activated

/-- requests and responses alike -/
def messageCount (c : ConcreteCluster V) : ℕ := c.kernel.messageCount

variable [LinearOrder V]

/-- requests and responses both have size one -/
def Chance.harness (ch : Chance V) : Harness (ReplicaNode V) Unit (ConcreteMsg V) (NodeId → Draw) where
  behaviour := ReplicaNode.behaviour
  size := fun _ => 1
  decide := ch.decide
  rng := ch.rng

def crash (ch : Chance V) (c : ConcreteCluster V) (id : NodeId) : ConcreteCluster V where
  kernel := c.kernel.applyFaultCommand ch.harness (.crash id)
  live := c.live.erase id

/-- kick off every live replica -/
def kicked (c : ConcreteCluster V) : Kernel (ReplicaNode V) Unit (ConcreteMsg V) :=
  c.live.foldl (fun k id => k.scheduleTimer id 0 .kickoff) c.kernel

/-- kick off every live replica and run for `maxTicks`, if the run is over within `fuel` turns -/
def runSlot (ch : Chance V) (fuel maxTicks : ℕ) (c : ConcreteCluster V) : Option (ConcreteCluster V) :=
  (c.kicked.runUntil ch.harness (advance c.kicked.now maxTicks) fuel).map fun kernel => { c with kernel := kernel }

end ConcreteCluster

/-! ## A slot with a leader -/

/-- replicas `0` to `n - 1`, the leader and its value, everybody's activation delay, and who is down -/
structure Slot (V : Type) where
  n : ℕ
  leader : NodeId
  value : V
  delay : NodeId → ℕ
  down : NodeId → Bool

namespace Slot

variable (s : Slot V)

/-- the proposal that the leader tags -/
def tagged : Proposal V := ⟨s.value, H, s.leader⟩

/-- when replica `i`'s delay is over: the kickoff is due at time 1 -/
def start (i : NodeId) : ℕ := 1 + s.delay i

/-- a reply of round 1 that reports the leader's proposal -/
structure Endorses (r : RecordResponse V) : Prop where
  slot : r.slot = 0
  reqStep : r.reqStep = FIRST_ROUND_STEP
  step : r.step = FIRST_ROUND_STEP
  first : r.first = some s.tagged

/-- what may be in flight: requests of round 1, of which only the leader's arrive early, and such replies -/
def Lawful (D : ℕ) (v : ℕ × Envelope (ConcreteMsg V)) : Prop :=
  match v.2.payload with
  | .request req => req.slot = 0 ∧ req.reqStep = FIRST_ROUND_STEP ∧
      (v.2.src = s.leader ∧ req.proposal = s.tagged ∨ v.2.src ≠ s.leader ∧ 1 + D < v.1)
  | .response resp => s.Endorses resp

/-- what a replica's proposer was built with -/
structure Built (i : NodeId) (p : Proposer V) : Prop where
  selfId : p.selfId = i
  slot : p.slot = 0
  totalReplicas : p.totalReplicas = s.n
  leader : p.leader = some s.leader
  delay : p.activationDelay = s.delay i
  value : i = s.leader → p.proposal.value = s.value
  stocked : p.Stocked

/-- a recorder before the first request, or in round 1 with the leader's proposal first -/
def Registers (nd : ReplicaNode V) : Prop :=
  nd.localStep ≤ FIRST_ROUND_STEP ∧
    (nd.recorder = .new ∨ nd.recorder.isr.step = FIRST_ROUND_STEP ∧ nd.recorder.isr.first = some s.tagged)

/-- who sent a request, or is sent a reply -/
def asker (e : Envelope (ConcreteMsg V)) : NodeId :=
  match e.payload with
  | .request _ => e.src
  | .response _ => e.dst

/-- the timers that begin round 1 at replica `i` -/
def starters (i : NodeId) (timers : Multiset PendingTimer) : Multiset PendingTimer :=
  timers.filter fun t => t.node = i ∧ (t.id = .kickoff ∨ t.id = .hedge)

/-- recorder `j` is heard, or is going to be in time -/
def Awaits (D : ℕ) (voyages : Multiset (ℕ × Envelope (ConcreteMsg V))) (i : NodeId) (p : Proposer V) (j : NodeId) : Prop :=
  j ∈ p.responses ∨ (∃ t q, (t, ⟨i, j, .request ⟨0, FIRST_ROUND_STEP, q⟩⟩) ∈ voyages ∧ t ≤ s.start i + D) ∨
    ∃ t resp, (t, ⟨j, i, .response resp⟩) ∈ voyages ∧ t ≤ s.start i + 2 * D

/-- recorder `j` is in round 1, or the leader's kickoff is pending, or its request to `j` on the way -/
def Hears (D : ℕ) (timers : Multiset PendingTimer) (voyages : Multiset (ℕ × Envelope (ConcreteMsg V))) (j : NodeId)
    (nd : ReplicaNode V) : Prop :=
  nd.recorder.isr.step = FIRST_ROUND_STEP ∨ (⟨s.leader, .kickoff, 1⟩ : PendingTimer) ∈ timers ∨
    ∃ t q, (t, ⟨s.leader, j, .request ⟨0, FIRST_ROUND_STEP, q⟩⟩) ∈ voyages ∧ t ≤ 1 + D

/-- where a live replica stands -/
inductive Stage (D : ℕ) (timers : Multiset PendingTimer) (voyages : Multiset (ℕ × Envelope (ConcreteMsg V))) (now : ℕ)
    (i : NodeId) (p : Proposer V) : Prop where
  | idle (hstep : p.step = 0) (hd : p.decided = none) (ha : p.activated = false)
      (hpend : starters i timers = {⟨i, .kickoff, 1⟩})
  | waiting (hstep : p.step = FIRST_ROUND_STEP) (hd : p.decided = none) (ha : p.activated = false)
      (hpend : starters i timers = {⟨i, .hedge, min (s.start i) MAX⟩})
  | active (hstep : p.step = FIRST_ROUND_STEP) (hd : p.decided = none) (ha : p.activated = true)
      (hpend : starters i timers = 0) (hnow : s.start i ≤ now)
      (hsent : ∀ r q, p.sent.lookup r = some q → r < s.n ∧ (i = s.leader → q = s.tagged))
      (hresp : ∀ j r, p.Counted j r → s.Endorses r) (hquorum : ¬ p.Quorate)
      (hdue : ∀ j < s.n, s.down j = false → s.Awaits D voyages i p j)
  | decided (hstep : p.step = FIRST_ROUND_STEP) (hd : p.decided = some s.value) (ha : p.activated = true)
      (hpend : starters i timers = 0) (hnow : s.start i ≤ now)

end Slot

/-! ## One replica -/

section Replica

variable {s : Slot V} {D : ℕ} {i : NodeId} {p : Proposer V}

/-- a request of round 1 leaves the recorder in round 1 with the leader's proposal first, and so says its reply -/
theorem Slot.Registers.handle [LinearOrder V] {nd : ReplicaNode V} (h : s.Registers nd) {req : RecordRequest V}
    (hslot : req.slot = 0) (hstep : req.reqStep = FIRST_ROUND_STEP)
    (hfirst : nd.recorder = .new → req.proposal = s.tagged) :
    ((nd.recorder.handle req).1.isr.step = FIRST_ROUND_STEP ∧
      (nd.recorder.handle req).1.isr.first = some s.tagged) ∧ s.Endorses (nd.recorder.handle req).2 := by
  have hrec : (nd.recorder.isr.recorded req.reqStep req.proposal).step = FIRST_ROUND_STEP ∧
      (nd.recorder.isr.recorded req.reqStep req.proposal).first = some s.tagged := by
    rcases h.2 with hnew | ⟨h4, hf⟩
    · rw [hnew, hstep, hfirst hnew]
      exact ⟨rfl, rfl⟩
    · unfold Isr.recorded
      rw [h4, hstep, if_neg (lt_irrefl _), if_pos rfl]
      exact ⟨rfl, hf⟩
  exact ⟨hrec, ⟨hslot, hstep, hrec.1, hrec.2⟩⟩

/-- replies that all report the leader's proposal decide its value -/
theorem Slot.decides_of_endorsed [LinearOrder V] (hresp : ∀ j r, p.Counted j r → s.Endorses r)
    (hstep : p.step = FIRST_ROUND_STEP) (hq : p.Quorate) (draw : NodeId → Draw) :
    p.processQuorum draw = .ok ({ p with decided := some s.value }, []) := by
  have hall : ∀ r ∈ p.replies, s.Endorses r := by
    intro r hr
    obtain ⟨j, hj⟩ := Proposer.mem_replies.1 hr
    exact hresp j r hj
  have hlevel : (p.replies.all fun r => r.step == p.step) = true := by
    rw [List.all_eq_true]
    intro r hr
    rw [(hall r hr).step, hstep]
    rfl
  have hlen : p.replies.length = p.responses.keys.length := by
    unfold Proposer.replies AList.keys List.keys
    rw [List.length_map, List.length_map]
  have hfast : Proposer.fastPathValue p.replies = some s.value := by
    unfold Proposer.Quorate Proposer.quorumThreshold at hq
    cases hrs : p.replies with
    | nil =>
      rw [hrs] at hlen
      rw [← hlen] at hq
      exact absurd hq (by simp)
    | cons r rs =>
      unfold Proposer.fastPathValue
      rw [hrs] at hall
      dsimp only
      rw [(hall r List.mem_cons_self).first]
      dsimp only
      rw [if_neg (by simp [Slot.tagged]), if_pos]
      · rfl
      · rw [List.all_eq_true]
        intro x hx
        rw [(hall x hx).first]
        simp [Slot.tagged]
  have hphase : p.processPhase = .ok { p with decided := some s.value } := by
    unfold Proposer.processPhase
    rw [hstep, show FIRST_ROUND_STEP % 4 = 0 from rfl]
    rw [hfast]
    rfl
  unfold Proposer.processQuorum
  rw [if_pos hlevel, hphase]
  rfl

/-- a replica stays where it stands when its own starters and what it waits for stay -/
theorem Slot.Stage.frame {timers timers' : Multiset PendingTimer} {voyages voyages' : Multiset (ℕ × Envelope (ConcreteMsg V))}
    {now now' : ℕ} (h : s.Stage D timers voyages now i p) (htimers : Slot.starters i timers' = Slot.starters i timers)
    (hnow : now ≤ now')
    (hdue : ∀ j < s.n, s.down j = false → s.Awaits D voyages i p j → s.Awaits D voyages' i p j) :
    s.Stage D timers' voyages' now' i p := by
  cases h with
  | idle hstep hd ha hpend => exact .idle hstep hd ha (htimers.trans hpend)
  | waiting hstep hd ha hpend => exact .waiting hstep hd ha (htimers.trans hpend)
  | active hstep hd ha hpend hn hsent hresp hq hold =>
    exact .active hstep hd ha (htimers.trans hpend) (hn.trans hnow) hsent hresp hq fun j hj hup =>
      hdue j hj hup (hold j hj hup)
  | decided hstep hd ha hpend hn => exact .decided hstep hd ha (htimers.trans hpend) (hn.trans hnow)

theorem Slot.starters_add_quiet {timers more : Multiset PendingTimer}
    (h : ∀ t ∈ more, t.node = i → t.id ≠ .kickoff ∧ t.id ≠ .hedge) :
    Slot.starters i (timers + more) = Slot.starters i timers := by
  unfold Slot.starters
  rw [Multiset.filter_add, add_eq_left, Multiset.filter_eq_nil]
  rintro t ht ⟨hnode, hid⟩
  obtain ⟨hk, hh⟩ := h t ht hnode
  exact hid.elim hk hh

theorem Slot.starters_cons_quiet {timers : Multiset PendingTimer} {t : PendingTimer}
    (h : t.node = i → t.id ≠ .kickoff ∧ t.id ≠ .hedge) : Slot.starters i (t ::ₘ timers) = Slot.starters i timers := by
  unfold Slot.starters
  rw [Multiset.filter_cons_of_neg]
  rintro ⟨hnode, hid⟩
  obtain ⟨hk, hh⟩ := h hnode
  exact hid.elim hk hh

/-- a starter that fires was among those of its replica -/
theorem Slot.starters_cons_start {timers : Multiset PendingTimer} {id : TimerId} {time : ℕ}
    (h : id = .kickoff ∨ id = .hedge) :
    Slot.starters i ((⟨i, id, time⟩ : PendingTimer) ::ₘ timers) = ⟨i, id, time⟩ ::ₘ Slot.starters i timers := by
  unfold Slot.starters
  exact Multiset.filter_cons_of_pos _ ⟨rfl, h⟩

end Replica

/-! ## The invariant -/

/-- what a punctual slot is promised: the leader is up and starts at once, and the others wait long enough -/
structure Slot.Timely (s : Slot V) (D : ℕ) : Prop where
  pos : 1 ≤ D
  known : s.leader < s.n
  up : s.down s.leader = false
  prompt : s.delay s.leader = 0
  patient : ∀ i < s.n, i ≠ s.leader → D ≤ s.delay i

structure Prompt (s : Slot V) (D : ℕ) (k : Kernel (ReplicaNode V) Unit (ConcreteMsg V)) : Prop where
  sound : Sim.Sound k
  calm : k.Calm
  unplanned : k.Unplanned
  ok : k.halted = none
  down : ∀ i, k.faults.isCrashed i = s.down i
  members : ∀ i, (k.nodes i).isSome = true ↔ i < s.n
  registers : ∀ i nd, k.nodes i = some nd → s.Registers nd
  built : ∀ i nd, k.nodes i = some nd → s.Built i nd.proposer
  stage : ∀ i nd, k.nodes i = some nd → s.down i = false → s.Stage D k.pending k.voyages k.now i nd.proposer
  lawful : ∀ v ∈ k.voyages, s.Lawful D v
  ends : ∀ v ∈ k.voyages, v.2.src < s.n ∧ v.2.dst < s.n ∧ s.down v.2.dst = false
  asked : ∀ v ∈ k.voyages, ∀ nd, k.nodes (Slot.asker v.2) = some nd → nd.proposer.activated = true
  heard : ∀ j nd, k.nodes j = some nd → s.down j = false → s.Hears D k.pending k.voyages j nd

/-! ## What a turn keeps -/

section Turns

variable {s : Slot V} {D time : ℕ} {k k' : Kernel (ReplicaNode V) Unit (ConcreteMsg V)} {i : NodeId}
  {nd nd' : ReplicaNode V} {fx : List (Effect (ConcreteMsg V))} {timers : Multiset PendingTimer}
  {voyages : Multiset (ℕ × Envelope (ConcreteMsg V))}

theorem Slot.Awaits.mono {voyages' : Multiset (ℕ × Envelope (ConcreteMsg V))} {p : Proposer V} {j : NodeId}
    (h : s.Awaits D voyages i p j) (hsub : ∀ v ∈ voyages, v ∈ voyages') : s.Awaits D voyages' i p j := by
  rcases h with hin | ⟨t, q, hmem, hle⟩ | ⟨t, resp, hmem, hle⟩
  · exact .inl hin
  · exact .inr (.inl ⟨t, q, hsub _ hmem, hle⟩)
  · exact .inr (.inr ⟨t, resp, hsub _ hmem, hle⟩)

/-- a callback keeps the invariant if what it leaves of its own node and what it sends are as they should be -/
theorem Prompt.acted (h : Prompt s D k) (hs' : Sim.Sound k') (hplan' : k'.Unplanned) (hnd : k.nodes i = some nd)
    (ha : Acted D k k' time i (nd', (), fx) timers voyages) (hsub : ∀ v ∈ voyages, v ∈ k.voyages)
    (hregs : s.Registers nd') (hbuilt : s.Built i nd'.proposer)
    (hact : nd.proposer.activated = true → nd'.proposer.activated = true)
    (hstage : s.down i = false → s.Stage D k'.pending k'.voyages time i nd'.proposer)
    (hothers : ∀ j x, j ≠ i → k.nodes j = some x → s.down j = false →
      s.Stage D k.pending k.voyages k.now j x.proposer → s.Stage D k'.pending k'.voyages time j x.proposer)
    (hsent : ∀ e ∈ sendsOf i fx, (∀ t, time < t → s.Lawful D (t, e)) ∧ e.dst < s.n ∧
      ∀ x, k'.nodes (Slot.asker e) = some x → x.proposer.activated = true)
    (hheard : ∀ j x, k'.nodes j = some x → s.down j = false → s.Hears D k'.pending k'.voyages j x) :
    Prompt s D k' := by
  have hmember : i < s.n := (h.members i).1 (by rw [hnd]; rfl)
  have hnodes : ∀ j x, k'.nodes j = some x → j = i ∧ x = nd' ∨ j ≠ i ∧ k.nodes j = some x := by
    intro j x hx
    rw [ha.nodes] at hx
    by_cases hj : j = i
    · subst hj
      rw [Function.update_self] at hx
      exact .inl ⟨rfl, (Option.some.inj hx).symm⟩
    · rw [Function.update_of_ne hj] at hx
      exact .inr ⟨hj, hx⟩
  have hsrc : ∀ e ∈ sendsOf i fx, e.src = i := by
    intro e he
    obtain ⟨f, -, hf⟩ := List.mem_filterMap.1 he
    cases f with
    | send dst payload =>
      obtain rfl := Option.some.inj hf
      rfl
    | timer => cases hf
  refine
    { sound := hs'
      calm := ⟨by rw [ha.faults, h.calm.whole], by rw [ha.faults, h.calm.prompt]⟩
      unplanned := hplan'
      ok := ha.halted
      down := fun j => by rw [ha.faults]; exact h.down j
      members := fun j => ?_
      registers := fun j x hx => ?_
      built := fun j x hx => ?_
      stage := fun j x hx hup => ?_
      lawful := fun v hv => ?_
      ends := fun v hv => ?_
      asked := fun v hv x hx => ?_
      heard := hheard }
  · rw [ha.nodes]
    by_cases hj : j = i
    · subst hj
      rw [Function.update_self]
      exact iff_of_true rfl hmember
    · rw [Function.update_of_ne hj]
      exact h.members j
  · rcases hnodes j x hx with ⟨rfl, rfl⟩ | ⟨-, hold⟩
    · exact hregs
    · exact h.registers j x hold
  · rcases hnodes j x hx with ⟨rfl, rfl⟩ | ⟨-, hold⟩
    · exact hbuilt
    · exact h.built j x hold
  · rw [ha.now]
    rcases hnodes j x hx with ⟨rfl, rfl⟩ | ⟨hj, hold⟩
    · exact hstage hup
    · exact hothers j x hj hold hup (h.stage j x hold hup)
  · rcases ha.voyage_cases hv with hold | ⟨hnew, -, hlt, -⟩
    · exact h.lawful v (hsub v hold)
    · exact (hsent v.2 hnew).1 v.1 hlt
  · rcases ha.voyage_cases hv with hold | ⟨hnew, hup, -⟩
    · exact h.ends v (hsub v hold)
    · exact ⟨by rw [hsrc _ hnew]; exact hmember, (hsent v.2 hnew).2.1, by rw [← h.down]; exact hup⟩
  · rcases ha.voyage_cases hv with hold | ⟨hnew, -⟩
    · rcases hnodes _ x hx with ⟨hi, rfl⟩ | ⟨-, hx'⟩
      · exact hact (h.asked v (hsub v hold) nd (by rw [hi]; exact hnd))
      · exact h.asked v (hsub v hold) x hx'
    · exact (hsent v.2 hnew).2.2 x hx

/-- a timer that finds nobody there -/
theorem Prompt.lapsed (h : Prompt s D k) (ht : s.Timely D) (hs' : Sim.Sound k') (hplan' : k'.Unplanned)
    (hnow : k.now ≤ time) {node : NodeId} {id : TimerId} (hpend : k.pending = ⟨node, id, time⟩ ::ₘ timers)
    (hgone : k.faults.isCrashed node = true ∨ k.nodes node = none) (hm : Missed k k' time timers k.voyages) :
    Prompt s D k' := by
  have hother : ∀ j, j < s.n → s.down j = false → node ≠ j := by
    rintro j hj hup rfl
    rcases hgone with hdown | hnone
    · rw [h.down, hup] at hdown
      cases hdown
    · have hsome := (h.members node).2 hj
      rw [hnone] at hsome
      cases hsome
  have hknown : ∀ j x, k'.nodes j = some x → j < s.n := fun j x hx => (h.members j).1 (by rw [← hm.nodes, hx]; rfl)
  refine
    { sound := hs'
      calm := ⟨by rw [hm.faults, h.calm.whole], by rw [hm.faults, h.calm.prompt]⟩
      unplanned := hplan'
      ok := hm.halted
      down := fun j => by rw [hm.faults]; exact h.down j
      members := fun j => by rw [hm.nodes]; exact h.members j
      registers := fun j x hx => h.registers j x (by rw [← hm.nodes]; exact hx)
      built := fun j x hx => h.built j x (by rw [← hm.nodes]; exact hx)
      stage := fun j x hx hup => ?_
      lawful := fun v hv => h.lawful v (by rw [← hm.voyages]; exact hv)
      ends := fun v hv => h.ends v (by rw [← hm.voyages]; exact hv)
      asked := fun v hv x hx => h.asked v (by rw [← hm.voyages]; exact hv) x (by rw [← hm.nodes]; exact hx)
      heard := fun j x hx hup => ?_ }
  · have hold := h.stage j x (by rw [← hm.nodes]; exact hx) hup
    rw [hm.pending, hm.voyages, hm.now]
    refine hold.frame ?_ hnow fun _ _ _ hw => hw
    rw [hpend, Slot.starters_cons_quiet fun hj => absurd hj (hother j (hknown j x hx) hup)]
  · rw [hm.voyages, hm.pending]
    rcases h.heard j x (by rw [← hm.nodes]; exact hx) hup with h4 | hkick | hfly
    · exact .inl h4
    · rw [hpend, Multiset.mem_cons] at hkick
      rcases hkick with heq | hkick
      · exact absurd (congrArg PendingTimer.node heq).symm (hother _ ht.known ht.up)
      · exact .inr (.inl hkick)
    · exact .inr (.inr hfly)

/-! ### Timers -/

theorem prepare_leader {p : Proposer V} (hb : s.Built i p) (h4 : p.step = FIRST_ROUND_STEP) (hi : i = s.leader)
    (draw : NodeId → Draw) (r : NodeId) : p.prepare draw r = s.tagged := by
  unfold Proposer.prepare
  have hlead : p.isLeader = true := by
    unfold Proposer.isLeader
    rw [hb.leader, hb.selfId, hi]
    exact beq_self_eq_true _
  rw [if_pos ⟨by rw [h4]; rfl, h4, hlead⟩, hb.value hi, hb.selfId, hi]
  rfl

/-- what stays of a replica's timers when another one's fires -/
theorem starters_other {id : TimerId} {j : NodeId} (hj : j ≠ i) (hpend : k.pending = ⟨i, id, time⟩ ::ₘ timers)
    (hpend' : k'.pending = timers + ↑((timersOf i time fx).map capped)) :
    Slot.starters j k'.pending = Slot.starters j k.pending := by
  rw [hpend, hpend', Slot.starters_cons_quiet fun h => absurd h.symm hj, Slot.starters_add_quiet fun t ht hnode => ?_]
  obtain ⟨after, id, -, rfl⟩ := mem_capped_timersOf ht
  exact absurd hnode.symm hj

/-- the others when a timer of node `i` fires -/
theorem Slot.Stage.others {id : TimerId} {j : NodeId} {p : Proposer V} {r : ReplicaNode V × Unit × List (Effect (ConcreteMsg V))}
    (hj : j ≠ i) (hpend : k.pending = ⟨i, id, time⟩ ::ₘ timers) (ha : Acted D k k' time i r timers k.voyages)
    (hnow : k.now ≤ time) (h : s.Stage D k.pending k.voyages k.now j p) :
    s.Stage D k'.pending k'.voyages time j p :=
  h.frame (starters_other hj hpend ha.pending) hnow fun _ _ _ hw => hw.mono fun _ hv => ha.keeps hv

/-- the members are the same after a callback -/
theorem Prompt.member_after (h : Prompt s D k) (hnd : k.nodes i = some nd)
    {r : ReplicaNode V × Unit × List (Effect (ConcreteMsg V))} (ha : Acted D k k' time i r timers voyages) {j : NodeId}
    {x : ReplicaNode V} (hx : k'.nodes j = some x) : j < s.n := by
  apply (h.members j).1
  rw [ha.nodes] at hx
  by_cases hj : j = i
  · rw [hj, hnd]
    rfl
  · rw [Function.update_of_ne hj] at hx
    rw [hx]
    rfl

/-- a callback that leaves its recorder alone leaves each recorder in round 1, or about to hear of the leader -/
theorem Prompt.still_heard (h : Prompt s D k) (hnd : k.nodes i = some nd)
    {r : ReplicaNode V × Unit × List (Effect (ConcreteMsg V))} (hrec : r.1.recorder = nd.recorder)
    (ha : Acted D k k' time i r timers voyages)
    (hkick : (⟨s.leader, .kickoff, 1⟩ : PendingTimer) ∈ k.pending → (⟨s.leader, .kickoff, 1⟩ : PendingTimer) ∈ timers)
    (hkeep : ∀ t a b req, (t, ⟨a, b, .request req⟩) ∈ k.voyages → (t, ⟨a, b, .request req⟩) ∈ voyages) {j : NodeId}
    {x : ReplicaNode V} (hx : k'.nodes j = some x) (hup : s.down j = false) : s.Hears D k'.pending k'.voyages j x := by
  have hbefore : ∃ x₀, k.nodes j = some x₀ ∧ x₀.recorder = x.recorder := by
    rw [ha.nodes] at hx
    by_cases hj : j = i
    · subst hj
      rw [Function.update_self] at hx
      obtain rfl := Option.some.inj hx
      exact ⟨nd, hnd, hrec.symm⟩
    · rw [Function.update_of_ne hj] at hx
      exact ⟨x, hx, rfl⟩
  obtain ⟨x₀, hx₀, hsame⟩ := hbefore
  rcases h.heard j x₀ hx₀ hup with h4 | hk | ⟨t, q, hmem, hle⟩
  · exact .inl (by rw [← hsame]; exact h4)
  · exact .inr (.inl (by rw [ha.pending]; exact Multiset.mem_add.2 (.inl (hkick hk))))
  · exact .inr (.inr ⟨t, q, ha.keeps (hkeep _ _ _ _ hmem), hle⟩)

/-- **A replica begins round 1**, at its start, by its kickoff or its hedge timer. -/
theorem Prompt.begins (h : Prompt s D k) (ht : s.Timely D) (hs' : Sim.Sound k') (hplan' : k'.Unplanned)
    (hnow : k.now ≤ time) {id : TimerId} (hpend : k.pending = ⟨i, id, time⟩ ::ₘ timers)
    (hown : Slot.starters i timers = 0) (htime : time = s.start i) (hnd : k.nodes i = some nd)
    (hd : nd.proposer.decided = none) {draw : NodeId → Draw}
    (ha : Acted D k k' time i
      ({ nd with
          proposer := ((nd.proposer.movedTo FIRST_ROUND_STEP nd.proposer.proposal).beginStep draw).1 }, (),
        ((nd.proposer.movedTo FIRST_ROUND_STEP nd.proposer.proposal).beginStep draw).2) timers k.voyages) :
    Prompt s D k' := by
  have hb := h.built i nd hnd
  have hb' : s.Built i (nd.proposer.movedTo FIRST_ROUND_STEP nd.proposer.proposal) :=
    ⟨hb.selfId, hb.slot, hb.totalReplicas, hb.leader, hb.delay, hb.value, hb.stocked⟩
  have hnode' : k'.nodes i = some { nd with
      proposer := ((nd.proposer.movedTo FIRST_ROUND_STEP nd.proposer.proposal).beginStep draw).1 } := by
    rw [ha.nodes, Function.update_self]
  have hsends : ∀ r < s.n, (⟨i, r, .request ⟨0, FIRST_ROUND_STEP,
      (nd.proposer.movedTo FIRST_ROUND_STEP nd.proposer.proposal).prepare draw r⟩⟩ : Envelope (ConcreteMsg V)) ∈
        sendsOf i ((nd.proposer.movedTo FIRST_ROUND_STEP nd.proposer.proposal).beginStep draw).2 := fun r hr =>
    (Proposer.mem_sendsOf_beginStep _ draw).2 ⟨r, by rw [hb'.totalReplicas]; exact hr, by rw [hb'.slot]; rfl⟩
  -- the request reaches every live recorder in time
  have hreach : ∀ j < s.n, s.down j = false →
      ∃ t q, (t, ⟨i, j, .request ⟨0, FIRST_ROUND_STEP, q⟩⟩) ∈ k'.voyages ∧ t ≤ s.start i + D := by
    intro j hj hup
    obtain ⟨t, hmem, hle⟩ := ha.reaches (hsends j hj) (by rw [h.down]; exact hup)
    exact ⟨t, _, hmem, by rw [← htime]; exact hle⟩
  refine h.acted hs' hplan' hnd ha (fun v hv => hv) (h.registers i nd hnd)
    ⟨hb.selfId, hb.slot, hb.totalReplicas, hb.leader, hb.delay, hb.value, Proposer.stocked_beginStep _ draw⟩
    (fun _ => rfl) (fun hup => ?_) (fun j x hj _ _ hold => hold.others hj hpend ha hnow) (fun e he => ?_)
    (fun j x hx hup => ?_)
  · refine .active rfl hd rfl ?_ htime.ge (fun r q hq => ?_) (fun j r hr => ?_) (fun hq => ?_) fun j hj hupj =>
      .inr (.inl (hreach j hj hupj))
    · rw [ha.pending, Slot.starters_add_quiet fun t htm _ => ?_, hown]
      obtain ⟨after, x, hx, rfl⟩ := mem_capped_timersOf htm
      obtain ⟨step, rfl⟩ := Proposer.beginStep_armed _ draw hx
      exact ⟨TimerId.noConfusion, TimerId.noConfusion⟩
    · have hlook := Proposer.beginStep_sent (nd.proposer.movedTo FIRST_ROUND_STEP nd.proposer.proposal) draw r
      rw [hlook] at hq
      split_ifs at hq with hr
      · obtain rfl := Option.some.inj hq
        exact ⟨by rw [← hb'.totalReplicas]; exact hr, fun hi => prepare_leader hb' rfl hi draw r⟩
    · cases hr
    · have hzero : nd.proposer.totalReplicas / 2 + 1 ≤ 0 := hq
      omega
  · obtain ⟨r, hr, rfl⟩ := (Proposer.mem_sendsOf_beginStep _ draw).1 he
    refine ⟨fun t hlt => ⟨hb'.slot, rfl, ?_⟩, by rw [← hb'.totalReplicas]; exact hr, fun x hx => ?_⟩
    · by_cases hi : i = s.leader
      · exact .inl ⟨hi, prepare_leader hb' rfl hi draw r⟩
      · refine .inr ⟨hi, ?_⟩
        have hlate := ht.patient i ((h.members i).1 (by rw [hnd]; rfl)) hi
        rw [htime, Slot.start] at hlt
        show 1 + D < t
        omega
    · have hx' : k'.nodes i = some x := hx
      rw [hnode'] at hx'
      obtain rfl := Option.some.inj hx'
      rfl
  · by_cases hi : i = s.leader
    · -- the leader's requests set out
      obtain ⟨t, q, hmem, hle⟩ := hreach j (h.member_after hnd ha hx) hup
      refine .inr (.inr ⟨t, q, by rw [← hi]; exact hmem, ?_⟩)
      rw [Slot.start, hi, ht.prompt] at hle
      exact hle
    · exact h.still_heard hnd rfl ha (fun hkick => by
        rw [hpend, Multiset.mem_cons] at hkick
        exact hkick.resolve_left fun heq => hi (congrArg PendingTimer.node heq).symm) (fun _ _ _ _ hv => hv) hx hup

/-- **A hedged replica is kicked off**: it waits its delay out. -/
theorem Prompt.waits (h : Prompt s D k) (ht : s.Timely D) (hs' : Sim.Sound k') (hplan' : k'.Unplanned)
    (hnow : k.now ≤ time) (hpend : k.pending = ⟨i, .kickoff, time⟩ ::ₘ timers) (hown : Slot.starters i timers = 0)
    (htime : time = 1) (hdelay : s.delay i ≠ 0) (hnd : k.nodes i = some nd) (hd : nd.proposer.decided = none)
    (hidle : nd.proposer.activated = false)
    (ha : Acted D k k' time i
      ({ nd with proposer := nd.proposer.movedTo FIRST_ROUND_STEP nd.proposer.proposal }, (),
        [.timer nd.proposer.activationDelay .hedge]) timers k.voyages) : Prompt s D k' := by
  have hb := h.built i nd hnd
  have hi : i ≠ s.leader := fun hi => hdelay (by rw [hi]; exact ht.prompt)
  refine h.acted hs' hplan' hnd ha (fun v hv => hv) (h.registers i nd hnd)
    ⟨hb.selfId, hb.slot, hb.totalReplicas, hb.leader, hb.delay, hb.value, hb.stocked⟩
    (fun hact => hact) (fun hup => ?_) (fun j x hj _ _ hold => hold.others hj hpend ha hnow)
    (fun e he => absurd he (by simp [sendsOf])) (fun j x hx hup => ?_)
  · refine .waiting rfl hd hidle ?_
    have hnew : (↑((timersOf i time [(.timer nd.proposer.activationDelay .hedge : Effect (ConcreteMsg V))]).map capped) :
        Multiset PendingTimer) = {⟨i, .hedge, min (s.start i) MAX⟩} := by
      have hfire : time + max nd.proposer.activationDelay 1 = s.start i := by
        rw [htime, hb.delay, Slot.start]
        omega
      show ({⟨i, .hedge, min (time + max nd.proposer.activationDelay 1) MAX⟩} : Multiset PendingTimer) = _
      rw [hfire]
    have hpend' : k'.pending = timers + {⟨i, .hedge, min (s.start i) MAX⟩} :=
      ha.pending.trans (congrArg (timers + ·) hnew)
    unfold Slot.starters at hown ⊢
    rw [hpend', Multiset.filter_add, hown, zero_add, Multiset.filter_singleton, if_pos ⟨rfl, .inr rfl⟩]
  · refine h.still_heard hnd rfl ha (fun hkick => ?_) (fun _ _ _ _ hv => hv) hx hup
    rw [hpend, Multiset.mem_cons] at hkick
    exact hkick.resolve_left fun heq => hi (congrArg PendingTimer.node heq).symm

/-- what a replica remembers of progress and how often it retried decide nothing about where it stands -/
theorem Slot.Stage.noted {timers : Multiset PendingTimer} {voyages : Multiset (ℕ × Envelope (ConcreteMsg V))} {now : ℕ}
    {p : Proposer V} (h : s.Stage D timers voyages now i p) (seen : Option ℕ) (retries : ℕ) :
    s.Stage D timers voyages now i { p with lastSeenProgress := seen, retriesThisStep := retries } := by
  cases h with
  | idle hstep hd ha hpend => exact .idle hstep hd ha hpend
  | waiting hstep hd ha hpend => exact .waiting hstep hd ha hpend
  | active hstep hd ha hpend hn hsent hresp hq hdue => exact .active hstep hd ha hpend hn hsent hresp hq hdue
  | decided hstep hd ha hpend hn => exact .decided hstep hd ha hpend hn

/-- **Any other timer fires**: a retry sends again what was prepared. -/
theorem Prompt.repeats (h : Prompt s D k) (ht : s.Timely D) (hs' : Sim.Sound k') (hplan' : k'.Unplanned)
    (hnow : k.now ≤ time) {id : TimerId} (hid : id ≠ .kickoff ∧ id ≠ .hedge) (hpend : k.pending = ⟨i, id, time⟩ ::ₘ timers)
    (hlive : s.down i = false) (hnd : k.nodes i = some nd) (seen : Option ℕ) (retries : ℕ)
    (hsends : ∀ e ∈ sendsOf i fx, nd.proposer.activated = true ∧ nd.proposer.decided = none ∧
      ∃ r q, nd.proposer.sent.lookup r = some q ∧ e = ⟨i, r, .request ⟨nd.proposer.slot, nd.proposer.step, q⟩⟩)
    (harmed : ∀ d x, .timer d x ∈ fx → ∃ step, x = .retry step)
    (ha : Acted D k k' time i
      ({ nd with proposer := { nd.proposer with lastSeenProgress := seen, retriesThisStep := retries } }, (), fx) timers
        k.voyages) : Prompt s D k' := by
  have hb := h.built i nd hnd
  have hnode' : k'.nodes i = some
      { nd with proposer := { nd.proposer with lastSeenProgress := seen, retriesThisStep := retries } } := by
    rw [ha.nodes, Function.update_self]
  refine h.acted hs' hplan' hnd ha (fun v hv => hv) (h.registers i nd hnd)
    ⟨hb.selfId, hb.slot, hb.totalReplicas, hb.leader, hb.delay, hb.value, hb.stocked⟩
    (fun hact => hact) (fun hup => ?_) (fun j x hj _ _ hold => hold.others hj hpend ha hnow) (fun e he => ?_)
    (fun j x hx hup => ?_)
  · refine ((h.stage i nd hnd hup).frame ?_ hnow fun _ _ _ hw => hw.mono fun _ hv => ha.keeps hv).noted seen retries
    rw [ha.pending, hpend, Slot.starters_cons_quiet fun _ => hid, Slot.starters_add_quiet fun t htm _ => ?_]
    obtain ⟨after, x, hx, rfl⟩ := mem_capped_timersOf htm
    obtain ⟨step, rfl⟩ := harmed _ _ hx
    exact ⟨TimerId.noConfusion, TimerId.noConfusion⟩
  · obtain ⟨hact, hd, r, q, hq, rfl⟩ := hsends e he
    cases h.stage i nd hnd hlive with
    | idle _ _ hno => rw [hno] at hact; cases hact
    | waiting _ _ hno => rw [hno] at hact; cases hact
    | decided _ hdec => rw [hd] at hdec; cases hdec
    | active hstep _ _ _ hstart hsent =>
      obtain ⟨hr, hlead⟩ := hsent r q hq
      refine ⟨fun t hlt => ⟨hb.slot, hstep, ?_⟩, hr, fun x hx => ?_⟩
      · by_cases hi : i = s.leader
        · exact .inl ⟨hi, hlead hi⟩
        · refine .inr ⟨hi, ?_⟩
          have hlate := ht.patient i ((h.members i).1 (by rw [hnd]; rfl)) hi
          rw [Slot.start] at hstart
          show 1 + D < t
          omega
      · have hx' : k'.nodes i = some x := hx
        rw [hnode'] at hx'
        obtain rfl := Option.some.inj hx'
        exact hact
  · refine h.still_heard hnd rfl ha (fun hkick => ?_) (fun _ _ _ _ hv => hv) hx hup
    rw [hpend, Multiset.mem_cons] at hkick
    exact hkick.resolve_left fun heq => hid.1 (congrArg PendingTimer.id heq).symm

/-- a starter that fires is the only one of its replica -/
theorem Slot.starters_fired {id : TimerId} {t : PendingTimer} (hid : id = .kickoff ∨ id = .hedge)
    (hpend : k.pending = ⟨i, id, time⟩ ::ₘ timers) (hone : Slot.starters i k.pending = {t}) :
    t = ⟨i, id, time⟩ ∧ Slot.starters i timers = 0 := by
  rw [hpend, Slot.starters_cons_start hid] at hone
  exact ⟨(Multiset.mem_singleton.1 (by rw [← hone]; exact Multiset.mem_cons_self _ _)).symm,
    Multiset.card_eq_zero.1 (by simpa using congrArg Multiset.card hone)⟩

theorem Slot.starters_left {id : TimerId} (hid : id = .kickoff ∨ id = .hedge)
    (hpend : k.pending = ⟨i, id, time⟩ ::ₘ timers) : Slot.starters i k.pending ≠ 0 := by
  rw [hpend, Slot.starters_cons_start hid]
  exact Multiset.cons_ne_zero

/-- a kickoff finds its replica as it was built -/
theorem Slot.Stage.kickoff {p : Proposer V} (h : s.Stage D k.pending voyages k.now i p)
    (hpend : k.pending = ⟨i, .kickoff, time⟩ ::ₘ timers) :
    time = 1 ∧ Slot.starters i timers = 0 ∧ p.decided = none ∧ p.activated = false := by
  cases h with
  | waiting _ _ _ hp => exact absurd (congrArg PendingTimer.id (Slot.starters_fired (.inl rfl) hpend hp).1) (by simp)
  | active _ _ _ hp => exact absurd hp (Slot.starters_left (.inl rfl) hpend)
  | decided _ _ _ hp => exact absurd hp (Slot.starters_left (.inl rfl) hpend)
  | idle _ hd hidle hp =>
    obtain ⟨heq, hown⟩ := Slot.starters_fired (.inl rfl) hpend hp
    exact ⟨(congrArg PendingTimer.fireAt heq).symm, hown, hd, hidle⟩

/-- a hedge timer finds its replica waiting, and its delay over -/
theorem Slot.Stage.hedge {p : Proposer V} (h : s.Stage D k.pending voyages k.now i p) (hlt : time < MAX)
    (hpend : k.pending = ⟨i, .hedge, time⟩ ::ₘ timers) :
    time = s.start i ∧ Slot.starters i timers = 0 ∧ p.step = FIRST_ROUND_STEP ∧ p.decided = none ∧
      p.activated = false := by
  cases h with
  | idle _ _ _ hp => exact absurd (congrArg PendingTimer.id (Slot.starters_fired (.inr rfl) hpend hp).1) (by simp)
  | active _ _ _ hp => exact absurd hp (Slot.starters_left (.inr rfl) hpend)
  | decided _ _ _ hp => exact absurd hp (Slot.starters_left (.inr rfl) hpend)
  | waiting hstep hd hidle hp =>
    obtain ⟨heq, hown⟩ := Slot.starters_fired (.inr rfl) hpend hp
    have htime : min (s.start i) MAX = time := congrArg PendingTimer.fireAt heq
    exact ⟨by omega, hown, hstep, hd, hidle⟩

/-- **Any timer that fires at a live replica** -/
theorem Prompt.fired (h : Prompt s D k) (ht : s.Timely D) (hs' : Sim.Sound k') (hplan' : k'.Unplanned)
    (hnow : k.now ≤ time) (hlt : time < MAX) {id : TimerId} (hpend : k.pending = ⟨i, id, time⟩ ::ₘ timers)
    (hlive : s.down i = false) (hnd : k.nodes i = some nd) {draw : NodeId → Draw} {p' : Proposer V}
    (hr : nd.proposer.onTimer id nd.localStep draw = .ok (p', fx))
    (ha : Acted D k k' time i ({ nd with proposer := p' }, (), fx) timers k.voyages) : Prompt s D k' := by
  have hb := h.built i nd hnd
  have hstage := h.stage i nd hnd hlive
  cases id with
  | kickoff =>
    obtain ⟨htime, hown, hd, hidle⟩ := hstage.kickoff hpend
    by_cases hdelay : s.delay i = 0
    · have hreopens : nd.proposer.Reopens .kickoff nd.localStep := ⟨hd, .inl ⟨rfl, hb.delay.trans hdelay⟩⟩
      rw [Proposer.onTimer_reopens hreopens draw] at hr
      obtain ⟨rfl, rfl⟩ := Prod.mk.inj (Except.ok.inj hr)
      exact h.begins ht hs' hplan' hnow hpend hown (by rw [htime, Slot.start, hdelay]) hnd hd ha
    · have hrewind : nd.proposer.onTimer .kickoff nd.localStep draw =
          .ok (nd.proposer.movedTo FIRST_ROUND_STEP nd.proposer.proposal, [.timer nd.proposer.activationDelay .hedge]) := by
        unfold Proposer.onTimer Proposer.start
        dsimp only
        rw [if_neg (by simp [hd]), if_neg (by rw [hb.delay]; exact hdelay)]
        rfl
      rw [hrewind] at hr
      obtain ⟨rfl, rfl⟩ := Prod.mk.inj (Except.ok.inj hr)
      exact h.waits ht hs' hplan' hnow hpend hown htime hdelay hnd hd hidle ha
  | hedge =>
    obtain ⟨htime, hown, hstep, hd, hidle⟩ := hstage.hedge hlt hpend
    -- no recorder is past round 1's first step, so nothing defers the replica
    have hfresh : nd.proposer.sawFreshProgress nd.localStep = false := by
      have hle := (h.registers i nd hnd).1
      unfold Proposer.sawFreshProgress Proposer.current
      split_ifs
      · dsimp only
        rw [hstep, decide_eq_false (not_lt.2 hle), Bool.false_and]
      · rfl
    have hreopen := Proposer.onTimer_reopens ⟨hd, .inr ⟨rfl, hstep, hfresh⟩⟩ draw
    rw [hreopen] at hr
    obtain ⟨rfl, rfl⟩ := Prod.mk.inj (Except.ok.inj hr)
    exact h.begins ht hs' hplan' hnow hpend hown htime hnd hd ha
  | catchUpWatchdog =>
    obtain ⟨rfl, rfl⟩ := Prod.mk.inj (Except.ok.inj hr)
    exact h.repeats ht hs' hplan' hnow ⟨TimerId.noConfusion, TimerId.noConfusion⟩ hpend hlive hnd
      nd.proposer.lastSeenProgress nd.proposer.retriesThisStep (fun e he => absurd he (by simp [sendsOf]))
      (fun d x hx => absurd hx (by simp)) ha
  | retry step =>
    cases Proposer.onTimer_moves hr with
    | quiet hfx hh =>
      refine h.repeats ht hs' hplan' hnow ⟨TimerId.noConfusion, TimerId.noConfusion⟩ hpend hlive hnd _ _ (fun e he => ?_)
        (fun d x hx => absurd (hh d x hx).2 TimerId.noConfusion) ha
      rw [← hb.selfId, hfx] at he
      exact absurd he List.not_mem_nil
    | resends hd hact hfx hh =>
      exact h.repeats ht hs' hplan' hnow ⟨TimerId.noConfusion, TimerId.noConfusion⟩ hpend hlive hnd _ _
        (fun e he => ⟨hact, hd, hfx i e he⟩) hh ha

/-! ### Messages -/

section Messages

variable [LinearOrder V]

/-- what a request finds: the leader is first at every live recorder -/
theorem Prompt.leader_first (h : Prompt s D k) (hsoonV : ∀ v ∈ k.voyages, time ≤ v.1)
    (hsoonT : ∀ t ∈ k.pending, time ≤ t.fireAt) {a : NodeId} {req : RecordRequest V}
    (hfly : (time, ⟨a, i, .request req⟩) ∈ k.voyages) (hlive : s.down i = false) (hnd : k.nodes i = some nd)
    (hnew : nd.recorder = .new) : req.proposal = s.tagged := by
  obtain ⟨-, -, ⟨-, hq⟩ | ⟨hother, hlate⟩⟩ := h.lawful _ hfly
  · exact hq
  · -- the leader's own request was due before this one
    have hlate' : 1 + D < time := hlate
    rcases h.heard i nd hnd hlive with h4 | hkick | ⟨t, q, hmem, hle⟩
    · rw [hnew] at h4
      cases h4
    · have hsoon : time ≤ 1 := hsoonT _ hkick
      omega
    · have hsoon : time ≤ t := hsoonV _ hmem
      omega

/-- **A request arrives**: its reply reports the leader's proposal, and is on its way in time. -/
theorem Prompt.served (h : Prompt s D k) (hs' : Sim.Sound k') (hplan' : k'.Unplanned) (hnow : k.now ≤ time)
    (hsoonV : ∀ v ∈ k.voyages, time ≤ v.1) (hsoonT : ∀ t ∈ k.pending, time ≤ t.fireAt) {a : NodeId}
    {req : RecordRequest V} (hfly : k.voyages = (time, ⟨a, i, .request req⟩) ::ₘ voyages) (hlive : s.down i = false)
    (hnd : k.nodes i = some nd)
    (ha : Acted D k k' time i
      ({ nd with recorder := (nd.recorder.handle req).1, localStep := (nd.recorder.handle req).2.step }, (),
        [.send a (.response (nd.recorder.handle req).2)]) k.pending voyages) : Prompt s D k' := by
  have hmem : (time, ⟨a, i, .request req⟩) ∈ k.voyages := by rw [hfly]; exact Multiset.mem_cons_self _ _
  have hsub : ∀ v ∈ voyages, v ∈ k.voyages := fun v hv => by rw [hfly]; exact Multiset.mem_cons_of_mem hv
  obtain ⟨hslot, hstep, -⟩ := h.lawful _ hmem
  obtain ⟨⟨h4, hfirst⟩, hendorse⟩ := (h.registers i nd hnd).handle hslot hstep
    (h.leader_first hsoonV hsoonT hmem hlive hnd)
  have hb := h.built i nd hnd
  -- a requester that is up gets the reply in time
  have hawait : ∀ j p, s.down j = false → ∀ l, s.Awaits D k.voyages j p l → s.Awaits D k'.voyages j p l := by
    intro j p hup l hw
    rcases hw with hin | ⟨t, q, hv, hle⟩ | ⟨t, resp, hv, hle⟩
    · exact .inl hin
    · rw [hfly, Multiset.mem_cons] at hv
      rcases hv with heq | hv
      · obtain ⟨rfl, henv⟩ := Prod.mk.inj heq
        obtain ⟨rfl, rfl, -⟩ := Queso.Envelope.mk.inj henv
        have hreply : (⟨l, j, .response (nd.recorder.handle req).2⟩ : Queso.Envelope (ConcreteMsg V)) ∈
            sendsOf l [.send j (.response (nd.recorder.handle req).2)] := by
          simp [sendsOf]
        obtain ⟨t', hv', hle'⟩ := ha.reaches hreply (by rw [h.down]; exact hup)
        exact .inr (.inr ⟨t', _, hv', by omega⟩)
      · exact .inr (.inl ⟨t, q, ha.keeps hv, hle⟩)
    · rw [hfly, Multiset.mem_cons] at hv
      rcases hv with heq | hv
      · exact absurd (congrArg (fun v => v.2.payload) heq) (by simp)
      · exact .inr (.inr ⟨t, resp, ha.keeps hv, hle⟩)
  have hpend' : ∀ j, Slot.starters j k'.pending = Slot.starters j k.pending := by
    intro j
    have hnone : (↑((timersOf i time [(.send a (.response (nd.recorder.handle req).2) : Effect (ConcreteMsg V))]).map capped) :
        Multiset PendingTimer) = 0 := rfl
    rw [ha.pending, hnone, add_zero]
  refine h.acted hs' hplan' hnd ha hsub ⟨hendorse.step.le, .inr ⟨h4, hfirst⟩⟩
    ⟨hb.selfId, hb.slot, hb.totalReplicas, hb.leader, hb.delay, hb.value, hb.stocked⟩ (fun hact => hact)
    (fun hup => (h.stage i nd hnd hup).frame (hpend' i) hnow fun l _ _ hw => hawait i _ hup l hw)
    (fun j x _ _ hup hold => hold.frame (hpend' j) hnow fun l _ _ hw => hawait j _ hup l hw) (fun e he => ?_)
    (fun j x hx hup => ?_)
  · have he' : e = ⟨i, a, .response (nd.recorder.handle req).2⟩ := by simpa [sendsOf] using he
    subst he'
    refine ⟨fun _ _ => hendorse, (h.ends _ hmem).1, fun x hx => ?_⟩
    -- who asked had begun round 1
    have hx' : k'.nodes a = some x := hx
    rw [ha.nodes] at hx'
    by_cases hai : a = i
    · subst hai
      rw [Function.update_self] at hx'
      obtain rfl := Option.some.inj hx'
      exact h.asked _ hmem nd hnd
    · rw [Function.update_of_ne hai] at hx'
      exact h.asked _ hmem x hx'
  · by_cases hji : j = i
    · subst hji
      rw [ha.nodes, Function.update_self] at hx
      obtain rfl := Option.some.inj hx
      exact .inl h4
    · rw [ha.nodes, Function.update_of_ne hji] at hx
      rcases h.heard j x hx hup with h4' | hk | ⟨t, q, hv, hle⟩
      · exact .inl h4'
      · exact .inr (.inl (by rw [ha.pending]; exact Multiset.mem_add.2 (.inl hk)))
      · refine .inr (.inr ⟨t, q, ha.keeps ?_, hle⟩)
        rw [hfly, Multiset.mem_cons] at hv
        refine hv.resolve_left fun heq => hji ?_
        exact congrArg (fun v => v.2.dst) heq

/-- what a proposer makes of a reply that is due to it: it notes it, and decides when it has a quorum -/
theorem Prompt.answer (h : Prompt s D k) {j : NodeId} {resp : RecordResponse V}
    (hmem : (time, ⟨j, i, .response resp⟩) ∈ k.voyages) (hlive : s.down i = false) (hnd : k.nodes i = some nd)
    (draw : NodeId → Draw) : ∃ p', nd.proposer.onResponse j resp draw = .ok (p', []) ∧ s.Built i p' ∧
      p'.activated = true ∧ ∀ timers voyages' now, Slot.starters i timers = Slot.starters i k.pending → k.now ≤ now →
        (∀ v ∈ k.voyages, v ≠ (time, ⟨j, i, .response resp⟩) → v ∈ voyages') → s.Stage D timers voyages' now i p' := by
  have hb := h.built i nd hnd
  have hact : nd.proposer.activated = true := h.asked _ hmem nd hnd
  have hendorse : s.Endorses resp := h.lawful _ hmem
  cases h.stage i nd hnd hlive with
  | idle _ _ hno => rw [hno] at hact; cases hact
  | waiting _ _ hno => rw [hno] at hact; cases hact
  | decided hstep hd ha hpend hstart =>
    refine ⟨nd.proposer, ?_, hb, hact, fun timers voyages' now htimers hnow _ =>
      .decided hstep hd ha (htimers.trans hpend) (hstart.trans hnow)⟩
    rw [Proposer.onResponse_eq, if_pos (by rw [hd]; rfl)]
  | active hstep hd ha hpend hstart hsent hresp hquorum hdue =>
    have hcounted : ∀ l r, (nd.proposer.noted j resp).Counted l r → s.Endorses r := by
      intro l r hr
      rcases Proposer.counted_noted hr with hold | ⟨-, rfl⟩
      · exact hresp l r hold
      · exact hendorse
    have htaken : nd.proposer.onResponse j resp draw =
        if nd.proposer.quorumThreshold ≤ (nd.proposer.noted j resp).responses.keys.length then
          (nd.proposer.noted j resp).processQuorum draw
        else .ok (nd.proposer.noted j resp, []) := by
      have hmatch : ¬ (resp.slot ≠ nd.proposer.slot ∨ resp.reqStep ≠ nd.proposer.step) := by
        rw [hendorse.slot, hendorse.reqStep, hb.slot, hstep]
        simp
      rw [Proposer.onResponse_eq, if_neg (by simp [hd]), if_neg hmatch]
    have hbn : s.Built i (nd.proposer.noted j resp) :=
      ⟨hb.selfId, hb.slot, hb.totalReplicas, hb.leader, hb.delay, hb.value, hb.stocked⟩
    by_cases hq : (nd.proposer.noted j resp).Quorate
    · refine ⟨{ nd.proposer.noted j resp with decided := some s.value }, ?_,
        ⟨hb.selfId, hb.slot, hb.totalReplicas, hb.leader, hb.delay, hb.value, hb.stocked⟩, hact,
        fun timers voyages' now htimers hnow _ => .decided hstep rfl ha (htimers.trans hpend) (hstart.trans hnow)⟩
      rw [htaken, if_pos (show nd.proposer.quorumThreshold ≤ _ from hq)]
      exact Slot.decides_of_endorsed hcounted hstep hq draw
    · refine ⟨nd.proposer.noted j resp, ?_, hbn, hact, fun timers voyages' now htimers hnow hkeep =>
        .active hstep hd ha (htimers.trans hpend) (hstart.trans hnow) hsent hcounted hq fun l hl hup => ?_⟩
      · rw [htaken, if_neg (show ¬ nd.proposer.quorumThreshold ≤ _ from hq)]
      · have hin : ∀ l, l ∈ nd.proposer.responses ∨ l = j → l ∈ (nd.proposer.noted j resp).responses := by
          intro l hl
          unfold Proposer.noted
          dsimp only
          split_ifs with hj
          · rcases hl with hl | rfl
            · exact hl
            · exact hj
          · rw [AList.mem_insert]
            exact hl.symm
        rcases hdue l hl hup with hold | ⟨t, q, hv, hle⟩ | ⟨t, r, hv, hle⟩
        · exact .inl (hin l (.inl hold))
        · refine .inr (.inl ⟨t, q, hkeep _ hv fun heq => ?_, hle⟩)
          exact absurd (congrArg (fun v => v.2.payload) heq) (by simp)
        · by_cases heq : (t, (⟨l, i, .response r⟩ : Envelope (ConcreteMsg V))) = (time, ⟨j, i, .response resp⟩)
          · exact .inl (hin l (.inr (congrArg (fun v => v.2.src) heq)))
          · exact .inr (.inr ⟨t, r, hkeep _ hv heq, hle⟩)

/-- **A reply arrives.** -/
theorem Prompt.answered (h : Prompt s D k) (hs' : Sim.Sound k') (hplan' : k'.Unplanned) (hnow : k.now ≤ time)
    {j : NodeId} {resp : RecordResponse V} (hfly : k.voyages = (time, ⟨j, i, .response resp⟩) ::ₘ voyages)
    (hlive : s.down i = false) (hnd : k.nodes i = some nd) {draw : NodeId → Draw} {p' : Proposer V}
    (hr : nd.proposer.onResponse j resp draw = .ok (p', fx))
    (ha : Acted D k k' time i ({ nd with proposer := p' }, (), fx) k.pending voyages) : Prompt s D k' := by
  have hmem : (time, ⟨j, i, .response resp⟩) ∈ k.voyages := by rw [hfly]; exact Multiset.mem_cons_self _ _
  have hsub : ∀ v ∈ voyages, v ∈ k.voyages := fun v hv => by rw [hfly]; exact Multiset.mem_cons_of_mem hv
  have hkeep : ∀ v ∈ k.voyages, v ≠ (time, ⟨j, i, .response resp⟩) → v ∈ k'.voyages := by
    intro v hv hne
    rw [hfly, Multiset.mem_cons] at hv
    exact ha.keeps (hv.resolve_left hne)
  obtain ⟨p₁, hp₁, hbuilt, hact, hstage⟩ := h.answer hmem hlive hnd draw
  rw [hp₁] at hr
  obtain ⟨rfl, rfl⟩ := Prod.mk.inj (Except.ok.inj hr)
  have hpend' : k'.pending = k.pending := by
    rw [ha.pending]
    exact add_zero _
  refine h.acted hs' hplan' hnd ha hsub (h.registers i nd hnd) hbuilt (fun _ => hact)
    (fun _ => hstage k'.pending k'.voyages time (by rw [hpend']) hnow hkeep) (fun l x hl hx hup hold => ?_)
    (fun e he => absurd he (by simp [sendsOf])) (fun l x hx hup => ?_)
  · refine hold.frame (by rw [hpend']) hnow fun m _ _ hw => ?_
    rcases hw with hin | ⟨t, q, hv, hle⟩ | ⟨t, r, hv, hle⟩
    · exact .inl hin
    · refine .inr (.inl ⟨t, q, hkeep _ hv fun heq => ?_, hle⟩)
      exact absurd (congrArg (fun v => v.2.payload) heq) (by simp)
    · refine .inr (.inr ⟨t, r, hkeep _ hv fun heq => hl ?_, hle⟩)
      exact congrArg (fun v => v.2.dst) heq
  · refine h.still_heard hnd rfl ha (fun hkick => hkick) (fun t a b req hv => ?_) hx hup
    rw [hfly, Multiset.mem_cons] at hv
    exact hv.resolve_left fun heq => absurd (congrArg (fun v => v.2.payload) heq) (by simp)

/-- what can happen next to a slot -/
inductive Slot.Happens (s : Slot V) (D : ℕ) (k k' : Kernel (ReplicaNode V) Unit (ConcreteMsg V)) (time : ℕ) : Prop where
  | fires {i : NodeId} {id : TimerId} {timers : Multiset PendingTimer} {nd : ReplicaNode V} {draw : NodeId → Draw}
      {p' : Proposer V} {fx : List (Effect (ConcreteMsg V))} (hpend : k.pending = ⟨i, id, time⟩ ::ₘ timers)
      (hlive : s.down i = false) (hnd : k.nodes i = some nd)
      (hr : nd.proposer.onTimer id nd.localStep draw = .ok (p', fx))
      (ha : Acted D k k' time i ({ nd with proposer := p' }, (), fx) timers k.voyages)
  | serves {a i : NodeId} {req : RecordRequest V} {voyages : Multiset (ℕ × Envelope (ConcreteMsg V))}
      {nd : ReplicaNode V} (hfly : k.voyages = (time, ⟨a, i, .request req⟩) ::ₘ voyages) (hlive : s.down i = false)
      (hnd : k.nodes i = some nd)
      (ha : Acted D k k' time i
        ({ nd with recorder := (nd.recorder.handle req).1, localStep := (nd.recorder.handle req).2.step }, (),
          [.send a (.response (nd.recorder.handle req).2)]) k.pending voyages)
  | answers {j i : NodeId} {resp : RecordResponse V} {voyages : Multiset (ℕ × Envelope (ConcreteMsg V))}
      {nd : ReplicaNode V} {draw : NodeId → Draw} {p' : Proposer V}
      (hfly : k.voyages = (time, ⟨j, i, .response resp⟩) ::ₘ voyages) (hlive : s.down i = false)
      (hnd : k.nodes i = some nd) (hr : nd.proposer.onResponse j resp draw = .ok (p', []))
      (ha : Acted D k k' time i ({ nd with proposer := p' }, (), []) k.pending voyages)
  | lapses {node : NodeId} {id : TimerId} {timers : Multiset PendingTimer}
      (hpend : k.pending = ⟨node, id, time⟩ ::ₘ timers) (hgone : k.faults.isCrashed node = true ∨ k.nodes node = none)
      (hm : Missed k k' time timers k.voyages)

/-- **All that happens next**: no callback panics, and no message arrives in vain. -/
theorem Prompt.happens {ch : ConcreteCluster.Chance V} (h : Prompt s D k)
    (hturn : Sim.Turn D ch.harness k k' time) : s.Happens D k k' time := by
  have hup : ∀ {j}, k.faults.isCrashed j = false → s.down j = false := fun hlive => by rw [← h.down]; exact hlive
  cases hturn with
  | fired hpend hlive hnd hr ha =>
    rename_i r
    obtain ⟨nd', _, fx⟩ := r
    obtain ⟨p', hcall, rfl⟩ := ReplicaNode.withProposer_ok hr
    exact .fires hpend (hup hlive) hnd hcall ha
  | arrived hfly hlive hnd hr ha =>
    rename_i envelope _ nd rng r
    obtain ⟨a, i, payload⟩ := envelope
    obtain ⟨nd', _, fx⟩ := r
    cases payload with
    | request req =>
      obtain ⟨rfl, -, rfl⟩ : _ = nd' ∧ _ ∧ _ = fx := by simpa only [Prod.mk.injEq] using Except.ok.inj hr
      exact .serves hfly (hup hlive) hnd ha
    | response resp =>
      obtain ⟨p', hcall, rfl⟩ := ReplicaNode.withProposer_ok hr
      have hmem : (time, ⟨a, i, .response resp⟩) ∈ k.voyages := by rw [hfly]; exact Multiset.mem_cons_self _ _
      obtain ⟨p₁, hp₁, -⟩ := h.answer hmem (hup hlive) hnd rng
      obtain rfl : fx = [] := (Prod.mk.inj (Except.ok.inj (hcall.symm.trans hp₁))).2
      exact .answers hfly (hup hlive) hnd hcall ha
  | timerPanics hpend hlive hnd hr =>
    rename_i node id _ nd rng e
    obtain ⟨r, hok⟩ := (h.built node nd hnd).stocked.onTimer_ok id nd.localStep rng
    have hrun : nd.withProposer (nd.proposer.onTimer id nd.localStep rng) = .error e := hr
    rw [hok] at hrun
    cases hrun
  | messagePanics hfly hlive hnd hr =>
    rename_i envelope _ nd rng e
    obtain ⟨a, i, payload⟩ := envelope
    cases payload with
    | request req => cases hr
    | response resp =>
      have hmem : (time, ⟨a, i, .response resp⟩) ∈ k.voyages := by rw [hfly]; exact Multiset.mem_cons_self _ _
      obtain ⟨p', hok, -⟩ := h.answer hmem (hup hlive) hnd rng
      have hrun : nd.withProposer (nd.proposer.onResponse a resp rng) = .error e := hr
      rw [hok] at hrun
      cases hrun
  | lapsed hpend hgone hm => exact .lapses hpend hgone hm
  | lost hfly hgone hm =>
    obtain ⟨-, hdst, hlive⟩ := h.ends _ (by rw [hfly]; exact Multiset.mem_cons_self _ _)
    rcases hgone with hdown | hnone
    · rw [h.down, hlive] at hdown
      cases hdown
    · have hsome := (h.members _).2 hdst
      rw [hnone] at hsome
      cases hsome

/-- **What a turn keeps** -/
theorem Prompt.turn {ch : ConcreteCluster.Chance V} (h : Prompt s D k) (ht : s.Timely D) (hnow : k.now ≤ time)
    (hlt : time < MAX) (hsoonV : ∀ v ∈ k.voyages, time ≤ v.1) (hsoonT : ∀ t ∈ k.pending, time ≤ t.fireAt)
    (hplan' : (k.dispatch ch.harness).Unplanned) (hhap : s.Happens D k (k.dispatch ch.harness) time) :
    Prompt s D (k.dispatch ch.harness) ∧ (k.dispatch ch.harness).now = time := by
  have hs' : Sim.Sound (k.dispatch ch.harness) := dispatch_sound h.sound ch.harness
  cases hhap with
  | fires hpend hlive hnd hr ha => exact ⟨h.fired ht hs' hplan' hnow hlt hpend hlive hnd hr ha, ha.now⟩
  | serves hfly hlive hnd ha => exact ⟨h.served hs' hplan' hnow hsoonV hsoonT hfly hlive hnd ha, ha.now⟩
  | answers hfly hlive hnd hr ha => exact ⟨h.answered hs' hplan' hnow hfly hlive hnd hr ha, ha.now⟩
  | lapses hpend hgone hm => exact ⟨h.lapsed ht hs' hplan' hnow hpend hgone hm, hm.now⟩

/-- the same, of a turn that is due -/
theorem Prompt.due {ch : ConcreteCluster.Chance V} (h : Prompt s D k) (ht : s.Timely D) (hp : Punctual D ch.decide)
    {limit : ℕ} (hlimit : limit < MAX) (hdue : k.due limit = true) :
    ∃ time, time ≤ limit ∧ (∀ v ∈ k.voyages, time ≤ v.1) ∧ s.Happens D k (k.dispatch ch.harness) time ∧
      Prompt s D (k.dispatch ch.harness) ∧ (k.dispatch ch.harness).now = time := by
  obtain ⟨time, hnow, hle, hsoonV, hsoonT, hplan', hturn⟩ :=
    turn_cases ch.harness hp ht.pos h.sound h.calm h.unplanned h.ok hlimit hdue
  have hhap := h.happens hturn
  exact ⟨time, hle, hsoonV, hhap, h.turn ht hnow (hle.trans_lt hlimit) hsoonV hsoonT hplan' hhap⟩

end Messages

end Turns

end Queso
