/-
Algorithm 1 over `tcast`: one slot, driven round by round for every live replica in lock step.

In a round each live replica draws a priority for its value; three calls of `tcast` give it `P`, then `E` with the shared
`P'`, then `C` with the shared `U`. It takes over the value of `best(C)` and decides it if `best(E) = best(U)`. The third
call is made with `P'` by everyone, so `U` and every `C` are `P'` itself, and `P'` is part of every `E`: after a round all
live replicas hold one value (`Concludes`), and what a later round can decide is that value again.

A driver crashes, restarts, partitions and heals between rounds. A round that panics ends the run. `rounds_run` is a `u32`
in the source and does not wrap here.
-/
import Queso.Consensus.Tcast

namespace Queso.Algorithm

open Sim

variable {V : Type}

/-! ## The cluster -/

structure ReplicaState (V : Type) where
  v : V
  decided : Option V
  roundsRun : ℕ
deriving DecidableEq

/-- `live` lists the live replicas in ascending order -/
structure Cluster (V : Type) where
  kernel : Net V
  replicas : List NodeId
  state : NodeId → Option (ReplicaState V)
  live : List NodeId

/-- what a round computes: the proposals and the three calls -/
structure Round (V : Type) where
  live : List NodeId
  p : NodeId → Option (Proposal V)
  call1 : TcastResult V
  call2 : TcastResult V
  call3 : TcastResult V
  newlyDecided : List NodeId

def bestAt [LinearOrder V] (sets : Sets V) (id : NodeId) : Option (Proposal V) := (sets id).bind best

inductive RoundPanic where
  /-- "priority timer must have fired for every live replica", or the replica is unknown -/
  | noPriority (id : NodeId)
  | tcast (e : TcastPanic)
  /-- "must be nonempty: every live replica proposes", of `U`, `C_i` or `E_i` -/
  | emptySet
deriving DecidableEq, Repr

namespace Round

/-- `tcast({p})` -/
def inputs1 (r : Round V) : Sets V := fun i => (r.p i).map ({·})

/-- `tcast(P)` -/
def inputs2 (r : Round V) : Sets V := r.call1.r

/-- `tcast(P')` -/
def inputs3 (r : Round V) : Sets V := fun i => if i ∈ r.live then some r.call2.b else none

end Round

namespace Cluster

def new (initialValues : AList fun _ : NodeId => V) : Cluster V where
  kernel := { (Kernel.new () : Net V) with nodes := fun id => (initialValues.lookup id).map fun _ => .new }
  replicas := initialValues.keys.insertionSort (· ≤ ·)
  state := fun id => (initialValues.lookup id).map fun v => ⟨v, none, 0⟩
  live := initialValues.keys.insertionSort (· ≤ ·)

def crash (hn : Link V) (id : NodeId) (c : Cluster V) : Cluster V :=
  { c with kernel := c.kernel.applyFaultCommand hn (.crash id), live := c.live.erase id }

/-- the replica's `ReplicaState` is as it was -/
def restart (hn : Link V) (id : NodeId) (c : Cluster V) : Cluster V :=
  { c with
    kernel := c.kernel.applyFaultCommand hn (.restart id)
    live := if id ∈ c.live then c.live else c.live.orderedInsert (· ≤ ·) id }

/-- a partitioned replica counts as live -/
def partition (hn : Link V) (groupA groupB : Finset NodeId) (c : Cluster V) : Cluster V :=
  { c with kernel := c.kernel.applyFaultCommand hn (.partition groupA groupB) }

def heal (hn : Link V) (c : Cluster V) : Cluster V := { c with kernel := c.kernel.applyFaultCommand hn .heal }

def decided (c : Cluster V) (id : NodeId) : Option V := (c.state id).bind (·.decided)

def allLiveDecided (c : Cluster V) : Bool := !c.live.isEmpty && c.live.all fun id => (c.decided id).isSome

/-! ## A round -/

/-- one timer for each live replica, and the kernel runs -/
def drawPriorities (hn : Link V) (live : List NodeId) (k : Net V) : Net V :=
  run hn (live.foldl (fun k id => k.scheduleTimer id 0 DRAW_PRIORITY_TIMER) k)

/-- the priorities are taken out of their cells -/
def takePriorities (live : List NodeId) (k : Net V) : Net V :=
  { k with
    nodes := fun i =>
      if i ∈ live then (k.nodes i).map fun nd => { nd with drawnPriority := none } else k.nodes i }

/-- `p_i = <v_i, random()>` -/
def proposals (c : Cluster V) (k : Net V) : NodeId → Option (Proposal V) := fun i =>
  match c.state i, drawn k i with
  | some st, some priority => if i ∈ c.live then some ⟨st.v, priority.toNat, i⟩ else none
  | _, _ => none

variable [LinearOrder V]

/-- the three calls -/
def disseminate (hn : Link V) (live : List NodeId) (n : ℕ) (p : NodeId → Option (Proposal V)) (k : Net V) :
    Except TcastPanic (Round V × Net V) :=
  match tcast hn live n (fun i => (p i).map ({·})) k with
  | .error e => .error e
  | .ok (call1, k) =>
    match tcast hn live n call1.r k with
    | .error e => .error e
    | .ok (call2, k) =>
      match tcast hn live n (fun i => if i ∈ live then some call2.b else none) k with
      | .error e => .error e
      | .ok (call3, k) => .ok (⟨live, p, call1, call2, call3, []⟩, k)

/-- a replica's state after the round -/
def settle (uBest cBest eBest : Proposal V) (st : ReplicaState V) : ReplicaState V where
  v := cBest.value
  decided := if st.decided = none ∧ eBest = uBest then some cBest.value else st.decided
  roundsRun := st.roundsRun + 1

/-- the replica decides in this round -/
def decidesNow (c : Cluster V) (r : Round V) (uBest : Proposal V) (id : NodeId) : Bool :=
  decide (c.decided id = none) && decide (bestAt r.call2.r id = some uBest)

/-- where some set is empty the round panics before this -/
def settleAll (c : Cluster V) (r : Round V) (uBest : Proposal V) : NodeId → Option (ReplicaState V) := fun id =>
  if id ∈ c.live then
    match c.state id, bestAt r.call3.r id, bestAt r.call2.r id with
    | some st, some cBest, some eBest => some (settle uBest cBest eBest st)
    | st, _, _ => st
  else c.state id

/-- the debug assertion of `U ⊆ C_j ⊆ E_i` is a theorem about the round, `Round.Meets.crux` -/
def runRound (hn : Link V) (c : Cluster V) : Except RoundPanic (Round V × Cluster V) :=
  let k := drawPriorities hn c.live c.kernel
  match c.live.find? fun id => (drawn k id).isNone || (c.state id).isNone with
  | some id => .error (.noPriority id)
  | none =>
    match disseminate hn c.live c.replicas.length (c.proposals k) (takePriorities c.live k) with
    | .error e => .error (.tcast e)
    | .ok (r, k) =>
      match best r.call3.b with
      | none => .error .emptySet
      | some uBest =>
        if c.live.any fun id => (bestAt r.call3.r id).isNone || (bestAt r.call2.r id).isNone then .error .emptySet
        else
          .ok ({ r with newlyDecided := c.live.filter (c.decidesNow r uBest) },
            { c with kernel := k, state := c.settleAll r uBest })

/-- rounds until every live replica has decided, `maxRounds` at most -/
def runSlot (hn : Link V) : ℕ → Cluster V → Except RoundPanic (List (Round V) × Cluster V)
  | 0, c => .ok ([], c)
  | maxRounds + 1, c =>
    if c.allLiveDecided then .ok ([], c)
    else match c.runRound hn with
      | .error e => .error e
      | .ok (r, c) =>
        match runSlot hn maxRounds c with
        | .error e => .error e
        | .ok (rs, c) => .ok (r :: rs, c)

end Cluster

/-- what a driver of the cluster can call -/
inductive ClusterOp where
  | crash (id : NodeId)
  | restart (id : NodeId)
  | partition (groupA groupB : Finset NodeId)
  | heal
  | runRound
  | runSlot (maxRounds : ℕ)

namespace Cluster

variable [LinearOrder V]

/-- the rounds that a call ran, and the cluster after it; or the panic of a round -/
def step (hn : Link V) (c : Cluster V) : ClusterOp → Except RoundPanic (List (Round V) × Cluster V)
  | .crash id => .ok ([], c.crash hn id)
  | .restart id => .ok ([], c.restart hn id)
  | .partition groupA groupB => .ok ([], c.partition hn groupA groupB)
  | .heal => .ok ([], c.heal hn)
  | .runRound =>
    match c.runRound hn with
    | .error e => .error e
    | .ok (r, c) => .ok ([r], c)
  | .runSlot maxRounds => c.runSlot hn maxRounds

/-- a run of the driver: all rounds, and the cluster at the end -/
def drive (hn : Link V) (c : Cluster V) : List ClusterOp → Except RoundPanic (List (Round V) × Cluster V)
  | [] => .ok ([], c)
  | op :: ops =>
    match c.step hn op with
    | .error e => .error e
    | .ok (rs, c) =>
      match drive hn c ops with
      | .error e => .error e
      | .ok (rs', c) => .ok (rs ++ rs', c)

end Cluster

/-! ## Drawing priorities -/

section Drawing

variable {Ok : NodeId → ProposalSet V → Prop} {live : List NodeId} {k : Net V}
  (scheduler : Sim.Envelope (ProposalSet V) → SchedulerCtx → Decision) (rng : ℕ → UInt64)

theorem Idle.carrying (h : Idle live k) : Carrying (fun _ _ => True) live k where
  sound := h.sound
  running := h.running
  calm := fun e he => by rw [h.empty] at he; cases he
  up := h.up
  flying := fun _ _ _ => trivial
  mail := fun _ _ _ _ _ => trivial

theorem Carrying.scheduleTimer (h : Carrying Ok live k) (i : NodeId) (after : ℕ) (timerId : TimerId) :
    Carrying Ok live (k.scheduleTimer i after timerId) where
  sound := scheduleTimer_sound h.sound i after timerId
  running := h.running
  calm := fun e he cmd => by
    rcases Agenda.mem_schedule.1 he with rfl | he
    · exact EventKind.noConfusion
    · exact h.calm e he cmd
  up := h.up
  flying := h.flying
  mail := h.mail

/-- every live replica has drawn, or its timer is on the agenda -/
def Drawing (live : List NodeId) (k : Net V) : Prop :=
  ∀ i ∈ live, (drawn k i).isSome ∨ ∃ e ∈ k.queue, e.kind = .timer i DRAW_PRIORITY_TIMER

/-- the timers of a round -/
theorem Carrying.schedule_draws (h : Carrying Ok live k) (l : List NodeId) :
    Carrying Ok live (l.foldl (fun k id => k.scheduleTimer id 0 DRAW_PRIORITY_TIMER) k) ∧
      (l.foldl (fun k id => k.scheduleTimer id 0 DRAW_PRIORITY_TIMER) k).nodes = k.nodes ∧
      ∀ i, i ∈ l ∨ (∃ e ∈ k.queue, e.kind = .timer i DRAW_PRIORITY_TIMER) →
        ∃ e ∈ (l.foldl (fun k id => k.scheduleTimer id 0 DRAW_PRIORITY_TIMER) k).queue,
          e.kind = .timer i DRAW_PRIORITY_TIMER := by
  induction l generalizing k with
  | nil => exact ⟨h, rfl, fun i hi => hi.resolve_left List.not_mem_nil⟩
  | cons id l ih =>
    obtain ⟨hcarry, hnodes, hqueue⟩ := ih (h.scheduleTimer id 0 DRAW_PRIORITY_TIMER)
    refine ⟨hcarry, hnodes, fun i hi => hqueue i ?_⟩
    rcases hi with hi | ⟨e, he, hkind⟩
    · rcases List.mem_cons.1 hi with rfl | hi
      · exact .inr ⟨_, Agenda.mem_schedule.2 (.inl rfl), rfl⟩
      · exact .inl hi
    · exact .inr ⟨e, Agenda.mem_schedule.2 (.inr he), hkind⟩

theorem dispatchTimer_draws {i : NodeId} (seq : ℕ) (hup : k.faults.isCrashed i = false) (hnd : (k.nodes i).isSome) :
    (drawn (k.dispatchTimer (link scheduler rng) i DRAW_PRIORITY_TIMER seq) i).isSome := by
  obtain ⟨nd, hnd⟩ := Option.isSome_iff_exists.1 hnd
  unfold Kernel.dispatchTimer
  rw [if_neg (by simp [hup]), hnd]
  have hat : ((k.recordAs seq fun time seq => .timerFired time seq i DRAW_PRIORITY_TIMER).perform (link scheduler rng) i
      (.ok (nd.onTimer (rng seq) DRAW_PRIORITY_TIMER, (), []))).nodes i =
        some (nd.onTimer (rng seq) DRAW_PRIORITY_TIMER) := Function.update_self ..
  exact Option.isSome_iff_exists.2 ⟨rng seq, drawn_of hat⟩

/-- a turn fires the first timer, and the others stay -/
theorem Drawing.dispatch (h : Drawing live k) (hc : Carrying Ok live k) :
    Drawing live (k.dispatch (link scheduler rng)) := by
  intro i hi
  cases hq : k.queue with
  | nil =>
    left
    unfold Kernel.dispatch
    rw [hq]
    refine (h i hi).resolve_right fun ⟨e, he, _⟩ => ?_
    rw [hq] at he
    cases he
  | cons e queue =>
    have ht : Turn (taking k e queue) ((taking k e queue).handle (link scheduler rng) e) :=
      taking_turn scheduler rng (hc.calm e (by rw [hq]; exact List.mem_cons_self))
    rw [dispatch_of_cons hq]
    rcases h i hi with hdrawn | ⟨x, hx, hkind⟩
    · exact .inl (ht.drawn i hdrawn)
    · rw [hq] at hx
      rcases List.mem_cons.1 hx with rfl | hx
      · left
        unfold Kernel.handle
        rw [hkind]
        exact dispatchTimer_draws (k := taking k x queue) scheduler rng x.seq (hc.up i hi).1 (hc.up i hi).2
      · exact .inr ⟨x, by rw [ht.queue]; exact hx, hkind⟩

/-- **Every live replica draws its priority** before the round's first call. -/
theorem drawPriorities_spec (h : Idle live k) :
    Idle live (Cluster.drawPriorities (link scheduler rng) live k) ∧
      (∀ i, ((Cluster.drawPriorities (link scheduler rng) live k).nodes i).isSome = (k.nodes i).isSome) ∧
      ∀ i ∈ live, (drawn (Cluster.drawPriorities (link scheduler rng) live k) i).isSome := by
  obtain ⟨hcarry, hnodes, hqueue⟩ := h.carrying.schedule_draws live
  obtain ⟨-, hkept, hidle⟩ := hcarry.run scheduler rng
  obtain ⟨-, hdrawing⟩ := runUntil_invariant (I := fun x => Carrying (fun _ _ => True) live x ∧ Drawing live x)
    (link scheduler rng) (fun x hx _ _ => ⟨(hx.1.dispatch scheduler rng).1, hx.2.dispatch scheduler rng hx.1⟩)
    ⟨hcarry, fun i hi => .inr (hqueue i (.inl hi))⟩ (run_returns scheduler rng _)
  refine ⟨hidle, fun i => ?_, fun i hi => ?_⟩
  · rw [← hnodes]
    exact hkept.nodes i
  · refine (hdrawing i hi).resolve_right fun ⟨e, he, _⟩ => ?_
    rw [hidle.empty] at he
    cases he

theorem nodes_takePriorities (i : NodeId) :
    ((Cluster.takePriorities live k).nodes i).isSome = (k.nodes i).isSome := by
  unfold Cluster.takePriorities
  dsimp only
  split_ifs
  · exact Option.isSome_map
  · rfl

theorem Idle.takePriorities (h : Idle live k) : Idle live (Cluster.takePriorities live k) :=
  ⟨h.sound.frame _ k.shared k.leader k.halted, h.running, h.empty, h.quiet,
    fun i hi => ⟨(h.up i hi).1, by rw [nodes_takePriorities]; exact (h.up i hi).2⟩⟩

end Drawing

/-! ## The contract of a round -/

section Contract

variable {live : List NodeId} {n : ℕ} {r : Round V} {k : Net V} {c : Cluster V}

theorem proposals_isSome {i : NodeId} (hi : i ∈ c.live) (hst : (c.state i).isSome) (hdrawn : (drawn k i).isSome) :
    (c.proposals k i).isSome := by
  obtain ⟨st, hst⟩ := Option.isSome_iff_exists.1 hst
  obtain ⟨priority, hdrawn⟩ := Option.isSome_iff_exists.1 hdrawn
  unfold Cluster.proposals
  rw [hst, hdrawn]
  dsimp only
  rw [if_pos hi]
  rfl

theorem proposals_value {i : NodeId} {p : Proposal V} (h : c.proposals k i = some p) :
    ∃ st, c.state i = some st ∧ st.v = p.value := by
  unfold Cluster.proposals at h
  split at h
  · next st priority hst hdrawn =>
    split_ifs at h
    obtain rfl := Option.some.inj h
    exact ⟨st, hst, rfl⟩
  · cases h

/-- each of the three calls meets the contract of `tcast` -/
structure Round.Meets (n : ℕ) (r : Round V) : Prop where
  majority : n < 2 * r.live.length
  first : Delivers r.live n r.inputs1 r.call1
  second : Delivers r.live n r.inputs2 r.call2
  third : Delivers r.live n r.inputs3 r.call3

theorem Round.inputs3_eq {i : NodeId} {P : ProposalSet V} (h : r.inputs3 i = some P) : P = r.call2.b := by
  unfold Round.inputs3 at h
  split_ifs at h
  exact (Option.some.inj h).symm

/-- every replica makes the third call with `P'`, so `U` is `P'` -/
theorem Round.Meets.universal_eq (h : r.Meets n) : r.call3.b = r.call2.b := by
  obtain ⟨j, -, hj, -⟩ := h.third.universal
  exact Round.inputs3_eq hj

/-- and so is every `C` -/
theorem Round.Meets.common_eq (h : r.Meets n) {j : NodeId} (hj : j ∈ r.live) : r.call3.r j = some r.call3.b := by
  obtain ⟨C, hC, -⟩ := h.third.majority j hj
  obtain ⟨-, -, -, hsub⟩ := h.third.universal
  have heq : C = r.call3.b := by
    apply Finset.Subset.antisymm
    · intro p hp
      obtain ⟨i, -, P, hP, hmem⟩ := h.third.genuine j hj C hC p hp
      rw [h.universal_eq, ← Round.inputs3_eq hP]
      exact hmem
    · exact hsub j hj C hC
  rw [hC, heq]

/-- **`U ⊆ C_j ⊆ E_i`** -/
theorem Round.Meets.crux (h : r.Meets n) {i j : NodeId} (hi : i ∈ r.live) (hj : j ∈ r.live) :
    ∃ C E, r.call3.r j = some C ∧ r.call2.r i = some E ∧ r.call3.b ⊆ C ∧ C ⊆ E := by
  obtain ⟨E, hE, -⟩ := h.second.majority i hi
  obtain ⟨-, -, -, hsub⟩ := h.second.universal
  refine ⟨r.call3.b, E, h.common_eq hj, hE, Finset.Subset.refl _, ?_⟩
  rw [h.universal_eq]
  exact hsub i hi E hE

/-- what `U` holds was proposed in this round by a live replica -/
theorem Round.Meets.proposed (h : r.Meets n) {p : Proposal V} (hp : p ∈ r.call3.b) : ∃ j ∈ r.live, r.p j = some p := by
  obtain ⟨j, hj, hB, -⟩ := h.second.universal
  rw [h.universal_eq] at hp
  obtain ⟨i, hi, P, hP, hmem⟩ := h.first.genuine j hj r.call2.b hB p hp
  obtain ⟨q, hq, rfl⟩ := Option.map_eq_some_iff.1 hP
  exact ⟨i, hi, by rw [hq, Finset.mem_singleton.1 hmem]⟩

/-- a majority is not empty, so neither is `U` -/
theorem Round.Meets.nonempty (h : r.Meets n) : r.call3.b.Nonempty := by
  obtain ⟨j, hj, hB, -⟩ := h.second.universal
  obtain ⟨P, hP, S, hcard, hS⟩ := h.first.majority j hj
  have hsome : S.Nonempty := Finset.card_pos.1 (by omega)
  obtain ⟨i, hi⟩ := hsome
  obtain ⟨-, Q, hQ, hsub⟩ := hS i hi
  obtain ⟨q, -, rfl⟩ := Option.map_eq_some_iff.1 hQ
  rw [h.universal_eq]
  obtain rfl : P = r.call2.b := Option.some.inj (hP.symm.trans hB)
  exact ⟨q, hsub (Finset.mem_singleton_self q)⟩

/-! ## What a round does -/

/-- between two calls of the driver -/
structure Standing (c : Cluster V) : Prop where
  idle : Idle c.live c.kernel
  distinct : c.live.Nodup
  known : ∀ i ∈ c.live, (c.state i).isSome
  hosted : ∀ i, (c.state i).isSome → (c.kernel.nodes i).isSome

/-- the round's value is the value of a live replica, and every live replica takes it over or decides it -/
structure Concludes (c c' : Cluster V) (r : Round V) (w : V) : Prop where
  live : c'.live = c.live
  replicas : c'.replicas = c.replicas
  round : r.live = c.live
  newly : ∀ i ∈ r.newlyDecided, i ∈ c.live
  proposed : ∃ j ∈ c.live, ∃ st, c.state j = some st ∧ st.v = w
  settled : ∀ i ∈ c.live, ∃ st st', c.state i = some st ∧ c'.state i = some st' ∧ st'.v = w ∧
    (i ∉ r.newlyDecided ∧ st'.decided = st.decided ∨
      i ∈ r.newlyDecided ∧ st.decided = none ∧ st'.decided = some w)
  others : ∀ i, i ∉ c.live → c'.state i = c.state i

theorem Concludes.state_isSome {c' : Cluster V} {w : V} (h : Concludes c c' r w) (i : NodeId) :
    (c'.state i).isSome = (c.state i).isSome := by
  by_cases hi : i ∈ c.live
  · obtain ⟨st, st', hst, hst', -⟩ := h.settled i hi
    rw [hst, hst']
    rfl
  · rw [h.others i hi]

variable [LinearOrder V] (scheduler : Sim.Envelope (ProposalSet V) → SchedulerCtx → Decision) (rng : ℕ → UInt64)

theorem best_mem {set : ProposalSet V} {p : Proposal V} (h : best set = some p) : p ∈ set := by
  unfold best at h
  split_ifs at h
  obtain rfl := Option.some.inj h
  exact Finset.max'_mem ..

theorem best_of_nonempty {set : ProposalSet V} (h : set.Nonempty) : ∃ p, best set = some p :=
  ⟨set.max' h, dif_pos h⟩

/-- **The three calls** of a round meet their contract, or a call gives up. -/
theorem disseminate_spec {p : NodeId → Option (Proposal V)} (h : Idle live k) (hlive : live.Nodup)
    (hmajority : n < 2 * live.length) (hp : ∀ i ∈ live, (p i).isSome) :
    Cluster.disseminate (link scheduler rng) live n p k = .error .notConverged ∨
      ∃ r k', Cluster.disseminate (link scheduler rng) live n p k = .ok (r, k') ∧ r.live = live ∧ r.p = p ∧ r.Meets n ∧
        Idle live k' ∧ ∀ i, (k'.nodes i).isSome = (k.nodes i).isSome := by
  unfold Cluster.disseminate
  rcases tcast_spec scheduler rng h hlive hmajority (fun i hi => Option.isSome_map.trans (hp i hi)) with hfail | ⟨call1, k₁, hcall, hfirst, hidle₁, hnodes₁⟩
  · rw [hfail]
    exact .inl rfl
  rw [hcall]
  dsimp only
  have hr : ∀ {inputs : Sets V} {res : TcastResult V}, Delivers live n inputs res → ∀ i ∈ live, (res.r i).isSome := by
    intro inputs res hdel i hi
    obtain ⟨R, hR, -⟩ := hdel.majority i hi
    rw [hR]
    rfl
  rcases tcast_spec scheduler rng hidle₁ hlive hmajority (hr hfirst) with
    hfail | ⟨call2, k₂, hcall, hsecond, hidle₂, hnodes₂⟩
  · rw [hfail]
    exact .inl rfl
  rw [hcall]
  dsimp only
  have hshared : ∀ i ∈ live, (if i ∈ live then some call2.b else none : Option (ProposalSet V)).isSome := fun i hi => by
    rw [if_pos hi]
    rfl
  rcases tcast_spec scheduler rng hidle₂ hlive hmajority hshared with
    hfail | ⟨call3, k₃, hcall, hthird, hidle₃, hnodes₃⟩
  · rw [hfail]
    exact .inl rfl
  rw [hcall]
  exact .inr ⟨_, _, rfl, rfl, rfl, ⟨hmajority, hfirst, hsecond, hthird⟩, hidle₃, fun i =>
    (hnodes₃ i).trans ((hnodes₂ i).trans (hnodes₁ i))⟩

/-- what becomes of a live replica -/
theorem settleAll_spec {uBest : Proposal V} (hmeets : r.Meets n) (hlive : r.live = c.live)
    (hbest : best r.call3.b = some uBest) {i : NodeId} (hi : i ∈ c.live) {st : ReplicaState V}
    (hst : c.state i = some st) : ∃ st', c.settleAll r uBest i = some st' ∧ st'.v = uBest.value ∧
      (i ∉ c.live.filter (c.decidesNow r uBest) ∧ st'.decided = st.decided ∨
        i ∈ c.live.filter (c.decidesNow r uBest) ∧ st.decided = none ∧ st'.decided = some uBest.value) := by
  obtain ⟨C, E, hC, hE, hUC, hCE⟩ := hmeets.crux (i := i) (j := i) (hlive ▸ hi) (hlive ▸ hi)
  obtain ⟨eBest, hEbest⟩ := best_of_nonempty ((hmeets.nonempty.mono hUC).mono hCE)
  have hcommon : bestAt r.call3.r i = some uBest := by
    unfold bestAt
    rw [hmeets.common_eq (hlive ▸ hi)]
    exact hbest
  have hexistent : bestAt r.call2.r i = some eBest := by
    unfold bestAt
    rw [hE]
    exact hEbest
  have hnewly : i ∈ c.live.filter (c.decidesNow r uBest) ↔ st.decided = none ∧ eBest = uBest := by
    rw [List.mem_filter]
    simp [Cluster.decidesNow, Cluster.decided, hst, hexistent, hi]
  refine ⟨Cluster.settle uBest uBest eBest st, ?_, rfl, ?_⟩
  · unfold Cluster.settleAll
    rw [if_pos hi, hst, hcommon, hexistent]
  · by_cases hdec : st.decided = none ∧ eBest = uBest
    · exact .inr ⟨hnewly.2 hdec, hdec.1, if_pos hdec⟩
    · exact .inl ⟨fun hmem => hdec (hnewly.1 hmem), if_neg hdec⟩

/-- the sets of a live replica are not empty -/
theorem bestAt_isSome (hmeets : r.Meets n) {i : NodeId} (hi : i ∈ r.live) :
    (bestAt r.call3.r i).isSome ∧ (bestAt r.call2.r i).isSome := by
  obtain ⟨C, E, hC, hE, hUC, hCE⟩ := hmeets.crux hi hi
  obtain ⟨p, hCbest⟩ := best_of_nonempty (hmeets.nonempty.mono hUC)
  obtain ⟨q, hEbest⟩ := best_of_nonempty ((hmeets.nonempty.mono hUC).mono hCE)
  unfold bestAt
  rw [hC, hE]
  exact ⟨Option.isSome_iff_exists.2 ⟨p, hCbest⟩, Option.isSome_iff_exists.2 ⟨q, hEbest⟩⟩

theorem concludes (h : Standing c) {uBest : Proposal V} (k' : Net V) (hmeets : r.Meets n) (hlive : r.live = c.live)
    (hp : r.p = c.proposals k) (hbest : best r.call3.b = some uBest) :
    Concludes c { c with kernel := k', state := c.settleAll r uBest }
      { r with newlyDecided := c.live.filter (c.decidesNow r uBest) } uBest.value where
  live := rfl
  replicas := rfl
  round := hlive
  newly := fun i hi => List.mem_of_mem_filter hi
  proposed := by
    obtain ⟨j, hj, hpj⟩ := hmeets.proposed (best_mem hbest)
    rw [hp] at hpj
    obtain ⟨st, hst, hv⟩ := proposals_value hpj
    exact ⟨j, hlive ▸ hj, st, hst, hv⟩
  settled := fun i hi => by
    obtain ⟨st, hst⟩ := Option.isSome_iff_exists.1 (h.known i hi)
    obtain ⟨st', hst', hv, hdec⟩ := settleAll_spec hmeets hlive hbest hi hst
    exact ⟨st, st', hst, hst', hv, hdec⟩
  others := fun i hi => if_neg hi

/-- **One round**: it panics without a live majority; or a call of `tcast` gives up; or its calls meet their contract
and all live replicas end with one value. -/
theorem runRound_cases (h : Standing c) :
    (2 * c.live.length ≤ c.replicas.length ∧
      c.runRound (link scheduler rng) = .error (.tcast .noLiveMajority)) ∨
    c.replicas.length < 2 * c.live.length ∧
      (c.runRound (link scheduler rng) = .error (.tcast .notConverged) ∨
        ∃ r c' w, c.runRound (link scheduler rng) = .ok (r, c') ∧ r.Meets c.replicas.length ∧ Concludes c c' r w ∧
          Standing c') := by
  obtain ⟨hdrawnIdle, hdrawnNodes, hdrawn⟩ := drawPriorities_spec scheduler rng h.idle
  have hall : c.live.find? (fun id => (drawn (Cluster.drawPriorities (link scheduler rng) c.live c.kernel) id).isNone ||
      (c.state id).isNone) = none := by
    apply List.find?_eq_none.2
    intro i hi
    simp [Option.isSome_iff_ne_none.1 (hdrawn i hi), Option.isSome_iff_ne_none.1 (h.known i hi)]
  unfold Cluster.runRound
  dsimp only
  rw [hall]
  dsimp only
  by_cases hmajority : 2 * c.live.length ≤ c.replicas.length
  · left
    unfold Cluster.disseminate tcast
    rw [if_pos hmajority]
    exact ⟨hmajority, rfl⟩
  right
  refine ⟨by omega, ?_⟩
  rcases disseminate_spec scheduler rng (n := c.replicas.length)
    (p := c.proposals (Cluster.drawPriorities (link scheduler rng) c.live c.kernel)) hdrawnIdle.takePriorities h.distinct
    (by omega) (fun i hi => proposals_isSome hi (h.known i hi) (hdrawn i hi)) with
    hfail | ⟨r, k', hcalls, hlive, hp, hmeets, hidle, hnodes⟩
  · rw [hfail]
    exact .inl rfl
  right
  obtain ⟨uBest, hbest⟩ := best_of_nonempty hmeets.nonempty
  have hany : (c.live.any fun id => (bestAt r.call3.r id).isNone || (bestAt r.call2.r id).isNone) = false := by
    apply List.any_eq_false.2
    intro i hi
    have hsets := bestAt_isSome hmeets (hlive ▸ hi)
    simp [Option.isSome_iff_ne_none.1 hsets.1, Option.isSome_iff_ne_none.1 hsets.2]
  have hconcludes := concludes h k' hmeets hlive hp hbest
  rw [hcalls]
  dsimp only
  rw [hbest]
  dsimp only
  rw [if_neg (by rw [hany]; exact Bool.false_ne_true)]
  refine ⟨_, _, uBest.value, rfl, ⟨hmeets.majority, hmeets.first, hmeets.second, hmeets.third⟩, hconcludes, ?_⟩
  exact
    { idle := hidle
      distinct := h.distinct
      known := fun i hi => by rw [hconcludes.state_isSome]; exact h.known i hi
      hosted := fun i hi => by
        rw [hconcludes.state_isSome] at hi
        rw [hnodes, nodes_takePriorities, hdrawnNodes]
        exact h.hosted i hi }

end Contract

end Queso.Algorithm
