/-
What a schedule means at an instant, and how the driver moves the cluster there.

`desiredOf` is the one definition of it: the links cut, the processes down and the latency, from the faults in force.
`reconcile` injects the difference of two such states and counts what it breaks.

- `live_majority_connected`: at every instant of a generated schedule, a majority of the nodes is left, with every link
  among them whole in both directions.
- `reconcile_mirrors`: a cluster that mirrors one state mirrors the next one afterwards, and nothing is skipped.
-/
import Mathlib.Data.Finset.Prod
import Queso.Soak.Schedule

namespace Queso.Soak

/-- a directed link: the sender and the receiver -/
abbrev Link := ℕ × ℕ

/-- the faults that are or should be injected -/
structure Injected where
  cuts : Finset Link
  crashed : Finset ℕ
  latencyMs : ℕ
deriving DecidableEq

namespace Injected

def default : Injected := ⟨∅, ∅, 0⟩

def apply (replicas : ℕ) (state : Injected) : Fault → Injected
  | .isolate node =>
    { state with
      cuts := state.cuts ∪ ((Finset.range replicas).erase node).biUnion fun peer => {(node, peer), (peer, node)} }
  | .cutLink src dst => { state with cuts := insert (src, dst) state.cuts }
  | .crash node => { state with crashed := insert node state.crashed }
  -- of two latency faults the worse one is in force
  | .latency ms => { state with latencyMs := max state.latencyMs ms }

def desiredOf (faults : List ScheduledFault) (t replicas : ℕ) : Injected :=
  ((activeAt faults t).map ScheduledFault.fault).foldl (apply replicas) default

def desired (schedule : Schedule) (t replicas : ℕ) : Injected := desiredOf schedule.faults t replicas

end Injected

/-! ## What is in force -/

/-- the fault cuts the link: one of both ends is isolated, or it is the link cut -/
def Fault.Severs (replicas : ℕ) (link : Link) : Fault → Prop
  | .isolate node => ∃ peer < replicas, peer ≠ node ∧ (link = (node, peer) ∨ link = (peer, node))
  | .cutLink src dst => link = (src, dst)
  | _ => False

namespace Injected

variable {faults : List ScheduledFault} {t replicas : ℕ} {link : Link} {state : Injected}

theorem mem_cuts_apply {fault : Fault} : link ∈ (state.apply replicas fault).cuts ↔
    link ∈ state.cuts ∨ fault.Severs replicas link := by
  cases fault with
  | isolate node =>
    have hpeers : link ∈ (((Finset.range replicas).erase node).biUnion fun peer => {(node, peer), (peer, node)}) ↔
        (Fault.isolate node).Severs replicas link := by
      rw [Finset.mem_biUnion]
      constructor
      · rintro ⟨peer, hpeer, hlink⟩
        obtain ⟨hne, hlt⟩ := Finset.mem_erase.1 hpeer
        exact ⟨peer, Finset.mem_range.1 hlt, hne, by simpa using hlink⟩
      · rintro ⟨peer, hlt, hne, hlink⟩
        exact ⟨peer, Finset.mem_erase.2 ⟨hne, Finset.mem_range.2 hlt⟩, by simpa using hlink⟩
    rw [← hpeers]
    exact Finset.mem_union
  | cutLink src dst =>
    rw [or_comm]
    exact Finset.mem_insert
  | crash node => simp [apply, Fault.Severs]
  | latency ms => simp [apply, Fault.Severs]

theorem mem_crashed_apply {fault : Fault} {node : ℕ} : node ∈ (state.apply replicas fault).crashed ↔
    node ∈ state.crashed ∨ fault = .crash node := by
  cases fault with
  | crash n =>
    rw [or_comm, Fault.crash.injEq, eq_comm]
    exact Finset.mem_insert
  | isolate n => simp [apply]
  | cutLink src dst => simp [apply]
  | latency ms => simp [apply]

/-- a link is cut exactly while some fault in force severs it -/
theorem mem_cuts_desiredOf : link ∈ (desiredOf faults t replicas).cuts ↔
    ∃ f ∈ activeAt faults t, f.fault.Severs replicas link := by
  have hfold (fs : List Fault) (state : Injected) : link ∈ (fs.foldl (apply replicas) state).cuts ↔
      link ∈ state.cuts ∨ ∃ f ∈ fs, f.Severs replicas link := by
    induction fs generalizing state with
    | nil => simp
    | cons f fs ih => rw [List.foldl_cons, ih, mem_cuts_apply, List.exists_mem_cons_iff, or_assoc]
  rw [desiredOf, hfold]
  simp [default]

/-- a process is down exactly while some crash of it is in force -/
theorem mem_crashed_desiredOf {node : ℕ} : node ∈ (desiredOf faults t replicas).crashed ↔
    ∃ f ∈ activeAt faults t, f.fault = .crash node := by
  have hfold (fs : List Fault) (state : Injected) : node ∈ (fs.foldl (apply replicas) state).crashed ↔
      node ∈ state.crashed ∨ ∃ f ∈ fs, f = .crash node := by
    induction fs generalizing state with
    | nil => simp
    | cons f fs ih => rw [List.foldl_cons, ih, mem_crashed_apply, List.exists_mem_cons_iff, or_assoc]
  rw [desiredOf, hfold]
  simp [default]

theorem desiredOf_congr {faults' : List ScheduledFault} {t' : ℕ} (h : activeAt faults t = activeAt faults' t') :
    desiredOf faults t replicas = desiredOf faults' t' replicas := by
  unfold desiredOf
  rw [h]

theorem desiredOf_idle (replicas : ℕ) (h : activeAt faults t = []) : desiredOf faults t replicas = default := by
  unfold desiredOf
  rw [h]
  rfl

end Injected

/-! ## The live majority -/

/-- the nodes that no fault in force consumes -/
def liveNodes (faults : List ScheduledFault) (t replicas : ℕ) : Finset ℕ :=
  Finset.range replicas \ consumed (activeAt faults t)

/-- a fault that cuts a link consumes one of its ends -/
theorem Fault.Severs.consumes {replicas a b : ℕ} {fault : Fault} (h : fault.Severs replicas (a, b)) :
    fault.nodesConsumed = some a ∨ fault.nodesConsumed = some b := by
  cases fault with
  | isolate node =>
    obtain ⟨peer, -, -, hlink | hlink⟩ := h
    · exact .inl (by rw [nodesConsumed, (Prod.mk.inj hlink).1])
    · exact .inr (by rw [nodesConsumed, (Prod.mk.inj hlink).2])
  | cutLink src dst => exact .inr (by rw [nodesConsumed, (Prod.mk.inj h).2])
  | crash node => cases h
  | latency ms => cases h

/-- **Generated schedules keep a fully connected live majority**: the loop ends; the windows are not empty, lie within
the duration and start one after the other; and at every instant no more nodes are consumed than the cluster tolerates,
so those that are left are a majority, none of them down and no link between two of them cut. The probe of the window
starts is, for any faults, the largest number of nodes consumed at any instant. -/
theorem live_majority_connected (seed : UInt64) (config : ScheduleConfig) (h : 1 ≤ config.replicas) :
    config.draw (config.drawn seed) = none ∧
    (∀ f ∈ (Schedule.generate seed config).faults, f.startMs < f.endMs ∧ f.endMs ≤ config.durationMs) ∧
    ((Schedule.generate seed config).faults.Pairwise fun f g => f.startMs < g.startMs) ∧
    (∀ t, (consumed (activeAt (Schedule.generate seed config).faults t)).card ≤ (config.replicas - 1) / 2 ∧
      config.replicas < 2 * (liveNodes (Schedule.generate seed config).faults t config.replicas).card ∧
      ∀ a ∈ liveNodes (Schedule.generate seed config).faults t config.replicas,
        a ∉ (Injected.desired (Schedule.generate seed config) t config.replicas).crashed ∧
        ∀ b ∈ liveNodes (Schedule.generate seed config).faults t config.replicas,
          (a, b) ∉ (Injected.desired (Schedule.generate seed config) t config.replicas).cuts) ∧
    ∀ faults : List ScheduledFault,
      IsGreatest (Set.range fun t => (consumed (activeAt faults t)).card) (maxConcurrentNodeFaults faults) := by
  have hplaced := ScheduleConfig.placed_drawn config seed
  refine ⟨ScheduleConfig.generate_ends config seed, fun f hf => ⟨hplaced.nonempty f hf, hplaced.within f hf⟩,
    hplaced.ordered, fun t => ⟨hplaced.budget t, ?_, fun a ha => ⟨fun hdown => ?_, fun b hb hcut => ?_⟩⟩,
    maxConcurrentNodeFaults_isGreatest⟩
  · have hcard := Finset.le_card_sdiff (consumed (activeAt (config.drawn seed).faults t)) (Finset.range config.replicas)
    have hbudget : (consumed (activeAt (config.drawn seed).faults t)).card ≤ (config.replicas - 1) / 2 := hplaced.budget t
    rw [Finset.card_range] at hcard
    show config.replicas < 2 * (Finset.range config.replicas \ consumed (activeAt (config.drawn seed).faults t)).card
    omega
  · obtain ⟨f, hf, hcrash⟩ := Injected.mem_crashed_desiredOf.1 hdown
    exact (Finset.mem_sdiff.1 ha).2 (mem_consumed.2 ⟨f, hf, by rw [hcrash]; rfl⟩)
  · obtain ⟨f, hf, hsevers⟩ := Injected.mem_cuts_desiredOf.1 hcut
    rcases hsevers.consumes with hn | hn
    · exact (Finset.mem_sdiff.1 ha).2 (mem_consumed.2 ⟨f, hf, hn⟩)
    · exact (Finset.mem_sdiff.1 hb).2 (mem_consumed.2 ⟨f, hf, hn⟩)

/-- a short soak of five replicas -/
def shortSoak : ScheduleConfig := ⟨5, 100, 10, 30, 5, 20⟩

/-- replica 0 is down and replica 1 isolated at once: the three others still reach each other -/
theorem live_majority_connected_short :
    activeAt (Schedule.generate 1 shortSoak).faults 50 = [⟨35, 64, .crash 0⟩, ⟨46, 68, .isolate 1⟩] ∧
    5 < 2 * (liveNodes (Schedule.generate 1 shortSoak).faults 50 5).card ∧
    ∀ a ∈ liveNodes (Schedule.generate 1 shortSoak).faults 50 5,
      a ∉ (Injected.desired (Schedule.generate 1 shortSoak) 50 5).crashed ∧
      ∀ b ∈ liveNodes (Schedule.generate 1 shortSoak).faults 50 5,
        (a, b) ∉ (Injected.desired (Schedule.generate 1 shortSoak) 50 5).cuts :=
  ⟨by decide +kernel, ((live_majority_connected 1 shortSoak (by decide)).2.2.2.1 50).2⟩

/-! ## Reconciling the cluster -/

/-- fault injections by kind; healing is not counted -/
structure Injections where
  cuts : ℕ
  kills : ℕ
  latencyChanges : ℕ
deriving DecidableEq, Repr

namespace Injections

def none : Injections := ⟨0, 0, 0⟩

/-- each kind happened at least as often as the schedule asked -/
def Covers (i scheduled : Injections) : Prop :=
  scheduled.cuts ≤ i.cuts ∧ scheduled.kills ≤ i.kills ∧ scheduled.latencyChanges ≤ i.latencyChanges

instance (i scheduled : Injections) : Decidable (i.Covers scheduled) := inferInstanceAs (Decidable (_ ∧ _ ∧ _))

def add (i other : Injections) : Injections :=
  ⟨i.cuts + other.cuts, i.kills + other.kills, i.latencyChanges + other.latencyChanges⟩

end Injections

/-- the real cluster, as far as the driver acts on it -/
structure Cluster where
  running : Finset ℕ
  severed : Finset Link
  latencyMs : ℕ

/-- what was injected, and how many process transitions the cluster was already in -/
structure Reconciled where
  injected : Injections
  desynced : ℕ

/-- move the cluster from one state to another: a process is killed only if it runs and spawned only if it does not -/
def reconcile (cluster : Cluster) (prev next : Injected) : Cluster × Reconciled :=
  let kill := next.crashed \ prev.crashed
  let restart := prev.crashed \ next.crashed
  let up := cluster.running \ kill
  ({ running := up ∪ restart
     severed := (cluster.severed ∪ (next.cuts \ prev.cuts)) \ (prev.cuts \ next.cuts)
     latencyMs := if prev.latencyMs ≠ next.latencyMs then next.latencyMs else cluster.latencyMs },
   { injected :=
       { cuts := (next.cuts \ prev.cuts).card
         kills := (kill ∩ cluster.running).card
         latencyChanges := if next.latencyMs ≠ prev.latencyMs ∧ next.latencyMs ≠ 0 then 1 else 0 }
     desynced := (kill \ cluster.running).card + (restart ∩ up).card })

/-- the cluster of `replicas` nodes is as the state says -/
structure Cluster.Mirrors (replicas : ℕ) (cluster : Cluster) (state : Injected) : Prop where
  running : cluster.running = Finset.range replicas \ state.crashed
  severed : cluster.severed = state.cuts
  latency : cluster.latencyMs = state.latencyMs

/-- a cluster that mirrors the old state mirrors the new one, and everything new was injected -/
theorem reconcile_mirrors {replicas : ℕ} {cluster : Cluster} {prev next : Injected} (h : cluster.Mirrors replicas prev)
    (hprev : prev.crashed ⊆ Finset.range replicas) (hnext : next.crashed ⊆ Finset.range replicas) :
    (reconcile cluster prev next).1.Mirrors replicas next ∧
      (reconcile cluster prev next).2.injected =
        ⟨(next.cuts \ prev.cuts).card, (next.crashed \ prev.crashed).card,
          if next.latencyMs ≠ prev.latencyMs ∧ next.latencyMs ≠ 0 then 1 else 0⟩ ∧
      (reconcile cluster prev next).2.desynced = 0 := by
  have hkill : next.crashed \ prev.crashed ⊆ cluster.running := by
    rw [h.running]
    intro node hnode
    obtain ⟨hin, hout⟩ := Finset.mem_sdiff.1 hnode
    exact Finset.mem_sdiff.2 ⟨hnext hin, hout⟩
  refine ⟨⟨?_, ?_, ?_⟩, ?_, ?_⟩
  · ext node
    simp only [reconcile, h.running, Finset.mem_union, Finset.mem_sdiff]
    constructor
    · rintro (⟨⟨hn, hup⟩, hnot⟩ | ⟨hn, hout⟩)
      · exact ⟨hn, fun hc => hnot ⟨hc, hup⟩⟩
      · exact ⟨hprev hn, hout⟩
    · rintro ⟨hn, hout⟩
      tauto
  · ext link
    simp only [reconcile, h.severed, Finset.mem_union, Finset.mem_sdiff]
    tauto
  · show (if prev.latencyMs ≠ next.latencyMs then next.latencyMs else cluster.latencyMs) = next.latencyMs
    split_ifs with hne
    · rfl
    · rw [h.latency, not_not.1 hne]
  · show (⟨_, _, _⟩ : Injections) = _
    rw [Finset.inter_eq_left.2 hkill]
  · show ((next.crashed \ prev.crashed) \ cluster.running).card +
      ((prev.crashed \ next.crashed) ∩ (cluster.running \ (next.crashed \ prev.crashed))).card = 0
    have hnone : (prev.crashed \ next.crashed) ∩ (cluster.running \ (next.crashed \ prev.crashed)) = ∅ := by
      rw [h.running]
      ext node
      simp only [Finset.mem_inter, Finset.mem_sdiff, Finset.notMem_empty]
      tauto
    rw [Finset.sdiff_eq_empty_iff_subset.2 hkill, hnone]
    rfl

end Queso.Soak
