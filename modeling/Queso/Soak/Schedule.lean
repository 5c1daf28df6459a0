/-
The seeded fault schedule of a soak: what breaks, when, and for how long.

A loop draws one fault after another at a cursor that moves forward. A fault is placed only if the nodes that it and the
faults overlapping its window take out are no more than the cluster tolerates; some faults start inside the window before
them, so windows overlap in chains.

`Placed` is what every iteration keeps; `generate_ends` says that the loop has run to its end. Milliseconds are natural
numbers: the sums of times are assumed to fit in a `u64`, as is `high - low + 1`.
-/
import Mathlib.Data.Finset.Card
import Mathlib.Order.Bounds.Basic
import Queso.Conformance.Source

namespace Queso.Soak

/-- a fault of the cluster; `cutLink src dst` is the one-way cut after which `dst` stops hearing from `src` -/
inductive Fault where
  | isolate (node : ℕ)
  | cutLink (src dst : ℕ)
  | crash (node : ℕ)
  | latency (ms : ℕ)
deriving DecidableEq, Repr

/-- the node that a fault takes out of the working set; of a one-way cut, the receiving end -/
def Fault.nodesConsumed : Fault → Option ℕ
  | .isolate node => some node
  | .crash node => some node
  | .cutLink _ dst => some dst
  | .latency _ => none

/-- a fault in force from `startMs` on, until before `endMs` -/
structure ScheduledFault where
  startMs : ℕ
  endMs : ℕ
  fault : Fault
deriving DecidableEq, Repr

namespace ScheduledFault

def Overlaps (f : ScheduledFault) (startMs endMs : ℕ) : Prop := f.startMs < endMs ∧ startMs < f.endMs

instance (f : ScheduledFault) (startMs endMs : ℕ) : Decidable (f.Overlaps startMs endMs) :=
  inferInstanceAs (Decidable (_ ∧ _))

def Active (t : ℕ) (f : ScheduledFault) : Prop := f.startMs ≤ t ∧ t < f.endMs

instance (t : ℕ) (f : ScheduledFault) : Decidable (f.Active t) := inferInstanceAs (Decidable (_ ∧ _))

end ScheduledFault

structure ScheduleConfig where
  replicas : ℕ
  durationMs : ℕ
  minFaultMs : ℕ
  maxFaultMs : ℕ
  minGapMs : ℕ
  maxGapMs : ℕ

/-- how many nodes may be out at once -/
def ScheduleConfig.tolerated (config : ScheduleConfig) : ℕ := (config.replicas - 1) / 2

namespace SplitMix64

/-- uniform in `[low, high]`; the draw and the next state -/
def range (low high : ℕ) (rng : UInt64) : ℕ × UInt64 :=
  if high ≤ low then (low, rng)
  else
    let x := Queso.SplitMix64.nextU64 rng
    (low + x.1.toNat % (high - low + 1), x.2)

def below (bound : ℕ) (rng : UInt64) : ℕ × UInt64 :=
  if bound = 0 then (0, rng)
  else
    let x := Queso.SplitMix64.nextU64 rng
    (x.1.toNat % bound, x.2)

theorem range_ge (low high : ℕ) (rng : UInt64) : low ≤ (range low high rng).1 := by
  unfold range
  split_ifs
  · exact le_rfl
  · exact Nat.le_add_right _ _

theorem below_lt {bound : ℕ} (h : 0 < bound) (rng : UInt64) : (below bound rng).1 < bound := by
  unfold below
  rw [if_neg (by omega)]
  exact Nat.mod_lt _ h

end SplitMix64

/-! ## Faults in force -/

def activeAt (faults : List ScheduledFault) (t : ℕ) : List ScheduledFault := faults.filter fun f => f.Active t

/-- the distinct nodes that some faults consume -/
def consumed (faults : List ScheduledFault) : Finset ℕ := (faults.filterMap fun f => f.fault.nodesConsumed).toFinset

/-- the largest number of nodes out at once, probed where a window starts -/
def maxConcurrentNodeFaults (faults : List ScheduledFault) : ℕ :=
  (faults.map ScheduledFault.startMs).foldl (fun worst probe => max worst (consumed (activeAt faults probe)).card) 0

variable {faults : List ScheduledFault} {t : ℕ}

theorem mem_activeAt {f : ScheduledFault} : f ∈ activeAt faults t ↔ f ∈ faults ∧ f.startMs ≤ t ∧ t < f.endMs := by
  rw [activeAt, List.mem_filter, decide_eq_true_iff]
  exact Iff.rfl

theorem mem_consumed {node : ℕ} : node ∈ consumed faults ↔ ∃ f ∈ faults, f.fault.nodesConsumed = some node := by
  simp [consumed]

/-! ## Drawing a schedule -/

/-- the state of the loop: the generator, the cursor and the faults placed so far -/
structure Drawing where
  rng : UInt64
  cursor : ℕ
  faults : List ScheduledFault

namespace ScheduleConfig

variable (config : ScheduleConfig)

/-- weighted toward partitions; a cut link has two ends -/
def drawFault (rng : UInt64) : Fault × UInt64 :=
  let n := config.replicas
  let kind := SplitMix64.below 10 rng
  if kind.1 ≤ 3 then
    let node := SplitMix64.below n kind.2
    (.isolate node.1, node.2)
  else if kind.1 ≤ 6 then
    let src := SplitMix64.below n kind.2
    let dst := SplitMix64.below n src.2
    (.cutLink src.1 (if dst.1 = src.1 then (dst.1 + 1) % n else dst.1), dst.2)
  else if kind.1 ≤ 8 then
    let node := SplitMix64.below n kind.2
    (.crash node.1, node.2)
  else
    let ms := SplitMix64.range 10 80 kind.2
    (.latency ms.1, ms.2)

/-- the fault leaves a majority working throughout the window -/
def Placeable (faults : List ScheduledFault) (cursor endMs : ℕ) (candidate : Fault) : Prop :=
  match candidate.nodesConsumed with
  | none => True
  | some node =>
    (insert node (consumed (faults.filter fun f => f.Overlaps cursor endMs))).card ≤ config.tolerated

instance (faults : List ScheduledFault) (cursor endMs : ℕ) (candidate : Fault) :
    Decidable (config.Placeable faults cursor endMs candidate) := by
  unfold Placeable
  cases candidate.nodesConsumed with
  | none => exact inferInstanceAs (Decidable True)
  | some node => exact inferInstanceAs (Decidable (_ ≤ _))

/-- one iteration of the loop, or `none` where it ends -/
def draw (s : Drawing) : Option Drawing :=
  if s.cursor < config.durationMs then
    let length := SplitMix64.range config.minFaultMs config.maxFaultMs s.rng
    let endMs := min (s.cursor + length.1) config.durationMs
    if endMs ≤ s.cursor then none
    else
      let candidate := config.drawFault length.2
      if config.Placeable s.faults s.cursor endMs candidate.1 then
        let third := SplitMix64.below 3 candidate.2
        let gap := SplitMix64.range config.minGapMs config.maxGapMs third.2
        -- a third of the time the next fault starts inside this window
        let cursor := if third.1 = 0 then s.cursor + max 1 (min gap.1 length.1) else endMs + gap.1
        some ⟨gap.2, cursor, s.faults ++ [⟨s.cursor, endMs, candidate.1⟩]⟩
      else
        let gap := SplitMix64.range config.minGapMs config.maxGapMs candidate.2
        some ⟨gap.2, s.cursor + max gap.1 1, s.faults⟩
  else none

/-- the loop, for at most `fuel` iterations -/
def drawAll : ℕ → Drawing → Drawing
  | 0, s => s
  | fuel + 1, s =>
    match config.draw s with
    | none => s
    | some s' => drawAll fuel s'

/-- the loop's state before the first iteration -/
def start (seed : UInt64) : Drawing :=
  let cursor := SplitMix64.range config.minGapMs config.maxGapMs (seed ^^^ 0x50a4c0de12345678)
  ⟨cursor.2, cursor.1, []⟩

/-- the loop's last state; the cursor grows with each iteration, so the duration bounds their number -/
def drawn (seed : UInt64) : Drawing := config.drawAll config.durationMs (config.start seed)

end ScheduleConfig

structure Schedule where
  seed : UInt64
  config : ScheduleConfig
  faults : List ScheduledFault

def Schedule.generate (seed : UInt64) (config : ScheduleConfig) : Schedule := ⟨seed, config, (config.drawn seed).faults⟩

def Schedule.withFaults (seed : UInt64) (config : ScheduleConfig) (faults : List ScheduledFault) : Schedule :=
  ⟨seed, config, faults⟩

/-! ## One iteration -/

namespace ScheduleConfig

variable {config : ScheduleConfig} {s s' : Drawing}

/-- what an iteration does: it moves the cursor forward, and either places a fault at it or none -/
structure Draws (config : ScheduleConfig) (s s' : Drawing) : Prop where
  before : s.cursor < config.durationMs
  forward : s.cursor < s'.cursor
  faults : s'.faults = s.faults ∨ ∃ endMs candidate, s'.faults = s.faults ++ [⟨s.cursor, endMs, candidate⟩] ∧
    s.cursor < endMs ∧ endMs ≤ config.durationMs ∧ (s.cursor + config.minFaultMs ≤ endMs ∨ endMs = config.durationMs) ∧
    config.Placeable s.faults s.cursor endMs candidate ∧ ∃ rng, candidate = (config.drawFault rng).1

theorem draws (h : config.draw s = some s') : Draws config s s' := by
  unfold draw at h
  dsimp only at h
  split_ifs at h with hbefore hend hplace hthird
  · obtain rfl := Option.some.inj h
    have hlen := SplitMix64.range_ge config.minFaultMs config.maxFaultMs s.rng
    exact ⟨hbefore, Nat.lt_add_of_pos_right (by omega),
      .inr ⟨_, _, rfl, not_le.1 hend, min_le_right _ _, by omega, hplace, _, rfl⟩⟩
  · obtain rfl := Option.some.inj h
    have hlen := SplitMix64.range_ge config.minFaultMs config.maxFaultMs s.rng
    exact ⟨hbefore, Nat.lt_add_right _ (not_le.1 hend),
      .inr ⟨_, _, rfl, not_le.1 hend, min_le_right _ _, by omega, hplace, _, rfl⟩⟩
  · obtain rfl := Option.some.inj h
    exact ⟨hbefore, Nat.lt_add_of_pos_right (by omega), .inl rfl⟩

/-- a draw that ends the loop ends it for good, and `fuel` iterations are enough for a cursor that close to the end -/
theorem drawAll_ends (fuel : ℕ) (s : Drawing) (h : config.durationMs ≤ s.cursor + fuel) :
    config.draw (config.drawAll fuel s) = none := by
  induction fuel generalizing s with
  | zero =>
    unfold drawAll draw
    rw [if_neg (by omega)]
  | succ fuel ih =>
    unfold drawAll
    cases hd : config.draw s with
    | none => exact hd
    | some s' =>
      have hforward := (draws hd).forward
      exact ih s' (by omega)

theorem generate_ends (config : ScheduleConfig) (seed : UInt64) : config.draw (config.drawn seed) = none :=
  drawAll_ends _ _ (by omega)

/-! ## What the loop keeps -/

/-- the windows are not empty and lie within the duration, each lasts as long as a fault must unless the end of the soak
clips it, they start one after the other before the cursor, the budget holds at every instant, and what crashes is a
node of the cluster -/
structure Placed (config : ScheduleConfig) (s : Drawing) : Prop where
  nonempty : ∀ f ∈ s.faults, f.startMs < f.endMs
  within : ∀ f ∈ s.faults, f.endMs ≤ config.durationMs
  lasting : ∀ f ∈ s.faults, f.startMs + config.minFaultMs ≤ f.endMs ∨ f.endMs = config.durationMs
  ordered : s.faults.Pairwise fun f g => f.startMs < g.startMs
  behind : ∀ f ∈ s.faults, f.startMs < s.cursor
  budget : ∀ t, (consumed (activeAt s.faults t)).card ≤ config.tolerated
  crashes : ∀ f ∈ s.faults, ∀ node, f.fault = .crash node → node < config.replicas

theorem drawFault_crash {rng : UInt64} {node : ℕ} (h : (config.drawFault rng).1 = .crash node)
    (hn : 0 < config.replicas) : node < config.replicas := by
  unfold drawFault at h
  dsimp only at h
  by_cases hisolate : (SplitMix64.below 10 rng).1 ≤ 3
  · rw [if_pos hisolate] at h
    cases h
  rw [if_neg hisolate] at h
  by_cases hcut : (SplitMix64.below 10 rng).1 ≤ 6
  · rw [if_pos hcut] at h
    cases h
  rw [if_neg hcut] at h
  by_cases hcrash : (SplitMix64.below 10 rng).1 ≤ 8
  · rw [if_pos hcrash] at h
    cases h
    exact SplitMix64.below_lt hn _
  · rw [if_neg hcrash] at h
    cases h

/-- a cluster that tolerates no fault has no room for one -/
theorem Placeable.replicas_pos {endMs cursor node : ℕ} {faults : List ScheduledFault}
    (h : config.Placeable faults cursor endMs (.crash node)) : 0 < config.replicas := by
  have hcard : (insert node (consumed (faults.filter fun f => f.Overlaps cursor endMs))).card ≤ config.tolerated := h
  have hpos := Finset.card_pos.2 (Finset.insert_nonempty node
    (consumed (faults.filter fun f => f.Overlaps cursor endMs)))
  unfold tolerated at hcard
  omega

theorem activeAt_snoc (faults : List ScheduledFault) (f : ScheduledFault) (t : ℕ) :
    activeAt (faults ++ [f]) t = activeAt faults t ++ if f.Active t then [f] else [] := by
  unfold activeAt
  rw [List.filter_append]
  by_cases hf : f.Active t
  · simp [hf]
  · simp [hf]

theorem consumed_snoc (faults : List ScheduledFault) (f : ScheduledFault) :
    consumed (faults ++ [f]) =
      match f.fault.nodesConsumed with
      | none => consumed faults
      | some node => insert node (consumed faults) := by
  ext node
  cases hn : f.fault.nodesConsumed with
  | none => simp [mem_consumed, hn, or_and_right, exists_or]
  | some n =>
    simp only [mem_consumed, Finset.mem_insert, List.mem_append, List.mem_singleton, or_and_right, exists_or,
      exists_eq_left, hn, Option.some.injEq]
    rw [or_comm, eq_comm]

/-- the faults in force at an instant of a window overlap it -/
theorem consumed_activeAt_subset (faults : List ScheduledFault) {startMs endMs : ℕ} (hs : startMs ≤ t) (he : t < endMs) :
    consumed (activeAt faults t) ⊆ consumed (faults.filter fun f => f.Overlaps startMs endMs) := by
  intro node hnode
  obtain ⟨f, hf, hn⟩ := mem_consumed.1 hnode
  obtain ⟨hmem, hstart, hend⟩ := mem_activeAt.1 hf
  have hover : f.Overlaps startMs endMs := ⟨by omega, by omega⟩
  exact mem_consumed.2 ⟨f, List.mem_filter.2 ⟨hmem, decide_eq_true hover⟩, hn⟩

theorem Placed.draw (h : Placed config s) (hd : Draws config s s') : Placed config s' := by
  rcases hd.faults with hsame | ⟨endMs, candidate, hplaced, hlt, hle, hlast, hroom, rng, hdrawn⟩
  · exact
      { nonempty := by rw [hsame]; exact h.nonempty
        within := by rw [hsame]; exact h.within
        lasting := by rw [hsame]; exact h.lasting
        ordered := by rw [hsame]; exact h.ordered
        behind := by rw [hsame]; exact fun f hf => (h.behind f hf).trans hd.forward
        budget := by rw [hsame]; exact h.budget
        crashes := by rw [hsame]; exact h.crashes }
  · have hmem (f : ScheduledFault) : f ∈ s'.faults ↔ f ∈ s.faults ∨ f = ⟨s.cursor, endMs, candidate⟩ := by
      rw [hplaced, List.mem_append, List.mem_singleton]
    refine ⟨fun f hf => ?_, fun f hf => ?_, fun f hf => ?_, ?_, fun f hf => ?_, fun t => ?_, fun f hf node hnode => ?_⟩
    · rcases (hmem f).1 hf with hf | rfl
      · exact h.nonempty f hf
      · exact hlt
    · rcases (hmem f).1 hf with hf | rfl
      · exact h.within f hf
      · exact hle
    · rcases (hmem f).1 hf with hf | rfl
      · exact h.lasting f hf
      · exact hlast
    · rw [hplaced]
      refine List.pairwise_append.2 ⟨h.ordered, List.pairwise_singleton _ _, fun f hf g hg => ?_⟩
      obtain rfl := List.mem_singleton.1 hg
      exact h.behind f hf
    · rcases (hmem f).1 hf with hf | rfl
      · exact (h.behind f hf).trans hd.forward
      · exact hd.forward
    · rw [hplaced, activeAt_snoc]
      split_ifs with hactive
      · rw [consumed_snoc]
        unfold Placeable at hroom
        dsimp only
        cases hn : candidate.nodesConsumed with
        | none => exact h.budget t
        | some node =>
          -- what is in force now was in the way of the new window
          rw [hn] at hroom
          have hsub := consumed_activeAt_subset s.faults hactive.1 hactive.2
          exact (Finset.card_le_card (Finset.insert_subset_insert node hsub)).trans hroom
      · rw [List.append_nil]
        exact h.budget t
    · rcases (hmem f).1 hf with hf | rfl
      · exact h.crashes f hf node hnode
      · obtain rfl : candidate = .crash node := hnode
        exact drawFault_crash hdrawn.symm hroom.replicas_pos

theorem Placed.drawAll (h : Placed config s) (fuel : ℕ) : Placed config (config.drawAll fuel s) := by
  induction fuel generalizing s with
  | zero => exact h
  | succ fuel ih =>
    unfold ScheduleConfig.drawAll
    cases hd : config.draw s with
    | none => exact h
    | some s' => exact ih (h.draw (draws hd))

theorem placed_start (config : ScheduleConfig) (seed : UInt64) : Placed config (config.start seed) := by
  have hnil : (config.start seed).faults = [] := rfl
  refine ⟨?_, ?_, ?_, ?_, ?_, fun t => ?_, ?_⟩
  all_goals rw [hnil]
  · exact fun f hf => absurd hf List.not_mem_nil
  · exact fun f hf => absurd hf List.not_mem_nil
  · exact fun f hf => absurd hf List.not_mem_nil
  · exact List.Pairwise.nil
  · exact fun f hf => absurd hf List.not_mem_nil
  · exact Nat.zero_le _
  · exact fun f hf => absurd hf List.not_mem_nil

theorem placed_drawn (config : ScheduleConfig) (seed : UInt64) : Placed config (config.drawn seed) :=
  (placed_start config seed).drawAll _

end ScheduleConfig

/-! ## The most nodes out at once -/

theorem foldl_max_le_iff (f : ℕ → ℕ) (probes : List ℕ) (worst bound : ℕ) :
    probes.foldl (fun worst probe => max worst (f probe)) worst ≤ bound ↔ worst ≤ bound ∧ ∀ p ∈ probes, f p ≤ bound := by
  induction probes generalizing worst with
  | nil => simp
  | cons p probes ih => rw [List.foldl_cons, ih, max_le_iff, List.forall_mem_cons, and_assoc]

theorem foldl_max_mem (f : ℕ → ℕ) (probes : List ℕ) (worst : ℕ) :
    probes.foldl (fun worst probe => max worst (f probe)) worst = worst ∨
      ∃ p ∈ probes, probes.foldl (fun worst probe => max worst (f probe)) worst = f p := by
  induction probes generalizing worst with
  | nil => exact .inl rfl
  | cons p probes ih =>
    rw [List.foldl_cons]
    rcases ih (max worst (f p)) with h | ⟨q, hq, h⟩
    · rcases le_total worst (f p) with hle | hle
      · exact .inr ⟨p, List.mem_cons_self, h.trans (max_eq_right hle)⟩
      · exact .inl (h.trans (max_eq_left hle))
    · exact .inr ⟨q, List.mem_cons_of_mem _ hq, h⟩

/-- what is in force at an instant still was where the last of it started -/
theorem exists_probe (faults : List ScheduledFault) (t : ℕ) (h : activeAt faults t ≠ []) :
    ∃ f ∈ faults, consumed (activeAt faults t) ⊆ consumed (activeAt faults f.startMs) := by
  obtain ⟨f, hf, hlast⟩ := (activeAt faults t).toFinset.exists_max_image ScheduledFault.startMs
    (List.toFinset_nonempty_iff _ |>.2 h)
  rw [List.mem_toFinset] at hf
  refine ⟨f, (mem_activeAt.1 hf).1, fun node hnode => ?_⟩
  obtain ⟨g, hg, hn⟩ := mem_consumed.1 hnode
  have hstart := hlast g (List.mem_toFinset.2 hg)
  have hfstart := (mem_activeAt.1 hf).2.1
  obtain ⟨hmem, -, hend⟩ := mem_activeAt.1 hg
  exact mem_consumed.2 ⟨g, mem_activeAt.2 ⟨hmem, hstart, by omega⟩, hn⟩

/-- probing the starts finds the largest number of nodes out at any instant -/
theorem maxConcurrentNodeFaults_isGreatest (faults : List ScheduledFault) :
    IsGreatest (Set.range fun t => (consumed (activeAt faults t)).card) (maxConcurrentNodeFaults faults) := by
  have hbound := (foldl_max_le_iff (fun probe => (consumed (activeAt faults probe)).card)
    (faults.map ScheduledFault.startMs) 0 (maxConcurrentNodeFaults faults)).1 le_rfl
  constructor
  · rcases foldl_max_mem (fun probe => (consumed (activeAt faults probe)).card)
      (faults.map ScheduledFault.startMs) 0 with h | ⟨p, -, h⟩
    · -- nothing is out where no window has started
      cases hf : faults with
      | nil => exact ⟨0, rfl⟩
      | cons f rest =>
        have hzero := hbound.2 f.startMs (List.mem_map.2 ⟨f, by rw [hf]; exact List.mem_cons_self, rfl⟩)
        have hworst : maxConcurrentNodeFaults faults = 0 := h
        rw [hworst] at hzero
        rw [← hf, hworst]
        exact ⟨f.startMs, Nat.le_zero.1 hzero⟩
    · exact ⟨p, h.symm⟩
  · rintro _ ⟨t, rfl⟩
    dsimp only
    by_cases hnone : activeAt faults t = []
    · rw [hnone]
      exact Nat.zero_le _
    · obtain ⟨f, hf, hsub⟩ := exists_probe faults t hnone
      exact (Finset.card_le_card hsub).trans (hbound.2 _ (List.mem_map_of_mem hf))

end Queso.Soak
