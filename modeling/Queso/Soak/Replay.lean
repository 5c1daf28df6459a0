/-
The driver of a soak on its sampling grid, and the audit of what it injected.

At each instant the driver notes the windows in force, moves the cluster to the desired state and counts what that breaks;
it stops at the end of the soak or at the first instant where the observer has seen a divergence. The audit compares the
counts with what the windows seen ask for.

- `complete_run_covers`: a run to the end is never failed by the audit.
- `cut_run_covers_iff`: a run cut short is judged as if the latency windows it saw had run to their ends. The audit passes
  when no stronger one of them closes after the stop inside a weaker one; and if no sample fell into a latency of a step
  or less, only then.
-/
import Mathlib.Data.List.TakeWhile
import Queso.Soak.Expectation

namespace Queso.Soak

open Signal

/-- the driver's state: the cluster, what it has injected so far, and the windows it has seen -/
structure Driver where
  cluster : Cluster
  injected : Injected
  injections : Injections
  processDesyncs : ℕ
  seenWindows : Finset (ℕ × ℕ)

namespace Driver

/-- all processes run and nothing is injected -/
def start (replicas : ℕ) : Driver := ⟨⟨Finset.range replicas, ∅, 0⟩, .default, .none, 0, ∅⟩

/-- one iteration, `elapsed` into the soak -/
def observe (schedule : Schedule) (d : Driver) (elapsed : ℕ) : Driver :=
  let desired := Injected.desired schedule elapsed schedule.config.replicas
  let done := reconcile d.cluster d.injected desired
  { cluster := done.1
    injected := desired
    injections := d.injections.add done.2.injected
    processDesyncs := d.processDesyncs + done.2.desynced
    seenWindows := d.seenWindows ∪ ((activeAt schedule.faults elapsed).map fun f => (f.startMs, f.endMs)).toFinset }

/-- the loop from the `k`-th instant on, for at most `fuel` iterations; `diverged k` says whether the observer has seen a
divergence after that instant -/
def loop (schedule : Schedule) (stepMs : ℕ) (diverged : ℕ → Bool) : ℕ → ℕ → Driver → Driver
  | 0, _, d => d
  | fuel + 1, k, d =>
    if schedule.config.durationMs ≤ k * stepMs then d
    else
      let d := d.observe schedule (k * stepMs)
      if diverged k then d else loop schedule stepMs diverged fuel (k + 1) d

/-- a soak; with steps of at least a millisecond, there are no more of them than milliseconds -/
def run (schedule : Schedule) (stepMs : ℕ) (diverged : ℕ → Bool) : Driver :=
  loop schedule stepMs diverged schedule.config.durationMs 0 (start schedule.config.replicas)

/-- how many fault windows the schedule opened during the run -/
def windowsEntered (d : Driver) : ℕ := d.seenWindows.card

/-! ## The run as a replay of the grid -/

variable {schedule : Schedule} {stepMs : ℕ} {diverged : ℕ → Bool}

/-- the driver after the first `count` instants of the grid -/
def replay (schedule : Schedule) (stepMs count : ℕ) : Driver :=
  (grid stepMs count).foldl (observe schedule) (start schedule.config.replicas)

theorem replay_succ (schedule : Schedule) (stepMs count : ℕ) :
    replay schedule stepMs (count + 1) = (replay schedule stepMs count).observe schedule (count * stepMs) := by
  simp [replay, grid, List.range_succ]

theorem loop_replay (schedule : Schedule) (diverged : ℕ → Bool) (hstep : 1 ≤ stepMs) (fuel k : ℕ)
    (hfuel : schedule.config.durationMs ≤ k + fuel) :
    ∃ count, loop schedule stepMs diverged fuel k (replay schedule stepMs k) = replay schedule stepMs count ∧
      k ≤ count ∧ (∀ j, k ≤ j → j < count → j * stepMs < schedule.config.durationMs) ∧
      (∀ j, k ≤ j → j + 1 < count → diverged j = false) ∧
      (schedule.config.durationMs ≤ count * stepMs ∨ k < count ∧ diverged (count - 1) = true) := by
  induction fuel generalizing k with
  | zero =>
    have hle : k ≤ k * stepMs := Nat.le_mul_of_pos_right k hstep
    exact ⟨k, rfl, le_rfl, fun j hj hj' => by omega, fun j hj hj' => by omega, .inl (by omega)⟩
  | succ fuel ih =>
    unfold loop
    by_cases hend : schedule.config.durationMs ≤ k * stepMs
    · rw [if_pos hend]
      exact ⟨k, rfl, le_rfl, fun j hj hj' => by omega, fun j hj hj' => by omega, .inl hend⟩
    · rw [if_neg hend]
      dsimp only
      rw [← replay_succ]
      by_cases hdiv : diverged k = true
      · rw [if_pos hdiv]
        refine ⟨k + 1, rfl, by omega, fun j hj hj' => ?_, fun j hj hj' => by omega, .inr ⟨by omega, hdiv⟩⟩
        obtain rfl : j = k := by omega
        exact not_le.1 hend
      · rw [if_neg hdiv]
        obtain ⟨count, hloop, hle, hbelow, hclean, hstop⟩ := ih (k + 1) (by omega)
        refine ⟨count, hloop, by omega, fun j hj hj' => ?_, fun j hj hj' => ?_, ?_⟩
        · rcases Nat.eq_or_lt_of_le hj with rfl | hlt
          · exact not_le.1 hend
          · exact hbelow j hlt hj'
        · rcases Nat.eq_or_lt_of_le hj with rfl | hlt
          · simpa using hdiv
          · exact hclean j hlt hj'
        · rcases hstop with hstop | ⟨hlt, hstop⟩
          · exact .inl hstop
          · exact .inr ⟨by omega, hstop⟩

/-- a run that sees no divergence replays the whole grid below the duration -/
theorem run_complete (schedule : Schedule) (hstep : 1 ≤ stepMs) (hclean : ∀ k, diverged k = false) :
    ∃ count, run schedule stepMs diverged = replay schedule stepMs count ∧
      (∀ j < count, j * stepMs < schedule.config.durationMs) ∧ schedule.config.durationMs ≤ count * stepMs := by
  obtain ⟨count, hrun, -, hbelow, -, hstop⟩ :=
    loop_replay schedule diverged hstep schedule.config.durationMs 0 (by omega)
  refine ⟨count, hrun, fun j hj => hbelow j (Nat.zero_le j) hj, ?_⟩
  rcases hstop with hstop | ⟨-, hstop⟩
  · exact hstop
  · rw [hclean] at hstop
    cases hstop

/-- a run that sees its first divergence after the `k`-th instant replays the grid up to there -/
theorem run_cut (schedule : Schedule) (hstep : 1 ≤ stepMs) {k : ℕ} (hk : k * stepMs < schedule.config.durationMs)
    (hdiv : diverged k = true) (hfirst : ∀ j < k, diverged j = false) : run schedule stepMs diverged = replay schedule stepMs (k + 1) := by
  obtain ⟨count, hrun, -, -, hclean, hstop⟩ :=
    loop_replay schedule diverged hstep schedule.config.durationMs 0 (by omega)
  have hcount : count = k + 1 := by
    rcases Nat.lt_trichotomy count (k + 1) with hlt | heq | hgt
    · rcases hstop with hstop | ⟨hpos, hstop⟩
      · have hmul : count * stepMs ≤ k * stepMs := Nat.mul_le_mul_right stepMs (by omega)
        omega
      · rw [hfirst (count - 1) (by omega)] at hstop
        cases hstop
    · exact heq
    · rw [hclean k (Nat.zero_le k) (by omega)] at hdiv
      cases hdiv
  rw [← hcount]
  exact hrun

/-! ## What a replay delivers -/

/-- the windows that have opened by `t` -/
def enteredBy (faults : List ScheduledFault) (t : ℕ) : List ScheduledFault := faults.takeWhile fun f => f.startMs ≤ t

/-- the series of states that the driver asks for -/
def states (schedule : Schedule) (ts : List ℕ) : List Injected :=
  ts.map fun t => Injected.desired schedule t schedule.config.replicas

/-- after the instants `ts`: the cluster is as the last of them asks, no process transition was skipped, and what the
series of states brought in was injected -/
structure Delivered (schedule : Schedule) (ts : List ℕ) (d : Driver) : Prop where
  injected : d.injected = (states schedule ts).getLastD .default
  mirrors : d.cluster.Mirrors schedule.config.replicas d.injected
  synced : d.processDesyncs = 0
  cuts : d.injections.cuts = arrivals ∅ ((states schedule ts).map Injected.cuts)
  kills : d.injections.kills = arrivals ∅ ((states schedule ts).map Injected.crashed)
  latencyChanges : d.injections.latencyChanges = moves 0 0 ((states schedule ts).map Injected.latencyMs)
  seen : ∀ window, window ∈ d.seenWindows ↔ ∃ t ∈ ts, ∃ f ∈ activeAt schedule.faults t, (f.startMs, f.endMs) = window

theorem getLastD_map {α β : Type} (g : α → β) (l : List α) (a : α) : (l.map g).getLastD (g a) = g (l.getLastD a) := by
  cases l using List.reverseRecOn with
  | nil => rfl
  | append_singleton l b => simp

/-- the processes that a schedule crashes are nodes of the cluster -/
theorem crashed_subset (hcrashes : ∀ f ∈ schedule.faults, ∀ node, f.fault = .crash node → node < schedule.config.replicas)
    (t : ℕ) : (Injected.desired schedule t schedule.config.replicas).crashed ⊆
      Finset.range schedule.config.replicas := by
  intro node hnode
  obtain ⟨f, hf, hcrash⟩ := Injected.mem_crashed_desiredOf.1 hnode
  exact Finset.mem_range.2 (hcrashes f (mem_activeAt.1 hf).1 node hcrash)

theorem delivered_start (schedule : Schedule) : Delivered schedule [] (start schedule.config.replicas) where
  injected := rfl
  mirrors := ⟨(Finset.sdiff_empty).symm, rfl, rfl⟩
  synced := rfl
  cuts := rfl
  kills := rfl
  latencyChanges := rfl
  seen := by simp [start]

theorem Delivered.observe {ts : List ℕ} {d : Driver} (h : Delivered schedule ts d)
    (hcrashes : ∀ f ∈ schedule.faults, ∀ node, f.fault = .crash node → node < schedule.config.replicas) (t : ℕ) :
    Delivered schedule (ts ++ [t]) (d.observe schedule t) := by
  have hstates : states schedule (ts ++ [t]) =
      states schedule ts ++ [Injected.desired schedule t schedule.config.replicas] := by simp [states]
  have hprev : d.injected.crashed ⊆ Finset.range schedule.config.replicas := by
    rw [h.injected]
    cases ts using List.reverseRecOn with
    | nil => exact Finset.empty_subset _
    | append_singleton ts u =>
      simp only [states, List.map_append, List.map_singleton, List.getLastD_concat]
      exact crashed_subset hcrashes u
  obtain ⟨hmirrors, hinjected, hsynced⟩ := reconcile_mirrors h.mirrors hprev (crashed_subset hcrashes t)
  refine ⟨?_, hmirrors, ?_, ?_, ?_, ?_, fun window => ?_⟩
  · rw [hstates, List.getLastD_concat]
    rfl
  · show d.processDesyncs + _ = 0
    rw [h.synced, hsynced]
  · have hlast : ((states schedule ts).map Injected.cuts).getLastD ∅ = d.injected.cuts := by
      rw [h.injected]
      exact getLastD_map Injected.cuts (states schedule ts) .default
    show d.injections.cuts + _ = _
    rw [hinjected, hstates, List.map_append, arrivals_append, h.cuts, hlast]
    rfl
  · have hlast : ((states schedule ts).map Injected.crashed).getLastD ∅ = d.injected.crashed := by
      rw [h.injected]
      exact getLastD_map Injected.crashed (states schedule ts) .default
    show d.injections.kills + _ = _
    rw [hinjected, hstates, List.map_append, arrivals_append, h.kills, hlast]
    rfl
  · have hlast : ((states schedule ts).map Injected.latencyMs).getLastD 0 = d.injected.latencyMs := by
      rw [h.injected]
      exact getLastD_map Injected.latencyMs (states schedule ts) .default
    show d.injections.latencyChanges + _ = _
    rw [hinjected, hstates, List.map_append, moves_append, h.latencyChanges, hlast]
    rfl
  · show window ∈ d.seenWindows ∪ _ ↔ _
    rw [Finset.mem_union, h.seen, List.mem_toFinset, List.mem_map]
    simp only [List.mem_append, List.mem_singleton, or_and_right, exists_or, exists_eq_left]

theorem delivered_replay (schedule : Schedule)
    (hcrashes : ∀ f ∈ schedule.faults, ∀ node, f.fault = .crash node → node < schedule.config.replicas) (ts : List ℕ) :
    Delivered schedule ts (ts.foldl (observe schedule) (start schedule.config.replicas)) := by
  induction ts using List.reverseRecOn with
  | nil => exact delivered_start schedule
  | append_singleton ts t ih =>
    rw [List.foldl_append]
    exact ih.observe hcrashes t

end Driver

/-! ## The windows seen -/

open Driver

variable {faults : List ScheduledFault} {t : ℕ}

theorem mem_enteredBy (h : faults.Pairwise fun f g => f.startMs < g.startMs) {f : ScheduledFault} :
    f ∈ enteredBy faults t ↔ f ∈ faults ∧ f.startMs ≤ t := by
  unfold enteredBy
  induction faults with
  | nil => simp
  | cons g faults ih =>
    obtain ⟨hfirst, hrest⟩ := List.pairwise_cons.1 h
    by_cases hg : g.startMs ≤ t
    · rw [List.takeWhile_cons, if_pos (decide_eq_true hg), List.mem_cons, ih hrest, List.mem_cons]
      constructor
      · rintro (rfl | ⟨hf, hle⟩)
        · exact ⟨.inl rfl, hg⟩
        · exact ⟨.inr hf, hle⟩
      · rintro ⟨rfl | hf, hle⟩
        · exact .inl rfl
        · exact .inr ⟨hf, hle⟩
    · rw [List.takeWhile_cons, if_neg (by simpa using hg)]
      constructor
      · intro hf
        cases hf
      · rintro ⟨hf, hle⟩
        rcases List.mem_cons.1 hf with rfl | hf
        · exact absurd hle hg
        · have hlt := hfirst f hf
          omega

/-- until `t`, the windows that open later do not matter -/
theorem activeAt_enteredBy (h : faults.Pairwise fun f g => f.startMs < g.startMs) {u : ℕ} (hu : u ≤ t) :
    activeAt (enteredBy faults t) u = activeAt faults u := by
  have hsplit : enteredBy faults t ++ faults.dropWhile (fun f => f.startMs ≤ t) = faults :=
    List.takeWhile_append_dropWhile
  have hlater : activeAt (faults.dropWhile fun f => f.startMs ≤ t) u = [] := by
    rw [List.eq_nil_iff_forall_not_mem]
    intro f hf
    obtain ⟨hmem, hstart, -⟩ := mem_activeAt.1 hf
    have hin : f ∈ enteredBy faults t := (mem_enteredBy h).2 ⟨(List.dropWhile_sublist _).subset hmem, by omega⟩
    -- no window is both before and after
    rw [← hsplit] at h
    exact absurd ((List.pairwise_append.1 h).2.2 f hin f hmem) (lt_irrefl _)
  conv_rhs => rw [← hsplit]
  unfold activeAt at hlater ⊢
  rw [List.filter_append, hlater, List.append_nil]

variable {config : ScheduleConfig} {seed : UInt64} {stepMs k : ℕ}

/-- every window that has opened by an instant of the grid has been sampled by then -/
theorem sampled_by (hstep : 1 ≤ stepMs) (hmin : stepMs ≤ config.minFaultMs) (hk : k * stepMs < config.durationMs) :
    ∀ f ∈ enteredBy (config.drawn seed).faults (k * stepMs),
      ∃ j ≤ k, f.startMs ≤ j * stepMs ∧ j * stepMs < f.endMs := by
  intro f hf
  have hplaced := ScheduleConfig.placed_drawn config seed
  obtain ⟨hmem, hle⟩ := (mem_enteredBy hplaced.ordered).1 hf
  obtain ⟨j, hj, hj'⟩ := exists_grid hstep f.startMs
  have hjk : j ≤ k := by
    by_contra hlt
    have hmul : (k + 1) * stepMs ≤ j * stepMs := Nat.mul_le_mul_right stepMs (by omega)
    rw [Nat.succ_mul] at hmul
    omega
  have hmul : j * stepMs ≤ k * stepMs := Nat.mul_le_mul_right stepMs hjk
  refine ⟨j, hjk, hj, ?_⟩
  rcases hplaced.lasting f hmem with hlong | hclipped
  · omega
  · omega

/-- a window, as the driver notes it -/
def window (f : ScheduledFault) : ℕ × ℕ := (f.startMs, f.endMs)

/-- the windows seen by an instant are those that have opened by then, which are the first of the schedule -/
theorem seen_enteredBy (seed : UInt64) (hstep : 1 ≤ stepMs) (hmin : stepMs ≤ config.minFaultMs)
    (hk : k * stepMs < config.durationMs) :
    (replay (Schedule.generate seed config) stepMs (k + 1)).seenWindows =
        ((enteredBy (config.drawn seed).faults (k * stepMs)).map window).toFinset ∧
      (replay (Schedule.generate seed config) stepMs (k + 1)).windowsEntered =
        (enteredBy (config.drawn seed).faults (k * stepMs)).length ∧
      (config.drawn seed).faults.take (replay (Schedule.generate seed config) stepMs (k + 1)).windowsEntered =
        enteredBy (config.drawn seed).faults (k * stepMs) := by
  have hplaced := ScheduleConfig.placed_drawn config seed
  have hdelivered := delivered_replay (Schedule.generate seed config) hplaced.crashes
    (grid stepMs (k + 1))
  have hseen : (replay (Schedule.generate seed config) stepMs (k + 1)).seenWindows =
      ((enteredBy (config.drawn seed).faults (k * stepMs)).map window).toFinset := by
    ext w
    rw [List.mem_toFinset, List.mem_map]
    refine (hdelivered.seen w).trans ?_
    constructor
    · rintro ⟨t, ht, f, hf, rfl⟩
      obtain ⟨j, hj, rfl⟩ := mem_grid.1 ht
      obtain ⟨hmem, hstart, -⟩ := mem_activeAt.1 hf
      have hmul : j * stepMs ≤ k * stepMs := Nat.mul_le_mul_right stepMs (by omega)
      exact ⟨f, (mem_enteredBy hplaced.ordered).2 ⟨hmem, by omega⟩, rfl⟩
    · rintro ⟨f, hf, rfl⟩
      obtain ⟨j, hj, hstart, hend⟩ := sampled_by hstep hmin hk f hf
      exact ⟨j * stepMs, mem_grid.2 ⟨j, by omega, rfl⟩, f,
        mem_activeAt.2 ⟨((mem_enteredBy hplaced.ordered).1 hf).1, hstart, hend⟩, rfl⟩
  have hcard : (replay (Schedule.generate seed config) stepMs (k + 1)).windowsEntered =
      (enteredBy (config.drawn seed).faults (k * stepMs)).length := by
    have hsorted : (enteredBy (config.drawn seed).faults (k * stepMs)).Pairwise fun f g => f.startMs < g.startMs :=
      hplaced.ordered.sublist (List.takeWhile_sublist _)
    have hnodup : ((enteredBy (config.drawn seed).faults (k * stepMs)).map window).Nodup := by
      refine List.pairwise_map.2 (hsorted.imp fun hlt heq => ?_)
      exact absurd (congrArg Prod.fst heq) hlt.ne
    unfold windowsEntered
    rw [hseen, List.toFinset_card_of_nodup hnodup, List.length_map]
  refine ⟨hseen, hcard, ?_⟩
  rw [hcard]
  exact (List.prefix_iff_eq_take.1 (List.takeWhile_prefix _)).symm

/-! ## The audit -/

/-- what the audit compares: the cuts and kills asked for are never more than those delivered, and both counts of latency
changes are moves of the latency of the windows entered, of its kept pieces and of its samples -/
theorem audit_spec (seed : UInt64) (hstep : 1 ≤ stepMs) (hmin : stepMs ≤ config.minFaultMs)
    (hk : k * stepMs < config.durationMs) :
    ∃ expected, injectionsExpected (Schedule.generate seed config)
        (replay (Schedule.generate seed config) stepMs (k + 1)).windowsEntered stepMs = some expected ∧
      expected.cuts ≤ (replay (Schedule.generate seed config) stepMs (k + 1)).injections.cuts ∧
      expected.kills ≤ (replay (Schedule.generate seed config) stepMs (k + 1)).injections.kills ∧
      expected.latencyChanges = moves 0 0 ((keptPieces (enteredBy (config.drawn seed).faults (k * stepMs))
        config.replicas stepMs).map Prod.fst) ∧
      (replay (Schedule.generate seed config) stepMs (k + 1)).injections.latencyChanges =
        moves 0 0 ((grid stepMs (k + 1)).map
          (appliedLatency (enteredBy (config.drawn seed).faults (k * stepMs)) config.replicas)) := by
  have hplaced := ScheduleConfig.placed_drawn config seed
  have hdelivered := delivered_replay (Schedule.generate seed config) hplaced.crashes
    (grid stepMs (k + 1))
  obtain ⟨-, -, htake⟩ := seen_enteredBy seed hstep hmin hk
  obtain ⟨expected, hexpected, hcuts, hkills, hlatency⟩ := injectionsExpected_spec
    (Schedule.generate seed config) (replay (Schedule.generate seed config) stepMs (k + 1)).windowsEntered k hstep
    (by
      intro f hf
      exact sampled_by hstep hmin hk f (by rw [← htake]; exact hf))
  -- at the instants of the grid, the windows entered are all that matters
  have hstate (t : ℕ) (ht : t ∈ grid stepMs (k + 1)) :
      Injected.desiredOf ((config.drawn seed).faults.take
        (replay (Schedule.generate seed config) stepMs (k + 1)).windowsEntered) t config.replicas =
      Injected.desired (Schedule.generate seed config) t config.replicas := by
    obtain ⟨j, hj, rfl⟩ := mem_grid.1 ht
    have hmul : j * stepMs ≤ k * stepMs := Nat.mul_le_mul_right stepMs (by omega)
    rw [htake]
    exact Injected.desiredOf_congr (activeAt_enteredBy hplaced.ordered hmul)
  refine ⟨expected, hexpected, hcuts.trans_eq ?_, hkills.trans_eq ?_, ?_, ?_⟩
  · refine Eq.trans ?_ hdelivered.cuts.symm
    rw [states, List.map_map]
    exact congrArg _ (List.map_congr_left fun t ht => congrArg Injected.cuts (hstate t ht))
  · refine Eq.trans ?_ hdelivered.kills.symm
    rw [states, List.map_map]
    exact congrArg _ (List.map_congr_left fun t ht => congrArg Injected.crashed (hstate t ht))
  · rw [← htake]
    exact hlatency
  · refine hdelivered.latencyChanges.trans ?_
    rw [states, List.map_map, ← htake]
    exact congrArg _ (List.map_congr_left fun t ht => (congrArg Injected.latencyMs (hstate t ht)).symm)

/-- without a window there is nothing to deliver -/
theorem audit_idle (hstep : 1 ≤ stepMs) (hfaults : (config.drawn seed).faults = []) (windowsEntered : ℕ) :
    ∃ expected, injectionsExpected (Schedule.generate seed config) windowsEntered stepMs = some expected ∧
      Injections.none.Covers expected := by
  have hnil : (Schedule.generate seed config).faults.take windowsEntered = [] := by
    rw [show (Schedule.generate seed config).faults = [] from hfaults, List.take_nil]
  obtain ⟨expected, hexpected, hcuts, hkills, hlatency⟩ := injectionsExpected_spec
    (Schedule.generate seed config) windowsEntered 0 hstep (by
      intro f hf
      rw [hnil] at hf
      cases hf)
  rw [hnil] at hcuts hkills hlatency
  exact ⟨expected, hexpected, hcuts, hkills, hlatency.le⟩

/-- **A complete run is never failed by the audit**: whatever the seed and the shape of the schedule, if every fault lasts
for at least one step of at least a millisecond, a run that sees no divergence delivers what the windows it has seen ask
for in all three kinds. These windows are the first ones of the schedule, and no process transition was skipped. -/
theorem complete_run_covers (seed : UInt64) (config : ScheduleConfig) (stepMs : ℕ) (hstep : 1 ≤ stepMs)
    (hmin : stepMs ≤ config.minFaultMs) (diverged : ℕ → Bool) (hclean : ∀ k, diverged k = false) :
    (∃ expected, injectionsExpected (Schedule.generate seed config)
        (run (Schedule.generate seed config) stepMs diverged).windowsEntered stepMs = some expected ∧
      (run (Schedule.generate seed config) stepMs diverged).injections.Covers expected) ∧
    (run (Schedule.generate seed config) stepMs diverged).seenWindows =
      (((Schedule.generate seed config).faults.take
        (run (Schedule.generate seed config) stepMs diverged).windowsEntered).map window).toFinset ∧
    (run (Schedule.generate seed config) stepMs diverged).windowsEntered ≤ (Schedule.generate seed config).faults.length ∧
    (run (Schedule.generate seed config) stepMs diverged).processDesyncs = 0 := by
  have hplaced := ScheduleConfig.placed_drawn config seed
  obtain ⟨count, hrun, hbelow, hend⟩ := run_complete (Schedule.generate seed config) hstep hclean
  rw [hrun]
  have hsynced := (delivered_replay (Schedule.generate seed config) hplaced.crashes (grid stepMs count)).synced
  cases count with
  | zero =>
    -- a soak of no duration has no window
    have hfaults : (config.drawn seed).faults = [] := by
      rw [List.eq_nil_iff_forall_not_mem]
      intro f hf
      have hlt := hplaced.nonempty f hf
      have hle := hplaced.within f hf
      have hzero : config.durationMs ≤ 0 * stepMs := hend
      omega
    refine ⟨audit_idle hstep hfaults _, ?_, Nat.zero_le _, hsynced⟩
    rfl
  | succ k =>
    have hk : k * stepMs < config.durationMs := hbelow k (Nat.lt_succ_self k)
    obtain ⟨hseen, hcard, htake⟩ := seen_enteredBy seed hstep hmin hk
    obtain ⟨expected, hexpected, hcuts, hkills, hasked, hdelivered⟩ := audit_spec seed hstep hmin hk
    refine ⟨⟨expected, hexpected, hcuts, hkills, ?_⟩, ?_, ?_, hsynced⟩
    · -- every kept piece of the latency starts by the last instant
      have hheld := held_latency (enteredBy (config.drawn seed).faults (k * stepMs)) config.replicas
      have hall : (keptPieces (enteredBy (config.drawn seed).faults (k * stepMs)) config.replicas stepMs).takeWhile
          (fun p => p.2 ≤ k * stepMs) =
          keptPieces (enteredBy (config.drawn seed).faults (k * stepMs)) config.replicas stepMs := by
        rw [List.takeWhile_eq_self_iff]
        intro p hp
        have hstart := start_of_lasting hheld hp
        have hlast : (boundaries (enteredBy (config.drawn seed).faults (k * stepMs))).getLastD 0 ≤ config.durationMs :=
          getLastD_boundaries_le (fun f hf => hplaced.within f ((mem_enteredBy hplaced.ordered).1 hf).1)
            fun f hf => (hplaced.nonempty f ((mem_enteredBy hplaced.ordered).1 hf).1).le
        have hsucc : config.durationMs ≤ (k + 1) * stepMs := hend
        rw [Nat.succ_mul] at hsucc
        exact decide_eq_true (by omega)
      have hmoves := moves_lasting_le k hstep le_rfl hheld 0 0
      rw [hasked, hdelivered]
      unfold keptPieces at hall ⊢
      rw [← hall]
      exact hmoves
    · rw [show (Schedule.generate seed config).faults = (config.drawn seed).faults from rfl, htake]
      exact hseen
    · rw [hcard]
      exact (List.takeWhile_sublist _).length_le

/-- the schedule of a nightly soak, shortened to six seconds -/
def shortNightly : ScheduleConfig := ⟨3, 6000, 600, 3000, 500, 2500⟩

/-- isolated nodes, a crash and a latency, the last two at once -/
theorem complete_run_covers_short : (run (Schedule.generate 1 shortNightly) 100 fun _ => false).injections = ⟨8, 1, 1⟩ ∧
    ∃ expected, injectionsExpected (Schedule.generate 1 shortNightly)
        (run (Schedule.generate 1 shortNightly) 100 fun _ => false).windowsEntered 100 = some expected ∧
      (run (Schedule.generate 1 shortNightly) 100 fun _ => false).injections.Covers expected :=
  ⟨by decide +kernel,
    (complete_run_covers 1 shortNightly 100 (by decide) (by decide) (fun _ => false) fun _ => rfl).1⟩

/-! ### A run cut short -/

/-- after `t` the settled latency changes to none only: no latency window that opened by `t` closes later into a weaker
one that stays in force for more than a step -/
def LiftsAfter (entered : List ScheduledFault) (replicas stepMs t : ℕ) : Prop :=
  ∀ u, t ≤ u → settledLatency entered replicas stepMs (u + 1) = settledLatency entered replicas stepMs u ∨
    settledLatency entered replicas stepMs (u + 1) = 0

/-- none of the first `k + 1` samples shows a latency that does not last for more than a step -/
def SamplesSettled (entered : List ScheduledFault) (replicas stepMs k : ℕ) : Prop :=
  ∀ j ≤ k, appliedLatency entered replicas (j * stepMs) = settledLatency entered replicas stepMs (j * stepMs)

variable {entered : List ScheduledFault} {replicas : ℕ}

/-- a part of the series of settled latencies, as neighbours -/
theorem settled_chain_iff (v n : ℕ) :
    ((List.range' v (n + 1)).map (settledLatency entered replicas stepMs)).IsChain (fun v w => w = v ∨ w = 0) ↔
      ∀ u, v ≤ u → u < v + n → settledLatency entered replicas stepMs (u + 1) = settledLatency entered replicas stepMs u ∨
        settledLatency entered replicas stepMs (u + 1) = 0 := by
  induction n generalizing v with
  | zero => exact iff_of_true (List.IsChain.singleton _) fun u hu hu' => by omega
  | succ n ih =>
    rw [List.range'_succ, List.map_cons, List.range'_succ, List.map_cons, List.isChain_cons_cons, ← List.map_cons,
      ← List.range'_succ, ih]
    constructor
    · rintro ⟨hfirst, hrest⟩ u hu hu'
      rcases Nat.eq_or_lt_of_le hu with rfl | hlt
      · exact hfirst
      · exact hrest u hlt (by omega)
    · exact fun h => ⟨h v le_rfl (by omega), fun u hu hu' => h u (by omega) (by omega)⟩

/-- what is asked of the latency, with its part up to `t` -/
theorem asked_split (entered : List ScheduledFault) (replicas stepMs t : ℕ) {n : ℕ}
    (hn : (boundaries entered).getLastD 0 < t + 1 + n) :
    moves 0 0 ((keptPieces entered replicas stepMs).map Prod.fst) =
      moves 0 0 ((List.range (t + 1)).map (settledLatency entered replicas stepMs)) +
        moves 0 (settledLatency entered replicas stepMs t)
          ((List.range' (t + 1) n).map (settledLatency entered replicas stepMs)) := by
  have hlast : ((List.range (t + 1)).map (settledLatency entered replicas stepMs)).getLastD 0 =
      settledLatency entered replicas stepMs t := by
    rw [List.range_succ, List.map_append, List.map_singleton, List.getLastD_concat]
  rw [asked_settled entered replicas hn, ← hlast, ← moves_append, ← List.map_append]
  congr 2
  rw [List.range_eq_range', List.range_eq_range', ← List.range'_append_1, Nat.zero_add]

/-- after the last boundary nothing is applied, which lasts -/
theorem settledLatency_after {u : ℕ} (h : (boundaries entered).getLastD 0 ≤ u) :
    settledLatency entered replicas stepMs u = 0 := by
  have hnone (d : ℕ) : appliedLatency entered replicas (u + d) = 0 := appliedLatency_after replicas (by omega)
  have hlasts : Lasts (appliedLatency entered replicas) stepMs u := fun d _ => (hnone d).trans (hnone 0).symm
  exact (settled_of_lasts hlasts).trans (hnone 0)

theorem liftsAfter_iff {n : ℕ} (hn : (boundaries entered).getLastD 0 ≤ t + n) :
    LiftsAfter entered replicas stepMs t ↔
      moves 0 (settledLatency entered replicas stepMs t)
        ((List.range' (t + 1) n).map (settledLatency entered replicas stepMs)) = 0 := by
  have hseries : settledLatency entered replicas stepMs t ::
      (List.range' (t + 1) n).map (settledLatency entered replicas stepMs) =
        (List.range' t (n + 1)).map (settledLatency entered replicas stepMs) := by
    rw [List.range'_succ, List.map_cons]
  rw [moves_eq_zero_iff_lifts, hseries, settled_chain_iff]
  refine ⟨fun h u hu _ => h u hu, fun h u hu => ?_⟩
  rcases Nat.lt_or_ge u (t + n) with hlt | hge
  · exact h u hu hlt
  · exact .inr (settledLatency_after (by omega))

/-- **When a run cut short passes the audit**: if the first divergence is seen after the `k`-th instant, the cuts and kills
delivered always cover what the windows entered ask for. So do the latency changes where the settled latency changes to
none only after the stop; and if every sample showed the settled latency, only there. -/
theorem cut_run_covers_iff (seed : UInt64) (config : ScheduleConfig) (stepMs k : ℕ) (hstep : 1 ≤ stepMs)
    (hmin : stepMs ≤ config.minFaultMs) (hk : k * stepMs < config.durationMs) (diverged : ℕ → Bool)
    (hdiv : diverged k = true) (hfirst : ∀ j < k, diverged j = false) :
    ∃ expected, injectionsExpected (Schedule.generate seed config)
        (run (Schedule.generate seed config) stepMs diverged).windowsEntered stepMs = some expected ∧
      expected.cuts ≤ (run (Schedule.generate seed config) stepMs diverged).injections.cuts ∧
      expected.kills ≤ (run (Schedule.generate seed config) stepMs diverged).injections.kills ∧
      (LiftsAfter (enteredBy (config.drawn seed).faults (k * stepMs)) config.replicas stepMs (k * stepMs) →
        (run (Schedule.generate seed config) stepMs diverged).injections.Covers expected) ∧
      (SamplesSettled (enteredBy (config.drawn seed).faults (k * stepMs)) config.replicas stepMs k →
        ((run (Schedule.generate seed config) stepMs diverged).injections.Covers expected ↔
          LiftsAfter (enteredBy (config.drawn seed).faults (k * stepMs)) config.replicas stepMs (k * stepMs))) := by
  rw [run_cut (Schedule.generate seed config) hstep hk hdiv hfirst]
  obtain ⟨expected, hexpected, hcuts, hkills, hasked, hdelivered⟩ := audit_spec seed hstep hmin hk
  generalize enteredBy (config.drawn seed).faults (k * stepMs) = entered at hasked hdelivered ⊢
  have hsplit := asked_split entered config.replicas stepMs (k * stepMs)
    (show (boundaries entered).getLastD 0 < k * stepMs + 1 + (boundaries entered).getLastD 0 by omega)
  have hlater : LiftsAfter entered config.replicas stepMs (k * stepMs) ↔ _ :=
    liftsAfter_iff (Nat.le_add_left ((boundaries entered).getLastD 0) (k * stepMs))
  have hsampled := settled_le_sampled entered config.replicas k hstep
  rw [← hasked] at hsplit
  rw [← hdelivered] at hsampled
  refine ⟨expected, hexpected, hcuts, hkills, fun hlifts => ⟨hcuts, hkills, ?_⟩, fun hshown => ?_⟩
  · have hnone := hlater.1 hlifts
    omega
  · -- the samples are part of the settled series
    have hpart : moves 0 0 ((grid stepMs (k + 1)).map (appliedLatency entered config.replicas)) ≤
        moves 0 0 ((List.range (k * stepMs + 1)).map (settledLatency entered config.replicas stepMs)) := by
      have hsame : (grid stepMs (k + 1)).map (appliedLatency entered config.replicas) =
          (grid stepMs (k + 1)).map (settledLatency entered config.replicas stepMs) := by
        refine List.map_congr_left fun u hu => ?_
        obtain ⟨j, hj, rfl⟩ := mem_grid.1 hu
        exact hshown j (Nat.le_of_lt_succ hj)
      rw [hsame]
      exact moves_sublist ((grid_sublist_range hstep).map _)
    rw [← hdelivered] at hpart
    rw [hlater]
    exact ⟨fun hcovers => by have hle := hcovers.2.2; omega, fun hnone => ⟨hcuts, hkills, by omega⟩⟩

/-- a divergence that the observer sees after the `k`-th instant, and not before -/
def divergedAt (k : ℕ) : ℕ → Bool := fun j => j = k

/-- a latency of 21 ms inside one of 20 ms -/
def twoLatencies : List ScheduledFault := [⟨1558, 4381, .latency 20⟩, ⟨2987, 3630, .latency 21⟩]

theorem appliedLatency_two (u : ℕ) : appliedLatency twoLatencies 3 u =
    if 2987 ≤ u ∧ u < 3630 then 21 else if 1558 ≤ u ∧ u < 4381 then 20 else 0 := by
  have houter : (⟨1558, 4381, .latency 20⟩ : ScheduledFault).Active u ↔ 1558 ≤ u ∧ u < 4381 := Iff.rfl
  have hinner : (⟨2987, 3630, .latency 21⟩ : ScheduledFault).Active u ↔ 2987 ≤ u ∧ u < 3630 := Iff.rfl
  unfold appliedLatency Injected.desiredOf activeAt twoLatencies
  rw [List.filter_cons, List.filter_singleton]
  by_cases hin : 2987 ≤ u ∧ u < 3630
  · have hout : 1558 ≤ u ∧ u < 4381 := by omega
    rw [if_pos hin, decide_eq_true (houter.2 hout), decide_eq_true (hinner.2 hin)]
    rfl
  · rw [if_neg hin, decide_eq_false fun h => hin (hinner.1 h)]
    by_cases hout : 1558 ≤ u ∧ u < 4381
    · rw [if_pos hout, decide_eq_true (houter.2 hout)]
      rfl
    · rw [if_neg hout, decide_eq_false fun h => hout (houter.1 h)]
      rfl

/-- each of the latencies applied lasts for more than a step -/
theorem settledLatency_two (u : ℕ) : settledLatency twoLatencies 3 100 u = appliedLatency twoLatencies 3 u := by
  have hstart : appliedLatency twoLatencies 3 0 = 0 := appliedLatency_two 0
  refine settled_of_changes hstart (fun t => ?_) u
  by_cases hchange : t + 1 = 1558 ∨ t + 1 = 2987 ∨ t + 1 = 3630 ∨ t + 1 = 4381
  · right
    intro d hd
    rw [appliedLatency_two, appliedLatency_two]
    split_ifs <;> omega
  · left
    rw [appliedLatency_two, appliedLatency_two]
    split_ifs <;> omega

/-- of two runs that differ in their stop only, the one that is stopped at 3700 ms passes: the stronger window has closed,
and what is in force changes to none only. The one that is stopped at 3000 ms fails: the stronger window closes later. -/
theorem cut_run_covers_iff_between :
    (∃ expected, injectionsExpected (Schedule.generate 300 shortNightly)
        (run (Schedule.generate 300 shortNightly) 100 (divergedAt 37)).windowsEntered 100 = some expected ∧
      (run (Schedule.generate 300 shortNightly) 100 (divergedAt 37)).injections.Covers expected) ∧
    ∃ expected, injectionsExpected (Schedule.generate 300 shortNightly)
        (run (Schedule.generate 300 shortNightly) 100 (divergedAt 30)).windowsEntered 100 = some expected ∧
      ¬ (run (Schedule.generate 300 shortNightly) 100 (divergedAt 30)).injections.Covers expected := by
  have hlate : enteredBy (shortNightly.drawn 300).faults (37 * 100) = twoLatencies := by decide +kernel
  have hearly : enteredBy (shortNightly.drawn 300).faults (30 * 100) = twoLatencies := by decide +kernel
  obtain ⟨expected, hexpected, -, -, hcovers, -⟩ := cut_run_covers_iff 300 shortNightly 100 37 (by decide) (by decide)
    (by decide) (divergedAt 37) rfl (by decide)
  obtain ⟨expected', hexpected', -, -, -, hexact⟩ := cut_run_covers_iff 300 shortNightly 100 30 (by decide) (by decide)
    (by decide) (divergedAt 30) rfl (by decide)
  rw [hlate] at hcovers
  rw [hearly] at hexact
  refine ⟨⟨expected, hexpected, hcovers fun u hu => ?_⟩, expected', hexpected', fun hpassed => ?_⟩
  · show settledLatency twoLatencies 3 100 (u + 1) = settledLatency twoLatencies 3 100 u ∨
      settledLatency twoLatencies 3 100 (u + 1) = 0
    rw [settledLatency_two, settledLatency_two, appliedLatency_two, appliedLatency_two]
    split_ifs <;> omega
  · have hlifts := (hexact fun j _ => (settledLatency_two (j * 100)).symm).1 hpassed
    -- at 3630 ms the latency falls from 21 to 20
    have hfall : settledLatency twoLatencies 3 100 (3629 + 1) = settledLatency twoLatencies 3 100 3629 ∨
        settledLatency twoLatencies 3 100 (3629 + 1) = 0 := hlifts 3629 (by decide)
    rw [settledLatency_two, settledLatency_two, appliedLatency_two, appliedLatency_two] at hfall
    exact absurd hfall (by decide)

/-- stopped at 3000 ms, in a window of 21 ms that opened inside one of 20 ms and closes before it: two changes are
delivered, and the fall back to 20 ms is asked for as a third -/
theorem cut_run_fails : (Schedule.generate 300 shortNightly).faults =
      [⟨1558, 4381, .latency 20⟩, ⟨2987, 3630, .latency 21⟩, ⟨4403, 6000, .isolate 1⟩] ∧
    (run (Schedule.generate 300 shortNightly) 100 (divergedAt 30)).injections = ⟨0, 0, 2⟩ ∧
    injectionsExpected (Schedule.generate 300 shortNightly)
      (run (Schedule.generate 300 shortNightly) 100 (divergedAt 30)).windowsEntered 100 = some ⟨0, 0, 3⟩ ∧
    ¬ (run (Schedule.generate 300 shortNightly) 100 (divergedAt 30)).injections.Covers ⟨0, 0, 3⟩ := by
  decide +kernel

end Queso.Soak
