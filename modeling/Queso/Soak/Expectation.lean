/-
What a schedule's windows ask of the injector: `injections_expected`.

The walk visits the instants where the entered windows open or close, asks what should be in force there, and so finds
when each link is cut and each process down, and the pieces of the applied latency. Gaps and pieces of no more than a
sampling step are passed over, since the driver may not see them.

The walk's `expect`s hold (`walk_follows`), and no count exceeds the moves of the sampled signal it belongs to:
`coalesced_le_moves` for links and processes, `latencyChanges_eq` with the library's `moves_lasting_le` for the latency.
-/
import Mathlib.Data.List.TakeWhile
import Queso.Lib.Signal
import Queso.Soak.Injected

namespace Queso.Soak

open Signal

/-! ## The walk -/

/-- a map with finitely many keys, as a `BTreeMap`; what `get` says elsewhere does not matter -/
structure Table (κ β : Type) where
  keys : Finset κ
  get : κ → β

/-- the spans of each resource that are closed, and since when the others are open -/
structure Tracker (κ : Type) where
  spans : Table κ (List (ℕ × ℕ))
  opened : Table κ ℕ

namespace Tracker

variable {κ : Type} [DecidableEq κ]

def empty : Tracker κ := ⟨⟨∅, fun _ => []⟩, ⟨∅, fun _ => 0⟩⟩

/-- at `t`, what is new opens a span and what is gone closes its own, which has to be open -/
def walk (t : ℕ) (prev now : Finset κ) (tr : Tracker κ) : Option (Tracker κ) :=
  let opened : Table κ ℕ :=
    ⟨tr.opened.keys ∪ (now \ prev), fun k => if k ∈ now \ prev then t else tr.opened.get k⟩
  if prev \ now ⊆ opened.keys then
    some
      { spans :=
          ⟨tr.spans.keys ∪ (prev \ now),
            fun k => if k ∈ prev \ now then tr.spans.get k ++ [(opened.get k, t)] else tr.spans.get k⟩
        opened := ⟨opened.keys \ (prev \ now), opened.get⟩ }
  else none

end Tracker

structure Walk where
  cuts : Tracker Link
  downs : Tracker ℕ
  /-- each value of the applied latency and since when -/
  latencyPieces : List (ℕ × ℕ)
  prev : Injected

namespace Walk

def start : Walk := ⟨.empty, .empty, [], Injected.default⟩

def visit (entered : List ScheduledFault) (replicas : ℕ) (w : Walk) (t : ℕ) : Option Walk :=
  let now := Injected.desiredOf entered t replicas
  (w.cuts.walk t w.prev.cuts now.cuts).bind fun cuts =>
    (w.downs.walk t w.prev.crashed now.crashed).map fun downs =>
      { cuts := cuts
        downs := downs
        latencyPieces :=
          if now.latencyMs ≠ w.prev.latencyMs then w.latencyPieces ++ [(now.latencyMs, t)] else w.latencyPieces
        prev := now }

end Walk

/-- the instants where a window opens or closes, in order; on a sorted list all duplicates are neighbours -/
def boundaries (entered : List ScheduledFault) : List ℕ :=
  ((entered.flatMap fun f => [f.startMs, f.endMs]).insertionSort (· ≤ ·)).dedup

/-- one more span: the number of groups so far, and where the last span ends -/
def coalesce (sampleStepMs : ℕ) (groups : ℕ × Option ℕ) (span : ℕ × ℕ) : ℕ × Option ℕ :=
  (match groups.2 with
    | some openUntil => if span.1 - openUntil ≤ sampleStepMs then groups.1 else groups.1 + 1
    | none => groups.1 + 1,
    some (max (groups.2.getD 0) span.2))

/-- one transition for each group of spans whose gaps are no longer than a step -/
def coalesced (sampleStepMs : ℕ) (spans : List (ℕ × ℕ)) : ℕ := (spans.foldl (coalesce sampleStepMs) (0, none)).1

/-- the changes to a non-zero latency among the pieces of more than a step; `observed` is the last such value -/
def latencyChanges (sampleStepMs last observed : ℕ) : List (ℕ × ℕ) → ℕ
  | [] => 0
  | p :: rest =>
    if pieceEnd last rest - p.2 ≤ sampleStepMs then latencyChanges sampleStepMs last observed rest
    else (if p.1 ≠ observed ∧ p.1 ≠ 0 then 1 else 0) + latencyChanges sampleStepMs last p.1 rest

/-- `none` is a panic: a span to close that is not open, or one still open at the end -/
def injectionsExpected (schedule : Schedule) (windowsEntered sampleStepMs : ℕ) : Option Injections :=
  let entered := schedule.faults.take (min windowsEntered schedule.faults.length)
  ((boundaries entered).foldlM (Walk.visit entered schedule.config.replicas) .start).bind fun w =>
    if w.cuts.opened.keys = ∅ ∧ w.downs.opened.keys = ∅ then
      some
        { cuts := ∑ link ∈ w.cuts.spans.keys, coalesced sampleStepMs (w.cuts.spans.get link)
          kills := ∑ node ∈ w.downs.spans.keys, coalesced sampleStepMs (w.downs.spans.get node)
          latencyChanges := latencyChanges sampleStepMs ((boundaries entered).getLastD 0) 0 w.latencyPieces }
    else none

/-! ## The walk follows what is in force -/

namespace Tracker

variable {κ : Type} [DecidableEq κ] {inForce : ℕ → Finset κ} {opensAt : κ → ℕ → Prop} {now next : ℕ} {tr : Tracker κ}

/-- when the resource's open span was opened -/
def openSince (tr : Tracker κ) (k : κ) : Option ℕ := if k ∈ tr.opened.keys then some (tr.opened.get k) else none

/-- at `now`, what is in force has an open span, and every resource is tracked -/
structure Follows (inForce : ℕ → Finset κ) (opensAt : κ → ℕ → Prop) (now : ℕ) (tr : Tracker κ) : Prop where
  opened : tr.opened.keys = inForce now
  tracked : ∀ k, Tracked (opensAt k) (fun t => k ∈ inForce t) now (tr.spans.get k) (tr.openSince k)

/-- the first instant of the walk -/
theorem walk_first (inForce : ℕ → Finset κ) (opensAt : κ → ℕ → Prop) (now : ℕ)
    (hopens : ∀ k ∈ inForce now, opensAt k now) :
    ∃ tr, empty.walk now ∅ (inForce now) = some tr ∧ Follows inForce opensAt now tr := by
  refine ⟨_, if_pos (by simp), ⟨by simp [empty], fun k => ?_⟩⟩
  by_cases hk : k ∈ inForce now
  · have htr := tracked_on (opensAt k) (fun t => k ∈ inForce t) hk (hopens k hk)
    simpa [openSince, empty, hk] using htr
  · have htr := tracked_off (opensAt k) (fun t => k ∈ inForce t) hk
    simpa [openSince, empty, hk] using htr

/-- what is in force was in force from `now` to `next`, and what comes into force at `next` opens there -/
theorem walk_next (h : Follows inForce opensAt now tr) (hsteady : Steady inForce now next)
    (hopens : ∀ k ∈ inForce next, k ∉ inForce now → opensAt k next) :
    ∃ tr', tr.walk next (inForce now) (inForce next) = some tr' ∧ Follows inForce opensAt next tr' := by
  obtain ⟨hlt, hconst⟩ := hsteady
  have hsub : inForce now \ inForce next ⊆ tr.opened.keys ∪ (inForce next \ inForce now) := by
    rw [h.opened]
    exact Finset.sdiff_subset.trans Finset.subset_union_left
  refine ⟨_, if_pos hsub, ⟨?_, fun k => ?_⟩⟩
  · dsimp only
    rw [h.opened]
    ext k
    simp only [Finset.mem_sdiff, Finset.mem_union]
    tauto
  · have hon (t : ℕ) (ht : now ≤ t) (ht' : t < next) : k ∈ inForce t ↔ k ∈ inForce now := by rw [hconst t ht ht']
    have htr := h.tracked k
    by_cases hk : k ∈ inForce now
    · have hopen : tr.openSince k = some (tr.opened.get k) := by
        unfold openSince
        rw [h.opened, if_pos hk]
      rw [hopen] at htr
      by_cases hk' : k ∈ inForce next
      · have hstays := htr.stays hon (iff_of_true hk' hk) hlt
        simpa [openSince, h.opened, hk, hk'] using hstays
      · have hcloses := htr.closes hon hk' hlt
        simpa [openSince, h.opened, hk, hk'] using hcloses
    · have hopen : tr.openSince k = none := by
        unfold openSince
        rw [h.opened, if_neg hk]
      rw [hopen] at htr
      by_cases hk' : k ∈ inForce next
      · have hgoes := htr.opens hon hk' (hopens k hk' hk) hlt
        simpa [openSince, h.opened, hk, hk'] using hgoes
      · have hstays := htr.stays hon (iff_of_false hk' hk) hlt
        simpa [openSince, h.opened, hk, hk'] using hstays

end Tracker

/-! ## The boundaries -/

variable {entered : List ScheduledFault} {replicas t : ℕ}

theorem mem_boundaries : t ∈ boundaries entered ↔ ∃ f ∈ entered, t = f.startMs ∨ t = f.endMs := by
  rw [boundaries, List.mem_dedup, (List.perm_insertionSort _ _).mem_iff, List.mem_flatMap]
  simp

theorem boundaries_pairwise (entered : List ScheduledFault) : (boundaries entered).Pairwise (· < ·) := by
  have hsorted : (boundaries entered).Pairwise (· ≤ ·) :=
    (List.pairwise_insertionSort (· ≤ ·) _).sublist (List.dedup_sublist _)
  have hnodup : (boundaries entered).Nodup := List.nodup_dedup _
  exact hsorted.imp₂ (fun _ _ hle hne => lt_of_le_of_ne hle hne) hnodup

/-- the last boundary is no later than the last end of a window -/
theorem getLastD_boundaries_le {bound : ℕ} (h : ∀ f ∈ entered, f.endMs ≤ bound) (hne : ∀ f ∈ entered, f.startMs ≤ f.endMs) :
    (boundaries entered).getLastD 0 ≤ bound := by
  cases hb : boundaries entered with
  | nil => exact Nat.zero_le _
  | cons t₀ ts =>
    have hmem : (t₀ :: ts).getLastD 0 ∈ boundaries entered := by
      rw [hb, List.getLastD_cons]
      exact List.getLastD_mem_cons
    obtain ⟨f, hf, hbound | hbound⟩ := mem_boundaries.1 hmem
    · exact hbound.trans_le ((hne f hf).trans (h f hf))
    · exact hbound.trans_le (h f hf)

/-- the faults in force change only where a window opens or closes -/
theorem boundaries_steady (entered : List ScheduledFault) :
    (boundaries entered).IsChain fun s t => Steady (activeAt entered) s t ∧ ∀ x ∈ boundaries entered, x ≤ s ∨ t ≤ x := by
  refine (isChain_neighbours (boundaries_pairwise entered)).imp ?_
  rintro s t ⟨hlt, hnone⟩
  refine ⟨⟨hlt, fun u hu hu' => ?_⟩, hnone⟩
  refine List.filter_congr fun f hf => ?_
  have hstart := hnone f.startMs (mem_boundaries.2 ⟨f, hf, .inl rfl⟩)
  have hend := hnone f.endMs (mem_boundaries.2 ⟨f, hf, .inr rfl⟩)
  rw [decide_eq_decide]
  constructor
  · rintro ⟨hs, he⟩
    exact ⟨by omega, by omega⟩
  · rintro ⟨hs, he⟩
    exact ⟨by omega, by omega⟩

/-! ## The whole walk -/

namespace Walk

/-- a window that severs the link opens at `t` -/
def CutOpens (entered : List ScheduledFault) (replicas : ℕ) (link : Link) (t : ℕ) : Prop :=
  ∃ f ∈ entered, f.startMs = t ∧ f.fault.Severs replicas link

/-- a window that crashes the node opens at `t` -/
def DownOpens (entered : List ScheduledFault) (node : ℕ) (t : ℕ) : Prop :=
  ∃ f ∈ entered, f.startMs = t ∧ f.fault = .crash node

/-- the walk has reached `t` -/
structure Follows (entered : List ScheduledFault) (replicas t : ℕ) (w : Walk) : Prop where
  cuts : w.cuts.Follows (fun t => (Injected.desiredOf entered t replicas).cuts) (CutOpens entered replicas) t
  downs : w.downs.Follows (fun t => (Injected.desiredOf entered t replicas).crashed) (DownOpens entered) t
  prev : w.prev = Injected.desiredOf entered t replicas

variable {w : Walk} {now next : ℕ}

theorem visit_eq {cuts : Tracker Link} {downs : Tracker ℕ}
    (hcuts : w.cuts.walk t w.prev.cuts (Injected.desiredOf entered t replicas).cuts = some cuts)
    (hdowns : w.downs.walk t w.prev.crashed (Injected.desiredOf entered t replicas).crashed = some downs) :
    ∃ w', visit entered replicas w t = some w' ∧ w'.cuts = cuts ∧ w'.downs = downs ∧
      w'.prev = Injected.desiredOf entered t replicas := by
  unfold visit
  dsimp only
  rw [hcuts, Option.bind_some, hdowns, Option.map_some]
  exact ⟨_, rfl, rfl, rfl, rfl⟩

/-- the first boundary is where the first windows open -/
theorem visit_first (replicas : ℕ) (hfirst : ∀ x ∈ boundaries entered, now ≤ x) :
    ∃ w, visit entered replicas .start now = some w ∧ w.Follows entered replicas now := by
  have hopens (f : ScheduledFault) (hf : f ∈ activeAt entered now) : f ∈ entered ∧ f.startMs = now := by
    obtain ⟨hmem, hstart, -⟩ := mem_activeAt.1 hf
    exact ⟨hmem, le_antisymm hstart (hfirst _ (mem_boundaries.2 ⟨f, hmem, .inl rfl⟩))⟩
  obtain ⟨cuts, hcuts, hfollows⟩ := Tracker.walk_first
    (fun t => (Injected.desiredOf entered t replicas).cuts) (CutOpens entered replicas) now
    fun link hlink => by
      obtain ⟨f, hf, hsevers⟩ := Injected.mem_cuts_desiredOf.1 hlink
      exact ⟨f, (hopens f hf).1, (hopens f hf).2, hsevers⟩
  obtain ⟨downs, hdowns, hfollows'⟩ := Tracker.walk_first
    (fun t => (Injected.desiredOf entered t replicas).crashed) (DownOpens entered) now
    fun node hnode => by
      obtain ⟨f, hf, hcrash⟩ := Injected.mem_crashed_desiredOf.1 hnode
      exact ⟨f, (hopens f hf).1, (hopens f hf).2, hcrash⟩
  obtain ⟨w, hw, hwcuts, hwdowns, hprev⟩ := visit_eq (w := start) hcuts hdowns
  exact ⟨w, hw, ⟨by rw [hwcuts]; exact hfollows, by rw [hwdowns]; exact hfollows', hprev⟩⟩

theorem visit_next (h : w.Follows entered replicas now) (hsteady : Steady (activeAt entered) now next)
    (hnone : ∀ x ∈ boundaries entered, x ≤ now ∨ next ≤ x) :
    ∃ w', visit entered replicas w next = some w' ∧ w'.Follows entered replicas next := by
  -- what is in force at the next boundary and was not is in a window that opens there
  have hopens (f : ScheduledFault) (hf : f ∈ activeAt entered next) (hnot : f ∉ activeAt entered now) :
      f ∈ entered ∧ f.startMs = next := by
    obtain ⟨hmem, hstart, hend⟩ := mem_activeAt.1 hf
    refine ⟨hmem, ?_⟩
    have hlt := hsteady.1
    rcases hnone _ (mem_boundaries.2 ⟨f, hmem, .inl rfl⟩) with hle | hge
    · exact absurd (mem_activeAt.2 ⟨hmem, hle, by omega⟩) hnot
    · exact le_antisymm hstart hge
  have hcuts : Steady (fun t => (Injected.desiredOf entered t replicas).cuts) now next :=
    ⟨hsteady.1, fun u hu hu' => congrArg Injected.cuts (Injected.desiredOf_congr (hsteady.2 u hu hu'))⟩
  have hdowns : Steady (fun t => (Injected.desiredOf entered t replicas).crashed) now next :=
    ⟨hsteady.1, fun u hu hu' => congrArg Injected.crashed (Injected.desiredOf_congr (hsteady.2 u hu hu'))⟩
  obtain ⟨cuts, hcuts, hfollows⟩ := Tracker.walk_next h.cuts hcuts fun link hlink hnot => by
    obtain ⟨f, hf, hsevers⟩ := Injected.mem_cuts_desiredOf.1 hlink
    obtain ⟨hmem, hstart⟩ := hopens f hf fun hin => hnot (Injected.mem_cuts_desiredOf.2 ⟨f, hin, hsevers⟩)
    exact ⟨f, hmem, hstart, hsevers⟩
  obtain ⟨downs, hdowns, hfollows'⟩ := Tracker.walk_next h.downs hdowns fun node hnode hnot => by
    obtain ⟨f, hf, hcrash⟩ := Injected.mem_crashed_desiredOf.1 hnode
    obtain ⟨hmem, hstart⟩ := hopens f hf fun hin => hnot (Injected.mem_crashed_desiredOf.2 ⟨f, hin, hcrash⟩)
    exact ⟨f, hmem, hstart, hcrash⟩
  obtain ⟨w', hw, hwcuts, hwdowns, hprev⟩ := visit_eq (w := w) (by rw [h.prev]; exact hcuts) (by rw [h.prev]; exact hdowns)
  exact ⟨w', hw, ⟨by rw [hwcuts]; exact hfollows, by rw [hwdowns]; exact hfollows', hprev⟩⟩

/-- a visit adds the piece of latency that starts there, if one does -/
theorem visit_latency {w' : Walk} (h : visit entered replicas w t = some w') (ts : List ℕ) :
    w'.prev = Injected.desiredOf entered t replicas ∧
      w.latencyPieces ++ pieces (fun t => (Injected.desiredOf entered t replicas).latencyMs) w.prev.latencyMs (t :: ts) =
        w'.latencyPieces ++ pieces (fun t => (Injected.desiredOf entered t replicas).latencyMs) w'.prev.latencyMs ts := by
  unfold visit at h
  obtain ⟨cuts, -, h⟩ := Option.bind_eq_some_iff.1 h
  obtain ⟨downs, -, rfl⟩ := Option.map_eq_some_iff.1 h
  refine ⟨rfl, ?_⟩
  rw [pieces_cons]
  dsimp only
  by_cases hnew : (Injected.desiredOf entered t replicas).latencyMs ≠ w.prev.latencyMs
  · rw [if_pos hnew, if_pos hnew, List.append_assoc]
    rfl
  · rw [if_neg hnew, if_neg hnew, not_not.1 hnew]

/-- the rest of the walk, from a boundary on -/
theorem walk_follows {ts : List ℕ} (h : w.Follows entered replicas now)
    (hchain : (now :: ts).IsChain fun s t =>
      Steady (activeAt entered) s t ∧ ∀ x ∈ boundaries entered, x ≤ s ∨ t ≤ x) :
    ∃ w', ts.foldlM (visit entered replicas) w = some w' ∧ w'.Follows entered replicas (ts.getLastD now) ∧
      w'.latencyPieces = w.latencyPieces ++
        pieces (fun t => (Injected.desiredOf entered t replicas).latencyMs) w.prev.latencyMs ts := by
  induction ts generalizing w now with
  | nil => exact ⟨w, rfl, h, (List.append_nil _).symm⟩
  | cons next ts ih =>
    obtain ⟨⟨hsteady, hnone⟩, hrest⟩ := List.isChain_cons_cons.1 hchain
    obtain ⟨u, hu, hfollows⟩ := visit_next h hsteady hnone
    obtain ⟨w', hw', hfollows', hpieces⟩ := ih hfollows hrest
    refine ⟨w', ?_, ?_, ?_⟩
    · rw [List.foldlM_cons, hu]
      exact hw'
    · rw [List.getLastD_cons]
      exact hfollows'
    · rw [hpieces]
      exact (visit_latency hu ts).2.symm

/-- every resource's spans are those during which it is in force, each opened by a window of its own -/
structure Complete (entered : List ScheduledFault) (replicas : ℕ) (w : Walk) : Prop where
  cutsClosed : w.cuts.opened.keys = ∅
  downsClosed : w.downs.opened.keys = ∅
  cuts : ∀ link, Spans (fun t => link ∈ (Injected.desiredOf entered t replicas).cuts) (w.cuts.spans.get link) ∧
    ∀ s ∈ w.cuts.spans.get link, CutOpens entered replicas link s.1
  downs : ∀ node, Spans (fun t => node ∈ (Injected.desiredOf entered t replicas).crashed) (w.downs.spans.get node) ∧
    ∀ s ∈ w.downs.spans.get node, DownOpens entered node s.1
  latency : w.latencyPieces =
    pieces (fun t => (Injected.desiredOf entered t replicas).latencyMs) 0 (boundaries entered)

theorem Follows.complete (h : w.Follows entered replicas now) (hidle : activeAt entered now = [])
    (hpieces : w.latencyPieces =
      pieces (fun t => (Injected.desiredOf entered t replicas).latencyMs) 0 (boundaries entered)) :
    w.Complete entered replicas where
  cutsClosed := by rw [h.cuts.opened, Injected.desiredOf_idle replicas hidle]; rfl
  downsClosed := by rw [h.downs.opened, Injected.desiredOf_idle replicas hidle]; rfl
  cuts := fun link => ⟨(h.cuts.tracked link).spans, (h.cuts.tracked link).starts⟩
  downs := fun node => ⟨(h.downs.tracked node).spans, (h.downs.tracked node).starts⟩
  latency := hpieces

/-- the walk over all boundaries neither panics nor leaves a span open -/
theorem walk_complete (entered : List ScheduledFault) (replicas : ℕ) :
    ∃ w, (boundaries entered).foldlM (visit entered replicas) start = some w ∧ w.Complete entered replicas := by
  have hchain := boundaries_steady entered
  cases hb : boundaries entered with
  | nil =>
    have hnil (t : ℕ) : activeAt entered t = [] := by
      rw [List.eq_nil_iff_forall_not_mem]
      intro f hf
      have hmem := mem_boundaries.2 ⟨f, (mem_activeAt.1 hf).1, .inl rfl⟩
      rw [hb] at hmem
      cases hmem
    have hstart : start.Follows entered replicas 0 := by
      have hidle := Injected.desiredOf_idle replicas (hnil 0)
      refine ⟨⟨by rw [hidle]; rfl, fun link => ?_⟩, ⟨by rw [hidle]; rfl, fun node => ?_⟩, hidle.symm⟩
      · exact tracked_off _ _ (by rw [hidle]; exact Finset.notMem_empty _)
      · exact tracked_off _ _ (by rw [hidle]; exact Finset.notMem_empty _)
    exact ⟨start, rfl, hstart.complete (hnil 0) (by rw [hb]; rfl)⟩
  | cons t₀ ts =>
    have hsorted := boundaries_pairwise entered
    rw [hb] at hsorted
    have hfirst : ∀ x ∈ boundaries entered, t₀ ≤ x := by
      intro x hx
      rw [hb] at hx
      rcases List.mem_cons.1 hx with rfl | hx
      · exact le_rfl
      · exact ((List.pairwise_cons.1 hsorted).1 x hx).le
    obtain ⟨u, hu, hfollows⟩ := visit_first replicas hfirst
    rw [hb] at hchain
    obtain ⟨w, hw, hfollows', hpieces⟩ := walk_follows hfollows (by rw [hb]; exact hchain)
    -- no window is open at the last boundary
    have hidle : activeAt entered (ts.getLastD t₀) = [] := by
      rw [List.eq_nil_iff_forall_not_mem]
      intro f hf
      obtain ⟨hmem, -, hend⟩ := mem_activeAt.1 hf
      have hbound := mem_boundaries.2 ⟨f, hmem, .inr rfl⟩
      rw [hb] at hbound
      exact absurd (le_getLastD_of_pairwise hsorted hbound) (not_le.2 hend)
    refine ⟨w, by rw [List.foldlM_cons, hu]; exact hw, hfollows'.complete hidle ?_⟩
    rw [hpieces, hb]
    exact (visit_latency hu ts).2.symm

end Walk

/-! ## The counts -/

/-- the spans are all sampled by a grid -/
def Sampled (sampleStepMs count : ℕ) (spans : List (ℕ × ℕ)) : Prop :=
  ∀ s ∈ spans, ∃ j ≤ count, s.1 ≤ j * sampleStepMs ∧ j * sampleStepMs < s.2

variable {on : ℕ → Prop} {sampleStepMs count : ℕ}

/-- where each window is sampled, so are the spans it opens -/
theorem sampled_of_opens {spans : List (ℕ × ℕ)} (h : Spans on spans)
    (hopens : ∀ s ∈ spans, ∃ f ∈ entered, f.startMs = s.1 ∧ ∀ t, f.startMs ≤ t → t < f.endMs → on t)
    (hsampled : ∀ f ∈ entered, ∃ j ≤ count, f.startMs ≤ j * sampleStepMs ∧ j * sampleStepMs < f.endMs) :
    Sampled sampleStepMs count spans := by
  intro s hs
  obtain ⟨hlt, -, hoff⟩ := h.each s hs
  obtain ⟨f, hf, hstart, hon⟩ := hopens s hs
  obtain ⟨j, hj, hj', hend⟩ := hsampled f hf
  -- the span lasts as long as the window does
  have hle : f.endMs ≤ s.2 := by
    by_contra hgt
    exact hoff (hon s.2 (by omega) (by omega))
  exact ⟨j, hj, by omega, by omega⟩

variable [DecidablePred on]

/-- instants that show each group on, and the signal off between two groups -/
theorem exists_groups (hstep : 1 ≤ sampleStepMs) (spans : List (ℕ × ℕ)) (h : Spans on spans)
    (hsampled : Sampled sampleStepMs count spans) :
    ∃ instants : List ℕ, instants.Pairwise (· < ·) ∧ (∀ t ∈ instants, t ∈ grid sampleStepMs (count + 1)) ∧
      (∀ t ∈ instants, ∃ p, spans.getLast? = some p ∧ t < p.2) ∧
      (spans ≠ [] → (instants.map fun t => decide (on t)).getLastD false = true) ∧
      spans.foldl (coalesce sampleStepMs) (0, none) =
        (moves false false (instants.map fun t => decide (on t)), spans.getLast?.map Prod.snd) := by
  induction spans using List.reverseRecOn with
  | nil => exact ⟨[], List.Pairwise.nil, by simp, by simp, by simp, rfl⟩
  | append_singleton spans s ih =>
    obtain ⟨hchain, -, hnext⟩ := List.isChain_append.1 h.chain
    obtain ⟨hlt, hon, -⟩ := h.each s (by simp)
    obtain ⟨instants, hpair, hgrid, hbelow, hlast, hfold⟩ :=
      ih ⟨fun p hp => h.each p (List.mem_append_left _ hp), hchain⟩ fun p hp => hsampled p (List.mem_append_left _ hp)
    obtain ⟨j, hj, hstart, hend⟩ := hsampled s (by simp)
    have hx : decide (on (j * sampleStepMs)) = true := decide_eq_true (hon _ hstart hend)
    have hxgrid : j * sampleStepMs ∈ grid sampleStepMs (count + 1) := mem_grid.2 ⟨j, by omega, rfl⟩
    rw [List.foldl_append, hfold, List.foldl_cons, List.foldl_nil, List.getLast?_concat]
    unfold coalesce
    cases hp : spans.getLast? with
    | none =>
      -- the first span is the first group
      have hnil : instants = [] := by
        rw [List.eq_nil_iff_forall_not_mem]
        intro t ht
        obtain ⟨p, hp', -⟩ := hbelow t ht
        rw [hp] at hp'
        cases hp'
      subst hnil
      refine ⟨[j * sampleStepMs], List.pairwise_singleton _ _, by simpa using hxgrid, by simpa using hend,
        fun _ => hx, ?_⟩
      simp [moves, hx]
    | some p =>
      obtain ⟨hgap, hoff⟩ := hnext p hp s rfl
      have hne : spans ≠ [] := by
        rintro rfl
        cases hp
      have hmax : max p.2 s.2 = s.2 := max_eq_right (by omega)
      by_cases hclose : s.1 - p.2 ≤ sampleStepMs
      · refine ⟨instants, hpair, hgrid, fun t ht => ?_, fun _ => hlast hne, ?_⟩
        · obtain ⟨q, hq, hlt'⟩ := hbelow t ht
          rw [hp] at hq
          cases hq
          exact ⟨s, rfl, by omega⟩
        · simp [hclose, hmax]
      · obtain ⟨k, hk, hk'⟩ := exists_grid hstep p.2
        have hy : decide (on (k * sampleStepMs)) = false := decide_eq_false (hoff _ hk (by omega))
        have hkj : k * sampleStepMs < j * sampleStepMs := by omega
        have hkcount : k < j := Nat.lt_of_mul_lt_mul_right hkj
        refine ⟨instants ++ [k * sampleStepMs, j * sampleStepMs], ?_, fun t ht => ?_, fun t ht => ⟨s, rfl, ?_⟩,
          fun _ => ?_, ?_⟩
        · refine List.pairwise_append.2 ⟨hpair, by simpa using hkj, fun t ht u hu => ?_⟩
          obtain ⟨q, hq, hlt'⟩ := hbelow t ht
          rw [hp] at hq
          cases hq
          rcases List.mem_pair.1 hu with rfl | rfl
          · omega
          · omega
        · rcases List.mem_append.1 ht with ht | ht
          · exact hgrid t ht
          · rcases List.mem_pair.1 ht with rfl | rfl
            · exact mem_grid.2 ⟨k, by omega, rfl⟩
            · exact hxgrid
        · rcases List.mem_append.1 ht with ht | ht
          · obtain ⟨q, hq, hlt'⟩ := hbelow t ht
            rw [hp] at hq
            cases hq
            omega
          · rcases List.mem_pair.1 ht with rfl | rfl
            · omega
            · exact hend
        · simp [hx]
        · rw [List.map_append, moves_append, hlast hne]
          simp [moves, hclose, hmax, hx, hy]

/-- no more transitions are asked of a resource than a sampler of its spans sees -/
theorem coalesced_le_moves (hstep : 1 ≤ sampleStepMs) {spans : List (ℕ × ℕ)} (h : Spans on spans)
    (hsampled : Sampled sampleStepMs count spans) :
    coalesced sampleStepMs spans ≤
      moves false false ((grid sampleStepMs (count + 1)).map fun t => decide (on t)) := by
  obtain ⟨instants, hpair, hgrid, -, -, hfold⟩ := exists_groups hstep spans h hsampled
  unfold coalesced
  rw [hfold]
  exact moves_sublist ((sublist_grid hstep hpair hgrid).map _)

theorem latencyChanges_eq (sampleStepMs last observed : ℕ) (ps : List (ℕ × ℕ)) :
    latencyChanges sampleStepMs last observed ps = moves 0 observed ((lasting sampleStepMs last ps).map Prod.fst) := by
  induction ps generalizing observed with
  | nil => rfl
  | cons p rest ih =>
    unfold latencyChanges lasting
    by_cases hshort : pieceEnd last rest - p.2 ≤ sampleStepMs
    · rw [if_pos hshort, if_pos hshort]
      exact ih observed
    · rw [if_neg hshort, if_neg hshort, ih, List.map_cons, moves]

/-! ## The expectation -/

/-- the latency that the windows put on every link -/
def appliedLatency (entered : List ScheduledFault) (replicas t : ℕ) : ℕ :=
  (Injected.desiredOf entered t replicas).latencyMs

/-- the pieces of the applied latency that last longer than a step -/
def keptPieces (entered : List ScheduledFault) (replicas sampleStepMs : ℕ) : List (ℕ × ℕ) :=
  lasting sampleStepMs ((boundaries entered).getLastD 0)
    (pieces (appliedLatency entered replicas) 0 (boundaries entered))

theorem steady_latency (entered : List ScheduledFault) (replicas : ℕ) :
    (boundaries entered).IsChain (Steady (appliedLatency entered replicas)) :=
  (boundaries_steady entered).imp fun _ _ h =>
    ⟨h.1.1, fun u hu hu' => congrArg Injected.latencyMs (Injected.desiredOf_congr (h.1.2 u hu hu'))⟩

theorem held_latency (entered : List ScheduledFault) (replicas : ℕ) :
    Held (appliedLatency entered replicas) ((boundaries entered).getLastD 0)
      (pieces (appliedLatency entered replicas) 0 (boundaries entered)) := by
  have hchain := steady_latency entered replicas
  cases hb : boundaries entered with
  | nil => trivial
  | cons t₀ ts =>
    rw [hb] at hchain
    rw [List.getLastD_cons]
    exact held_pieces hchain 0

theorem appliedLatency_idle (replicas : ℕ) (h : activeAt entered t = []) : appliedLatency entered replicas t = 0 := by
  unfold appliedLatency
  rw [Injected.desiredOf_idle replicas h]
  rfl

/-- after the last boundary there is no latency -/
theorem appliedLatency_after (replicas : ℕ) (h : (boundaries entered).getLastD 0 ≤ t) :
    appliedLatency entered replicas t = 0 := by
  refine appliedLatency_idle replicas ?_
  rw [List.eq_nil_iff_forall_not_mem]
  intro f hf
  obtain ⟨hmem, -, hend⟩ := mem_activeAt.1 hf
  have hbound := mem_boundaries.2 ⟨f, hmem, .inr rfl⟩
  have hsorted := boundaries_pairwise entered
  cases hb : boundaries entered with
  | nil =>
    rw [hb] at hbound
    cases hbound
  | cons t₀ ts =>
    rw [hb] at hbound hsorted h
    have hlast := le_getLastD_of_pairwise hsorted hbound
    rw [List.getLastD_cons] at h
    omega

/-- before the first piece there is no latency -/
theorem appliedLatency_before (replicas : ℕ)
    (h : t < pieceEnd ((boundaries entered).getLastD 0) (pieces (appliedLatency entered replicas) 0 (boundaries entered))) :
    appliedLatency entered replicas t = 0 := by
  have hchain := steady_latency entered replicas
  have hsorted := boundaries_pairwise entered
  cases hb : boundaries entered with
  | nil =>
    rw [hb] at h
    exact absurd h (Nat.not_lt_zero t)
  | cons t₀ ts =>
    rw [hb] at h hchain hsorted
    rcases Nat.lt_or_ge t t₀ with hbefore | hafter
    · -- no window has opened yet
      refine appliedLatency_idle replicas ?_
      rw [List.eq_nil_iff_forall_not_mem]
      intro f hf
      obtain ⟨hmem, hstart, -⟩ := mem_activeAt.1 hf
      have hbound := mem_boundaries.2 ⟨f, hmem, .inl rfl⟩
      rw [hb] at hbound
      rcases List.mem_cons.1 hbound with heq | hbound
      · omega
      · have hlt := (List.pairwise_cons.1 hsorted).1 _ hbound
        omega
    · rw [List.getLastD_cons, pieces_cons] at h
      by_cases hnew : appliedLatency entered replicas t₀ ≠ 0
      · rw [if_pos hnew] at h
        exact absurd h (not_lt.2 hafter)
      · rw [if_neg hnew] at h
        rw [not_not] at hnew
        obtain ⟨-, hval, -⟩ := held_pieces_from hchain
        rw [hnew] at hval
        exact hval t hafter h

/-- the last latency that was applied for more than a step -/
def settledLatency (entered : List ScheduledFault) (replicas sampleStepMs : ℕ) : ℕ → ℕ :=
  settled (appliedLatency entered replicas) sampleStepMs 0

theorem pieced_latency (entered : List ScheduledFault) (replicas : ℕ) :
    Pieced (appliedLatency entered replicas) 0 ((boundaries entered).getLastD 0)
      (pieces (appliedLatency entered replicas) 0 (boundaries entered)) where
  held := held_latency entered replicas
  values := fun _ hp => pieces_value hp
  chain := (pieces_isChain (appliedLatency entered replicas) 0 (boundaries entered)).tail
  final := by
    rw [pieces_getLastD]
    cases hb : boundaries entered using List.reverseRecOn with
    | nil => rfl
    | append_singleton ts t =>
      rw [List.map_append, List.map_singleton, List.getLastD_concat]
      exact appliedLatency_after replicas (by rw [hb, List.getLastD_concat])
  idle := fun _ ht => appliedLatency_after replicas ht

/-- what is asked of the latency is the moves of the settled latency, up to any instant after the last boundary -/
theorem asked_settled (entered : List ScheduledFault) (replicas : ℕ) {n : ℕ} (hn : (boundaries entered).getLastD 0 < n) :
    moves 0 0 ((keptPieces entered replicas sampleStepMs).map Prod.fst) =
      moves 0 0 ((List.range n).map (settledLatency entered replicas sampleStepMs)) := by
  have hpieced := pieced_latency entered replicas
  have hheld := hpieced.held_later (show (boundaries entered).getLastD 0 ≤
    (boundaries entered).getLastD 0 + sampleStepMs + 1 by omega)
  have hall : (lasting sampleStepMs ((boundaries entered).getLastD 0 + sampleStepMs + 1)
      (pieces (appliedLatency entered replicas) 0 (boundaries entered))).takeWhile (fun p => p.2 < n) =
      lasting sampleStepMs ((boundaries entered).getLastD 0 + sampleStepMs + 1)
        (pieces (appliedLatency entered replicas) 0 (boundaries entered)) := by
    rw [List.takeWhile_eq_self_iff]
    intro p hp
    have hstart := start_of_lasting hheld hp
    exact decide_eq_true (by omega)
  unfold keptPieces settledLatency
  rw [← (hpieced.settled (fun t ht => appliedLatency_before replicas ht) n).2, hall]
  exact moves_lasting_later hpieced.final _

/-- a sampler sees every move of the settled latency up to its last instant -/
theorem settled_le_sampled (entered : List ScheduledFault) (replicas count : ℕ) (hstep : 1 ≤ sampleStepMs) :
    moves 0 0 ((List.range (count * sampleStepMs + 1)).map (settledLatency entered replicas sampleStepMs)) ≤
      moves 0 0 ((grid sampleStepMs (count + 1)).map (appliedLatency entered replicas)) := by
  have hpieced := pieced_latency entered replicas
  have hheld := hpieced.held_later (show (boundaries entered).getLastD 0 ≤
    (boundaries entered).getLastD 0 + sampleStepMs + 1 by omega)
  have hmoves := moves_lasting_le count hstep le_rfl hheld 0 0
  unfold settledLatency
  rw [← (hpieced.settled (fun t ht => appliedLatency_before replicas ht) (count * sampleStepMs + 1)).2]
  simp only [Nat.lt_succ_iff]
  exact hmoves

/-- the expectation does not panic; where every window is sampled, it asks for no more cuts and kills than the sampled
sets have arrivals; and of the latency it asks for the moves of the kept pieces -/
theorem injectionsExpected_spec (schedule : Schedule) (windowsEntered count : ℕ) (hstep : 1 ≤ sampleStepMs)
    (hsampled : ∀ f ∈ schedule.faults.take windowsEntered,
      ∃ j ≤ count, f.startMs ≤ j * sampleStepMs ∧ j * sampleStepMs < f.endMs) :
    ∃ expected, injectionsExpected schedule windowsEntered sampleStepMs = some expected ∧
      expected.cuts ≤ arrivals ∅ ((grid sampleStepMs (count + 1)).map fun t =>
        (Injected.desiredOf (schedule.faults.take windowsEntered) t schedule.config.replicas).cuts) ∧
      expected.kills ≤ arrivals ∅ ((grid sampleStepMs (count + 1)).map fun t =>
        (Injected.desiredOf (schedule.faults.take windowsEntered) t schedule.config.replicas).crashed) ∧
      expected.latencyChanges = moves 0 0
        ((keptPieces (schedule.faults.take windowsEntered) schedule.config.replicas sampleStepMs).map Prod.fst) := by
  have htake : schedule.faults.take (min windowsEntered schedule.faults.length) = schedule.faults.take windowsEntered := by
    rw [List.take_eq_take_iff]
    omega
  obtain ⟨w, hw, hcomplete⟩ := Walk.walk_complete (schedule.faults.take windowsEntered) schedule.config.replicas
  unfold injectionsExpected
  dsimp only
  rw [htake, hw, Option.bind_some, if_pos ⟨hcomplete.cutsClosed, hcomplete.downsClosed⟩]
  refine ⟨_, rfl, ?_, ?_, ?_⟩
  · refine le_trans (Finset.sum_le_sum fun link _ => ?_) (sum_moves_le_arrivals w.cuts.spans.keys ∅ _)
    obtain ⟨hspans, hopens⟩ := hcomplete.cuts link
    rw [List.map_map]
    refine coalesced_le_moves hstep hspans (sampled_of_opens hspans (fun s hs => ?_) hsampled)
    obtain ⟨f, hf, hstart, hsevers⟩ := hopens s hs
    exact ⟨f, hf, hstart, fun t ht ht' =>
      Injected.mem_cuts_desiredOf.2 ⟨f, mem_activeAt.2 ⟨hf, ht, ht'⟩, hsevers⟩⟩
  · refine le_trans (Finset.sum_le_sum fun node _ => ?_) (sum_moves_le_arrivals w.downs.spans.keys ∅ _)
    obtain ⟨hspans, hopens⟩ := hcomplete.downs node
    rw [List.map_map]
    refine coalesced_le_moves hstep hspans (sampled_of_opens hspans (fun s hs => ?_) hsampled)
    obtain ⟨f, hf, hstart, hcrash⟩ := hopens s hs
    exact ⟨f, hf, hstart, fun t ht ht' =>
      Injected.mem_crashed_desiredOf.2 ⟨f, mem_activeAt.2 ⟨hf, ht, ht'⟩, hcrash⟩⟩
  · dsimp only
    rw [latencyChanges_eq, hcomplete.latency]
    rfl

end Queso.Soak
