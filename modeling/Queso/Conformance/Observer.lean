/-
The divergence observer: what it makes of the samples it is shown.

A sample says that a replica was seen at a chain state. The observer keeps, for each height, the first replica seen there
and the hash it showed, and compares every later sample of another replica at that height with it. A sample of the first
replica itself is compared with nothing.

Results, over every list of samples:
- `observe_sound`: a divergence names two samples of different replicas at one height with different hashes.
- `divergences_nodup`: there is at most one divergence for a height and a replica.
- `divergences_ne_nil_iff`: there is one iff some sample of another replica disagrees with the first at its height.
- `divergences_complete_iff`: when the absence of a divergence says what it should.
Witness:
- `divergence_missed`: a replica shows two hashes at one height and another replica shows the first of them. The second
  hash and the other replica are in conflict, and nothing is recorded.
-/
import Queso.Chain.State
import Queso.Sim.World
import Mathlib.Data.List.AList
import Mathlib.Data.List.Sort

namespace Queso

open Chain

/-- a replica seen at a chain state, at a time of the caller's clock -/
structure Sample where
  replica : NodeId
  observedAt : ℕ
  state : ChainState
  commandDigest : Option UInt64
deriving DecidableEq, Repr

/-- two replicas showed different hashes at one height -/
structure Divergence where
  n : ℕ
  first : NodeId × BlockHash
  other : NodeId × BlockHash
  observedAt : ℕ
deriving DecidableEq, Repr

structure ReplicaView where
  latest : ChainState
  firstSeenAt : ℕ
  lastProgressAt : ℕ
  transitions : List Transition
  transitionsTruncated : Bool
deriving DecidableEq, Repr

structure Observer where
  /-- the first replica seen at a height, and the hash it showed -/
  witnesses : AList fun _ : ℕ => NodeId × BlockHash
  replicas : AList fun _ : NodeId => ReplicaView
  /-- by the height and the replica that disagreed -/
  divergenceMap : AList fun _ : ℕ × NodeId => Divergence
  comparisons : ℕ
  samples : ℕ
  transitionCap : ℕ

/-! ## What a replica has shown -/

namespace ReplicaView

def new (sample : Sample) : ReplicaView := ⟨sample.state, sample.observedAt, sample.observedAt, [], false⟩

def push (cap : ℕ) (t : Transition) (view : ReplicaView) : ReplicaView :=
  if view.transitions.length = cap then
    { view with transitions := view.transitions.tail ++ [t], transitionsTruncated := true }
  else
    { view with transitions := view.transitions ++ [t] }

/-- a transition is kept only for the immediate successor of the latest state, and only with the command's digest -/
def see (cap : ℕ) (sample : Sample) (view : ReplicaView) : ReplicaView :=
  if view.latest.n < sample.state.n then
    let kept := match sample.commandDigest with
      | some digest =>
        if sample.state.n = view.latest.n + 1 then view.push cap ⟨view.latest, sample.state, digest⟩ else view
      | none => view
    { kept with latest := sample.state, lastProgressAt := sample.observedAt }
  else view

end ReplicaView

/-! ## The observer -/

namespace Observer

def new : Observer := ⟨∅, ∅, ∅, 0, 0, 4096⟩

def withTransitionCap (cap : ℕ) (o : Observer) : Observer := { o with transitionCap := cap }

/-- only another replica's hash is compared; the first disagreement of a replica at a height is the one kept -/
def check (o : Observer) (sample : Sample) : Observer :=
  match o.witnesses.lookup sample.state.n with
  | none => { o with witnesses := o.witnesses.insert sample.state.n (sample.replica, sample.state.h) }
  | some witness =>
    if witness.1 = sample.replica then o
    else if witness.2 = sample.state.h then { o with comparisons := o.comparisons + 1 }
    else
      let key := (sample.state.n, sample.replica)
      let d : Divergence := ⟨sample.state.n, witness, (sample.replica, sample.state.h), sample.observedAt⟩
      { o with
        comparisons := o.comparisons + 1
        divergenceMap := if key ∈ o.divergenceMap then o.divergenceMap else o.divergenceMap.insert key d }

def observe (o : Observer) (sample : Sample) : Observer :=
  let o := check { o with samples := o.samples + 1 } sample
  let view := (o.replicas.lookup sample.replica).getD (ReplicaView.new sample)
  { o with replicas := o.replicas.insert sample.replica (view.see o.transitionCap sample) }

/-- the observer after the samples, in the order they arrive -/
def observeAll (samples : List Sample) : Observer := samples.foldl observe new

/-- the order of the map's keys: by the height, then by the replica -/
def before (a b : Σ _ : ℕ × NodeId, Divergence) : Prop := toLex a.1 ≤ toLex b.1

instance : DecidableRel before := fun a b => inferInstanceAs (Decidable (toLex a.1 ≤ toLex b.1))

def divergences (o : Observer) : List Divergence := (o.divergenceMap.entries.insertionSort before).map Sigma.snd

/-! ## What is recorded -/

/-- the first sample at height `n` -/
def firstAt (samples : List Sample) (n : ℕ) : Option Sample := samples.find? fun s => s.state.n = n

/-- what a sample is recorded as under `key`, if it disagrees with the first sample at its height -/
def dissent (samples : List Sample) (key : ℕ × NodeId) (s : Sample) : Option Divergence :=
  if (s.state.n, s.replica) = key then
    match firstAt samples s.state.n with
    | some w =>
      if w.replica ≠ s.replica ∧ w.state.h ≠ s.state.h then
        some ⟨s.state.n, (w.replica, w.state.h), (s.replica, s.state.h), s.observedAt⟩
      else none
    | none => none
  else none

theorem observeAll_snoc (samples : List Sample) (s : Sample) :
    observeAll (samples ++ [s]) = (observeAll samples).observe s := by
  simp [observeAll]

theorem firstAt_snoc (samples : List Sample) (s : Sample) (n : ℕ) :
    firstAt (samples ++ [s]) n = (firstAt samples n).or (if s.state.n = n then some s else none) := by
  by_cases h : s.state.n = n <;> simp [firstAt, List.find?_append, h]

theorem firstAt_isSome {samples : List Sample} {s : Sample} (hs : s ∈ samples) :
    (firstAt samples s.state.n).isSome := by
  rw [firstAt, List.find?_isSome]
  exact ⟨s, hs, decide_eq_true rfl⟩

theorem firstAt_mem {samples : List Sample} {n : ℕ} {w : Sample} (h : firstAt samples n = some w) :
    w ∈ samples ∧ w.state.n = n :=
  ⟨List.mem_of_find?_eq_some h, by simpa using List.find?_some h⟩

theorem dissent_eq_some {samples : List Sample} {key : ℕ × NodeId} {s : Sample} {d : Divergence} :
    dissent samples key s = some d ↔ (s.state.n, s.replica) = key ∧ ∃ w, firstAt samples s.state.n = some w ∧
      w.replica ≠ s.replica ∧ w.state.h ≠ s.state.h ∧
      d = ⟨s.state.n, (w.replica, w.state.h), (s.replica, s.state.h), s.observedAt⟩ := by
  unfold dissent
  cases firstAt samples s.state.n with
  | none => simp
  | some w => grind

/-- the first sample at the height of an old sample is an old one -/
theorem dissent_snoc {samples : List Sample} {s : Sample} (hs : s ∈ samples) (t : Sample) (key : ℕ × NodeId) :
    dissent (samples ++ [t]) key s = dissent samples key s := by
  obtain ⟨w, hw⟩ := Option.isSome_iff_exists.1 (firstAt_isSome hs)
  unfold dissent
  rw [firstAt_snoc, hw, Option.some_or]

theorem check_witnesses (s : Sample) (o : Observer) (n : ℕ) :
    (o.check s).witnesses.lookup n =
      (o.witnesses.lookup n).or (if s.state.n = n then some (s.replica, s.state.h) else none) := by
  unfold check
  split
  case h_1 h =>
    by_cases hn : s.state.n = n
    · subst hn
      rw [h, AList.lookup_insert, if_pos rfl, Option.none_or]
    · rw [AList.lookup_insert_ne (Ne.symm hn), if_neg hn, Option.or_none]
  case h_2 w h =>
    have hold : o.witnesses.lookup n =
        (o.witnesses.lookup n).or (if s.state.n = n then some (s.replica, s.state.h) else none) := by
      by_cases hn : s.state.n = n
      · subst hn
        rw [h, Option.some_or]
      · rw [if_neg hn, Option.or_none]
    rw [← hold]
    split_ifs <;> rfl

/-- what the observer adds for a sample under `key` -/
def added (o : Observer) (s : Sample) (key : ℕ × NodeId) : Option Divergence :=
  if (s.state.n, s.replica) = key then
    match o.witnesses.lookup s.state.n with
    | some w =>
      if w.1 ≠ s.replica ∧ w.2 ≠ s.state.h then some ⟨s.state.n, w, (s.replica, s.state.h), s.observedAt⟩ else none
    | none => none
  else none

theorem check_divergenceMap (s : Sample) (o : Observer) (key : ℕ × NodeId) :
    (o.check s).divergenceMap.lookup key = (o.divergenceMap.lookup key).or (o.added s key) := by
  unfold check added
  split
  case h_1 h => simp [h]
  case h_2 w h =>
    by_cases hw : w.1 = s.replica
    · simp [hw, h]
    by_cases hh : w.2 = s.state.h
    · simp [hw, hh, h]
    rw [if_neg hw, if_neg hh, h]
    by_cases hkey : (s.state.n, s.replica) = key
    · subst hkey
      by_cases hmem : (s.state.n, s.replica) ∈ o.divergenceMap
      · obtain ⟨d, hd⟩ := Option.isSome_iff_exists.1 (AList.lookup_isSome.2 hmem)
        simp [hmem, hd]
      · simp [hmem, AList.lookup_eq_none.2 hmem, hw, hh]
    · rw [if_neg hkey, Option.or_none]
      by_cases hmem : (s.state.n, s.replica) ∈ o.divergenceMap
      · simp [hmem]
      · simp [hmem, AList.lookup_insert_ne (Ne.symm hkey)]

theorem findSome?_dissent (samples : List Sample) (t : Sample) (key : ℕ × NodeId) :
    samples.findSome? (dissent (samples ++ [t]) key) = samples.findSome? (dissent samples key) := by
  suffices h : ∀ l : List Sample, (∀ s ∈ l, s ∈ samples) →
      l.findSome? (dissent (samples ++ [t]) key) = l.findSome? (dissent samples key) from h samples fun _ hs => hs
  intro l hl
  induction l with
  | nil => rfl
  | cons s l ih =>
    rw [List.findSome?_cons, List.findSome?_cons, dissent_snoc (hl s (List.mem_cons_self ..)),
      ih fun u hu => hl u (List.mem_cons_of_mem _ hu)]

theorem witnesses_lookup (samples : List Sample) (n : ℕ) :
    (observeAll samples).witnesses.lookup n = (firstAt samples n).map fun w => (w.replica, w.state.h) := by
  induction samples using List.reverseRecOn with
  | nil => rfl
  | append_singleton samples s ih =>
    have hstep : (observeAll (samples ++ [s])).witnesses.lookup n =
        ((observeAll samples).witnesses.lookup n).or (if s.state.n = n then some (s.replica, s.state.h) else none) := by
      rw [observeAll_snoc]
      exact check_witnesses s _ n
    rw [hstep, ih, firstAt_snoc]
    cases firstAt samples n with
    | some w => rfl
    | none => by_cases hn : s.state.n = n <;> simp [hn]

/-- what is added for a new sample is its dissent from the samples up to it -/
theorem added_eq_dissent (samples : List Sample) (s : Sample) (key : ℕ × NodeId) :
    (observeAll samples).added s key = dissent (samples ++ [s]) key s := by
  unfold added dissent
  rw [witnesses_lookup, firstAt_snoc, if_pos rfl]
  cases firstAt samples s.state.n with
  | some w => rfl
  | none => simp

theorem divergenceMap_lookup (samples : List Sample) (key : ℕ × NodeId) :
    (observeAll samples).divergenceMap.lookup key = samples.findSome? (dissent samples key) := by
  induction samples using List.reverseRecOn with
  | nil => rfl
  | append_singleton samples s ih =>
    have hstep : (observeAll (samples ++ [s])).divergenceMap.lookup key =
        ((observeAll samples).divergenceMap.lookup key).or ((observeAll samples).added s key) := by
      rw [observeAll_snoc]
      exact check_divergenceMap s _ key
    rw [hstep, ih, added_eq_dissent, List.findSome?_append, findSome?_dissent, List.findSome?_singleton]

/-! ## The verdict -/

/-- two samples of different replicas at one height with different hashes -/
def Conflict (s t : Sample) : Prop := s.replica ≠ t.replica ∧ s.state.n = t.state.n ∧ s.state.h ≠ t.state.h

/-- the record names two samples in conflict -/
def Named (samples : List Sample) (d : Divergence) : Prop :=
  ∃ w ∈ samples, ∃ s ∈ samples, Conflict w s ∧ s.state.n = d.n ∧
    d.first = (w.replica, w.state.h) ∧ d.other = (s.replica, s.state.h)

theorem mem_divergences {samples : List Sample} {d : Divergence} :
    d ∈ (observeAll samples).divergences ↔
      ∃ key, (observeAll samples).divergenceMap.lookup key = some d := by
  unfold divergences
  rw [List.mem_map]
  refine ⟨fun ⟨e, he, hd⟩ => ⟨e.1, ?_⟩, fun ⟨key, h⟩ => ⟨⟨key, d⟩, ?_, rfl⟩⟩
  · rw [AList.lookup, ← hd]
    exact List.mem_dlookup (AList.nodupKeys _) ((List.mem_insertionSort _).1 he)
  · exact (List.mem_insertionSort _).2 (List.of_mem_dlookup h)

/-- a divergence is recorded under its own height and the replica that disagreed -/
theorem lookup_key {samples : List Sample} {key : ℕ × NodeId} {d : Divergence}
    (h : (observeAll samples).divergenceMap.lookup key = some d) : key = (d.n, d.other.1) := by
  rw [divergenceMap_lookup] at h
  obtain ⟨s, -, hs⟩ := List.exists_of_findSome?_eq_some h
  obtain ⟨hkey, w, -, -, -, rfl⟩ := dissent_eq_some.1 hs
  exact hkey.symm

/-- a divergence comes of a sample that disagrees with the first one at its height -/
theorem divergence_source {samples : List Sample} {d : Divergence} (h : d ∈ (observeAll samples).divergences) :
    ∃ s ∈ samples, ∃ w, firstAt samples s.state.n = some w ∧ w.replica ≠ s.replica ∧ w.state.h ≠ s.state.h ∧
      d = ⟨s.state.n, (w.replica, w.state.h), (s.replica, s.state.h), s.observedAt⟩ := by
  obtain ⟨key, hkey⟩ := mem_divergences.1 h
  rw [divergenceMap_lookup] at hkey
  obtain ⟨s, hs, hd⟩ := List.exists_of_findSome?_eq_some hkey
  obtain ⟨-, w, hw⟩ := dissent_eq_some.1 hd
  exact ⟨s, hs, w, hw⟩

/-- a divergence names two samples in conflict, the first at its height and one of the replica that disagreed -/
theorem observe_sound {samples : List Sample} {d : Divergence} (h : d ∈ (observeAll samples).divergences) :
    Named samples d := by
  obtain ⟨s, hs, w, hw, hr, hh, rfl⟩ := divergence_source h
  have hfirst := firstAt_mem hw
  exact ⟨w, hfirst.1, s, hs, ⟨hr, hfirst.2, hh⟩, rfl, rfl, rfl⟩

/-- one divergence for a height and a replica -/
theorem divergences_nodup (samples : List Sample) :
    ((observeAll samples).divergences.map fun d => (d.n, d.other.1)).Nodup := by
  have hkey : ∀ e ∈ (observeAll samples).divergenceMap.entries.insertionSort before,
      ((fun d : Divergence => (d.n, d.other.1)) ∘ Sigma.snd) e = e.1 := by
    intro e he
    have hl := List.mem_dlookup (AList.nodupKeys _) ((List.mem_insertionSort _).1 he)
    exact (lookup_key hl).symm
  have hperm := (List.perm_insertionSort before (observeAll samples).divergenceMap.entries).map Sigma.fst
  rw [divergences, List.map_map, List.map_congr_left hkey]
  exact hperm.nodup_iff.2 (observeAll samples).divergenceMap.nodupKeys

/-- some sample disagrees with the first one at its height, which another replica showed -/
def Disputed (samples : List Sample) : Prop :=
  ∃ s ∈ samples, ∃ w, firstAt samples s.state.n = some w ∧ w.replica ≠ s.replica ∧ w.state.h ≠ s.state.h

theorem divergences_ne_nil_iff (samples : List Sample) :
    (observeAll samples).divergences ≠ [] ↔ Disputed samples := by
  constructor
  · intro h
    obtain ⟨d, hd⟩ := List.exists_mem_of_ne_nil _ h
    obtain ⟨s, hs, w, hw, hr, hh, -⟩ := divergence_source hd
    exact ⟨s, hs, w, hw, hr, hh⟩
  · rintro ⟨s, hs, w, hw, hr, hh⟩
    have hsome : (samples.findSome? (dissent samples (s.state.n, s.replica))).isSome :=
      List.findSome?_isSome_iff.2 ⟨s, hs, Option.isSome_iff_exists.2 ⟨_, dissent_eq_some.2 ⟨rfl, w, hw, hr, hh, rfl⟩⟩⟩
    obtain ⟨d, hd⟩ := Option.isSome_iff_exists.1 hsome
    exact List.ne_nil_of_mem (mem_divergences.2 ⟨_, (divergenceMap_lookup samples _).trans hd⟩)

/-- the first replica seen at some height shows another hash there, and another replica is seen there -/
def Retracted (samples : List Sample) : Prop :=
  ∃ s ∈ samples, ∃ t ∈ samples, ∃ w, firstAt samples s.state.n = some w ∧ s.replica = w.replica ∧
    s.state.h ≠ w.state.h ∧ t.state.n = s.state.n ∧ t.replica ≠ w.replica

/-- a conflict is seen unless the first replica at its height has gone back on what it showed -/
theorem disputed_or_retracted {samples : List Sample} {s t : Sample} (hs : s ∈ samples) (ht : t ∈ samples)
    (h : Conflict s t) : Disputed samples ∨ Retracted samples := by
  obtain ⟨w, hw⟩ := Option.isSome_iff_exists.1 (firstAt_isSome hs)
  have hwt : firstAt samples t.state.n = some w := by rw [← h.2.1]; exact hw
  by_cases hd : Disputed samples
  · exact .inl hd
  right
  have hagree : ∀ u ∈ samples, firstAt samples u.state.n = some w → u.replica ≠ w.replica →
      u.state.h = w.state.h := by
    intro u hu huw hr
    by_contra hh
    exact hd ⟨u, hu, w, huw, Ne.symm hr, Ne.symm hh⟩
  by_cases hsw : s.replica = w.replica
  · have htw : t.replica ≠ w.replica := fun e => h.1 (hsw.trans e.symm)
    have hth : t.state.h = w.state.h := hagree t ht hwt htw
    exact ⟨s, hs, t, ht, w, hw, hsw, fun e => h.2.2 (e.trans hth.symm), h.2.1.symm, htw⟩
  · have hsh : s.state.h = w.state.h := hagree s hs hw hsw
    have hth : t.state.h ≠ w.state.h := fun e => h.2.2 (hsh.trans e.symm)
    have htw : t.replica = w.replica := by
      by_contra e
      exact hth (hagree t ht hwt e)
    exact ⟨t, ht, s, hs, w, hwt, htw, hth, h.2.1, hsw⟩

/-- what a replica retracts is in conflict with the other replica, or the first hash is -/
theorem Retracted.conflict {samples : List Sample} (h : Retracted samples) :
    ∃ s ∈ samples, ∃ t ∈ samples, Conflict s t := by
  obtain ⟨s, hs, t, ht, w, hw, hsr, hsh, htn, htr⟩ := h
  have hfirst := firstAt_mem hw
  by_cases hth : t.state.h = s.state.h
  · exact ⟨w, hfirst.1, t, ht, Ne.symm htr, hfirst.2.trans htn.symm, fun e => hsh (hth.symm.trans e.symm)⟩
  · exact ⟨s, hs, t, ht, fun e => htr (e.symm.trans hsr), htn.symm, Ne.symm hth⟩

/-- the verdict is right iff a sample disagrees with the first at its height or no replica has retracted a first one -/
theorem divergences_complete_iff (samples : List Sample) :
    (((observeAll samples).divergences ≠ [] ↔ ∃ s ∈ samples, ∃ t ∈ samples, Conflict s t) ∧
      (∀ d ∈ (observeAll samples).divergences, Named samples d) ∧
      ((observeAll samples).divergences.map fun d => (d.n, d.other.1)).Nodup) ↔
    (Disputed samples ∨ ¬ Retracted samples) := by
  constructor
  · rintro ⟨hverdict, -, -⟩
    by_cases hr : Retracted samples
    · exact .inl ((divergences_ne_nil_iff samples).1 (hverdict.2 hr.conflict))
    · exact .inr hr
  · intro h
    refine ⟨⟨fun hne => ?_, fun hc => ?_⟩, fun d hd => observe_sound hd, divergences_nodup samples⟩
    · obtain ⟨d, hd⟩ := List.exists_mem_of_ne_nil _ hne
      obtain ⟨w, hw, s, hs, hc, -⟩ := observe_sound hd
      exact ⟨w, hw, s, hs, hc⟩
    · obtain ⟨s, hs, t, ht, hst⟩ := hc
      rw [divergences_ne_nil_iff]
      rcases disputed_or_retracted hs ht hst with hd | hr
      · exact hd
      · exact h.resolve_right (not_not_intro hr)

/-- replica 0 shows two hashes at height 1 and replica 1 the first of them: a conflict, and no divergence -/
theorem divergence_missed :
    ∃ samples : List Sample, (∃ s ∈ samples, ∃ t ∈ samples, Conflict s t) ∧
      (observeAll samples).divergences = [] :=
  ⟨[⟨0, 1, ⟨1, 5⟩, none⟩, ⟨0, 2, ⟨1, 6⟩, none⟩, ⟨1, 3, ⟨1, 5⟩, none⟩],
    ⟨⟨0, 2, ⟨1, 6⟩, none⟩, by decide, ⟨1, 3, ⟨1, 5⟩, none⟩, by decide, by decide, rfl, by decide⟩, by decide⟩

end Observer

end Queso
