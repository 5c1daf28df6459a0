/-
What the observer's verdicts say, over any samples and over samples that are true of some logs.

A sample is true of a log if its state is the chain state of a first part of the log. Over such samples a replica never goes
back on what it showed, so a divergence is reported at a height exactly when two replicas showed different hashes there,
and each that is reported is one between the logs (`Truthful`).

The liveness verdict goes by the view of each replica: its highest state and the time when that was first seen (`Peak`).

- `Truthful.conflict_reported`, `Truthful.real`, `Truthful.quiet`: the safety verdict.
- `stalls_exact`: the liveness verdict, and how much looking the safety verdict rests on.
-/
import Queso.Conformance.Observer

namespace Queso

open Chain

/-- a replica that is behind and has not come further for longer than the budget -/
structure Stall where
  replica : NodeId
  stuckAt : ChainState
  lastProgressAt : ℕ
  now : ℕ
  clusterFrontier : ℕ
deriving DecidableEq, Repr

namespace Observer

/-- the greatest height that a replica was seen at -/
def clusterFrontier (o : Observer) : ℕ := (o.replicas.entries.map fun e => e.2.latest.n).max?.getD 0

/-- the order of the map's keys -/
def byReplica (a b : Σ _ : NodeId, ReplicaView) : Prop := a.1 ≤ b.1

instance : DecidableRel byReplica := fun a b => inferInstanceAs (Decidable (a.1 ≤ b.1))

def stalls (o : Observer) (now budget : ℕ) : List Stall :=
  let frontier := o.clusterFrontier
  ((o.replicas.entries.insertionSort byReplica).filter fun e =>
    decide (e.2.latest.n < frontier) && decide (budget < now - e.2.lastProgressAt)).map fun e =>
      ⟨e.1, e.2.latest, e.2.lastProgressAt, now, frontier⟩

/-! ## Samples that are true of logs -/

/-- every sample is the chain state of a first part of the log of its replica -/
def Truthful (logOf : NodeId → List Command) (samples : List Sample) : Prop :=
  ∀ s ∈ samples, ∃ part, part <+: logOf s.replica ∧ s.state = .fromLog part

section Truthful

variable {logOf : NodeId → List Command} {samples : List Sample}

/-- samples of one replica at one height show one state -/
theorem Truthful.consistent (h : Truthful logOf samples) {s t : Sample} (hs : s ∈ samples) (ht : t ∈ samples)
    (hr : s.replica = t.replica) (hn : s.state.n = t.state.n) : s.state = t.state := by
  obtain ⟨part, hpart, hstate⟩ := h s hs
  obtain ⟨part', hpart', hstate'⟩ := h t ht
  rw [hstate, hstate', ChainState.fromLog_n, ChainState.fromLog_n] at hn
  have hsame : part = part' :=
    (List.prefix_of_prefix_length_le hpart (hr ▸ hpart') hn.le).eq_of_length hn
  rw [hstate, hstate', hsame]

/-- a sample that disagrees with the first one at its height is reported there -/
theorem reported_at {s w : Sample} (hs : s ∈ samples) (hw : firstAt samples s.state.n = some w)
    (hr : w.replica ≠ s.replica) (hh : w.state.h ≠ s.state.h) :
    ∃ a ∈ (observeAll samples).divergences, a.n = s.state.n := by
  have hsome : (samples.findSome? (dissent samples (s.state.n, s.replica))).isSome :=
    List.findSome?_isSome_iff.2 ⟨s, hs, Option.isSome_iff_exists.2 ⟨_, dissent_eq_some.2 ⟨rfl, w, hw, hr, hh, rfl⟩⟩⟩
  obtain ⟨a, ha⟩ := Option.isSome_iff_exists.1 hsome
  have hlookup := (divergenceMap_lookup samples _).trans ha
  exact ⟨a, mem_divergences.2 ⟨_, hlookup⟩, (congrArg Prod.fst (lookup_key hlookup)).symm⟩

/-- a conflict is reported at its height: one of the two disagrees with the first sample there -/
theorem Truthful.conflict_reported (h : Truthful logOf samples) {s t : Sample} (hs : s ∈ samples) (ht : t ∈ samples)
    (hst : Conflict s t) : ∃ a ∈ (observeAll samples).divergences, a.n = s.state.n := by
  obtain ⟨w, hw⟩ := Option.isSome_iff_exists.1 (firstAt_isSome hs)
  have hfirst := firstAt_mem hw
  have hreport : ∀ x ∈ samples, x.state.n = s.state.n → x.state.h ≠ w.state.h →
      ∃ a ∈ (observeAll samples).divergences, a.n = s.state.n := by
    intro x hx hn hh
    have hr : w.replica ≠ x.replica := fun hr =>
      hh (congrArg ChainState.h (h.consistent hfirst.1 hx hr (hfirst.2.trans hn.symm))).symm
    obtain ⟨a, ha, hat⟩ := reported_at hx (by rw [hn]; exact hw) hr (Ne.symm hh)
    exact ⟨a, ha, hat.trans hn⟩
  by_cases hsw : s.state.h = w.state.h
  · exact hreport t ht hst.2.1.symm fun htw => hst.2.2 (hsw.trans htw.symm)
  · exact hreport s hs rfl hsw

/-- a divergence is reported iff two samples are in conflict -/
theorem Truthful.reported_iff (h : Truthful logOf samples) :
    (observeAll samples).divergences ≠ [] ↔ ∃ s ∈ samples, ∃ t ∈ samples, Conflict s t := by
  refine ⟨fun hne => ?_, fun ⟨s, hs, t, ht, hst⟩ => ?_⟩
  · obtain ⟨a, ha⟩ := List.exists_mem_of_ne_nil _ hne
    obtain ⟨w, hw, s, hs, hws, -⟩ := observe_sound ha
    exact ⟨w, hw, s, hs, hws⟩
  · obtain ⟨a, ha, -⟩ := h.conflict_reported hs ht hst
    exact List.ne_nil_of_mem ha

/-- a divergence that is reported is one between the logs -/
theorem Truthful.real (h : Truthful logOf samples) {a : Divergence} (ha : a ∈ (observeAll samples).divergences) :
    a.n ≤ (logOf a.first.1).length ∧ a.n ≤ (logOf a.other.1).length ∧
      (logOf a.first.1).take a.n ≠ (logOf a.other.1).take a.n := by
  obtain ⟨w, hw, s, hs, ⟨-, hn, hh⟩, hat, hfirst, hother⟩ := observe_sound ha
  obtain ⟨part, hpart, hstate⟩ := h w hw
  obtain ⟨part', hpart', hstate'⟩ := h s hs
  rw [hfirst, hother]
  rw [hat] at hn
  rw [hstate, ChainState.fromLog_n] at hn
  rw [hstate', ChainState.fromLog_n] at hat
  refine ⟨hn ▸ hpart.length_le, hat ▸ hpart'.length_le, fun hsame => ?_⟩
  have hleft : (logOf w.replica).take a.n = part := by rw [← hn]; exact (List.prefix_iff_eq_take.1 hpart).symm
  have hright : (logOf s.replica).take a.n = part' := by rw [← hat]; exact (List.prefix_iff_eq_take.1 hpart').symm
  rw [hleft, hright] at hsame
  rw [hstate, hstate', hsame] at hh
  exact hh rfl

/-- nothing is reported of logs that agree as far as both go -/
theorem Truthful.quiet (h : Truthful logOf samples) (hagree : ∀ i j n, n ≤ (logOf i).length → n ≤ (logOf j).length →
    (logOf i).take n = (logOf j).take n) : (observeAll samples).divergences = [] := by
  apply List.eq_nil_iff_forall_not_mem.2
  intro a ha
  obtain ⟨hfirst, hother, hne⟩ := h.real ha
  exact hne (hagree _ _ _ hfirst hother)

end Truthful

/-! ## The views of the replicas -/

/-- the view of a replica after its samples -/
def viewed (cap : ℕ) (samples : List Sample) : Option ReplicaView :=
  samples.foldl (fun view s => some ((view.getD (.new s)).see cap s)) none

theorem viewed_snoc (cap : ℕ) (samples : List Sample) (s : Sample) :
    viewed cap (samples ++ [s]) = some (((viewed cap samples).getD (.new s)).see cap s) := by
  simp [viewed, List.foldl_append]

theorem check_replicas (o : Observer) (s : Sample) :
    (o.check s).replicas = o.replicas ∧ (o.check s).transitionCap = o.transitionCap := by
  unfold check
  split
  · exact ⟨rfl, rfl⟩
  · split_ifs <;> exact ⟨rfl, rfl⟩

theorem observeAll_cap (samples : List Sample) : (observeAll samples).transitionCap = 4096 := by
  induction samples using List.reverseRecOn with
  | nil => rfl
  | append_singleton samples s ih =>
    rw [observeAll_snoc]
    exact (check_replicas _ s).2.trans ih

/-- a replica's view goes by its own samples -/
theorem replicas_lookup (samples : List Sample) (i : NodeId) :
    (observeAll samples).replicas.lookup i = viewed 4096 (samples.filter fun s => s.replica == i) := by
  induction samples using List.reverseRecOn with
  | nil => rfl
  | append_singleton samples s ih =>
    have hcheck := check_replicas { observeAll samples with samples := (observeAll samples).samples + 1 } s
    have hcap := hcheck.2.trans (observeAll_cap samples)
    rw [observeAll_snoc, observe]
    dsimp only
    rw [hcheck.1, hcap, List.filter_append]
    by_cases hi : s.replica = i
    · subst hi
      rw [AList.lookup_insert, List.filter_cons_of_pos (by simp), List.filter_nil, viewed_snoc, ← ih]
    · rw [AList.lookup_insert_ne (Ne.symm hi), ih]
      simp [hi]

/-- `x` is the first of the samples that are highest -/
def Peak (samples : List Sample) (x : Sample) : Prop :=
  ∃ pre post, samples = pre ++ x :: post ∧ (∀ y ∈ pre, y.state.n < x.state.n) ∧ ∀ y ∈ post, y.state.n ≤ x.state.n

theorem Peak.le {samples : List Sample} {x : Sample} (h : Peak samples x) {y : Sample} (hy : y ∈ samples) :
    y.state.n ≤ x.state.n := by
  obtain ⟨pre, post, rfl, hpre, hpost⟩ := h
  rcases List.mem_append.1 hy with hy | hy
  · exact (hpre y hy).le
  · rcases List.mem_cons.1 hy with rfl | hy
    · exact le_rfl
    · exact hpost y hy

theorem Peak.mem {samples : List Sample} {x : Sample} (h : Peak samples x) : x ∈ samples := by
  obtain ⟨pre, post, rfl, -⟩ := h
  simp

/-- there is one peak -/
theorem Peak.unique {samples : List Sample} {x y : Sample} (hx : Peak samples x) (hy : Peak samples y) : x = y := by
  have hn : x.state.n = y.state.n := le_antisymm (hy.le hx.mem) (hx.le hy.mem)
  obtain ⟨pre, post, rfl, hpre, hpost⟩ := hx
  obtain ⟨pre', post', heq, hpre', hpost'⟩ := hy
  rcases List.append_eq_append_iff.1 heq with ⟨mid, hmid, hrest⟩ | ⟨mid, hmid, hrest⟩
  · cases mid with
    | nil => exact (List.cons.inj hrest).1
    | cons z mid =>
      obtain ⟨rfl, -⟩ := List.cons.inj hrest
      exact absurd hn (hpre' x (by rw [hmid]; simp)).ne
  · cases mid with
    | nil => exact (List.cons.inj hrest).1.symm
    | cons z mid =>
      obtain ⟨rfl, -⟩ := List.cons.inj hrest
      exact absurd hn.symm (hpre y (by rw [hmid]; simp)).ne

theorem see_latest (cap : ℕ) (s : Sample) (view : ReplicaView) :
    (view.see cap s).latest = (if view.latest.n < s.state.n then s.state else view.latest) ∧
      (view.see cap s).lastProgressAt = (if view.latest.n < s.state.n then s.observedAt else view.lastProgressAt) := by
  unfold ReplicaView.see
  split_ifs <;> exact ⟨rfl, rfl⟩

/-- a view is at the first of the highest samples -/
theorem viewed_peak (cap : ℕ) (samples : List Sample) :
    (viewed cap samples = none ↔ samples = []) ∧ ∀ view, viewed cap samples = some view →
      ∃ x, Peak samples x ∧ view.latest = x.state ∧ view.lastProgressAt = x.observedAt := by
  induction samples using List.reverseRecOn with
  | nil => exact ⟨by simp [viewed], fun view h => absurd h (by simp [viewed])⟩
  | append_singleton samples s ih =>
    rw [viewed_snoc]
    refine ⟨by simp, fun view h => ?_⟩
    obtain rfl := Option.some.inj h
    obtain ⟨hlatest, hprogress⟩ := see_latest cap s ((viewed cap samples).getD (.new s))
    rw [hlatest, hprogress]
    cases hv : viewed cap samples with
    | none =>
      obtain rfl := ih.1.1 hv
      refine ⟨s, ⟨[], [], rfl, by simp, by simp⟩, ?_, ?_⟩
      · simp [ReplicaView.new]
      · simp [ReplicaView.new]
    | some view =>
      obtain ⟨x, ⟨pre, post, rfl, hpre, hpost⟩, hstate, htime⟩ := ih.2 view hv
      rw [Option.getD_some, hstate, htime]
      split_ifs with hpast
      · refine ⟨s, ⟨pre ++ x :: post, [], rfl, fun y hy => ?_, by simp⟩, rfl, rfl⟩
        exact ((Peak.le ⟨pre, post, rfl, hpre, hpost⟩) hy).trans_lt hpast
      · refine ⟨x, ⟨pre, post ++ [s], by simp, hpre, fun y hy => ?_⟩, rfl, rfl⟩
        rcases List.mem_append.1 hy with hy | hy
        · exact hpost y hy
        · rw [List.mem_singleton.1 hy]
          exact not_lt.1 hpast

/-- a view of the map is at a peak of its replica -/
theorem entry_peak {samples : List Sample} {e : Σ _ : NodeId, ReplicaView} :
    e ∈ (observeAll samples).replicas.entries → ∃ x, Peak (samples.filter fun s => s.replica == e.1) x ∧
      e.2.latest = x.state ∧ e.2.lastProgressAt = x.observedAt := by
  intro he
  have hlookup : (observeAll samples).replicas.lookup e.1 = some e.2 := List.mem_dlookup (AList.nodupKeys _) he
  rw [replicas_lookup] at hlookup
  exact (viewed_peak 4096 _).2 _ hlookup

/-- a replica that was seen has a view -/
theorem peak_entry {samples : List Sample} {i : NodeId} {x : Sample} (hx : Peak (samples.filter fun s => s.replica == i) x) :
    ∃ view : ReplicaView, ⟨i, view⟩ ∈ (observeAll samples).replicas.entries ∧ view.latest = x.state ∧
      view.lastProgressAt = x.observedAt := by
  cases hv : viewed 4096 (samples.filter fun s => s.replica == i) with
  | none =>
    have hmem := hx.mem
    rw [(viewed_peak 4096 _).1.1 hv] at hmem
    exact absurd hmem List.not_mem_nil
  | some view =>
    obtain ⟨y, hy, hlatest, hprogress⟩ := (viewed_peak 4096 _).2 view hv
    obtain rfl := hy.unique hx
    rw [← replicas_lookup] at hv
    exact ⟨view, List.of_mem_dlookup hv, hlatest, hprogress⟩

/-- samples have a peak -/
theorem exists_peak {samples : List Sample} (h : samples ≠ []) : ∃ x, Peak samples x := by
  cases hv : viewed 4096 samples with
  | none => exact absurd ((viewed_peak 4096 samples).1.1 hv) h
  | some view =>
    obtain ⟨x, hx, -⟩ := (viewed_peak 4096 samples).2 view hv
    exact ⟨x, hx⟩

/-- the frontier is the greatest height of all samples -/
theorem clusterFrontier_eq (samples : List Sample) : (∀ y ∈ samples, y.state.n ≤ (observeAll samples).clusterFrontier) ∧
    (samples ≠ [] → ∃ y ∈ samples, y.state.n = (observeAll samples).clusterFrontier) := by
  have hseen : ∀ y ∈ samples, ∃ n ∈ (observeAll samples).replicas.entries.map (fun e => e.2.latest.n), y.state.n ≤ n := by
    intro y hy
    have hy' : y ∈ samples.filter fun s => s.replica == y.replica := List.mem_filter.2 ⟨hy, by simp⟩
    obtain ⟨x, hx⟩ := exists_peak (List.ne_nil_of_mem hy')
    obtain ⟨view, hview, hlatest, -⟩ := peak_entry hx
    exact ⟨_, List.mem_map_of_mem hview, hlatest ▸ hx.le hy'⟩
  unfold clusterFrontier
  cases hmax : ((observeAll samples).replicas.entries.map fun e => e.2.latest.n).max? with
  | none =>
    rw [List.max?_eq_none_iff] at hmax
    rw [hmax] at hseen
    have hnone : samples = [] := List.eq_nil_iff_forall_not_mem.2 fun y hy => by
      obtain ⟨n, hn, -⟩ := hseen y hy
      exact List.not_mem_nil hn
    subst hnone
    exact ⟨fun y hy => absurd hy List.not_mem_nil, fun h => absurd rfl h⟩
  | some top =>
    obtain ⟨hmem, htop⟩ := List.max?_eq_some_iff.1 hmax
    refine ⟨fun y hy => ?_, fun _ => ?_⟩
    · obtain ⟨n, hn, hle⟩ := hseen y hy
      exact hle.trans (htop n hn)
    · obtain ⟨e, he, rfl⟩ := List.mem_map.1 hmem
      obtain ⟨x, hx, hlatest, -⟩ := entry_peak he
      exact ⟨x, (List.mem_filter.1 hx.mem).1, congrArg ChainState.n hlatest.symm⟩

instance : IsTrans (Σ _ : NodeId, ReplicaView) byReplica := ⟨fun _ _ _ hab hbc => Nat.le_trans hab hbc⟩

instance : Std.Total byReplica := ⟨fun a b => Nat.le_total a.1 b.1⟩

/-- the views in the order of their replicas -/
theorem views_ascending (o : Observer) :
    ((o.replicas.entries.insertionSort byReplica).map Sigma.fst).Pairwise (· < ·) := by
  have hsorted : ((o.replicas.entries.insertionSort byReplica).map Sigma.fst).Pairwise (· ≤ ·) :=
    List.pairwise_map.2 (List.pairwise_insertionSort byReplica _)
  have hnodup : ((o.replicas.entries.insertionSort byReplica).map Sigma.fst).Nodup :=
    ((List.perm_insertionSort byReplica _).map Sigma.fst).nodup_iff.2 o.replicas.nodupKeys
  exact (hsorted.and hnodup).imp fun ⟨hle, hne⟩ => lt_of_le_of_ne hle hne

/-! ## The liveness verdict -/

/-- the sample is held against another replica's, the first one at its height -/
def compared (samples : List Sample) (s : Sample) : Bool :=
  (firstAt samples s.state.n).any fun w => decide (w.replica ≠ s.replica)

theorem check_comparisons (o : Observer) (s : Sample) :
    (o.check s).comparisons = o.comparisons +
      if ((o.witnesses.lookup s.state.n).any fun w => decide (w.1 ≠ s.replica)) = true then 1 else 0 := by
  unfold check
  split
  · rename_i h
    rw [h]
    rfl
  · rename_i w h
    rw [h]
    by_cases hw : w.1 = s.replica
    · simp [hw]
    · rw [if_neg hw]
      split_ifs <;> simp_all

theorem comparisons_eq (samples : List Sample) :
    (observeAll samples).comparisons = (samples.filter (compared samples)).length := by
  induction samples using List.reverseRecOn with
  | nil => rfl
  | append_singleton samples s ih =>
    have hold : ∀ t ∈ samples, compared (samples ++ [s]) t = compared samples t := by
      intro t ht
      obtain ⟨w, hw⟩ := Option.isSome_iff_exists.1 (firstAt_isSome ht)
      unfold compared
      rw [firstAt_snoc, hw, Option.some_or]
    have hnew : ((observeAll samples).witnesses.lookup s.state.n).any (fun w => decide (w.1 ≠ s.replica)) =
        compared (samples ++ [s]) s := by
      unfold compared
      rw [witnesses_lookup, firstAt_snoc, if_pos rfl]
      cases firstAt samples s.state.n <;> simp
    have hstep : (observeAll (samples ++ [s])).comparisons =
        (({ observeAll samples with samples := (observeAll samples).samples + 1 } : Observer).check s).comparisons := by
      rw [observeAll_snoc]
      rfl
    rw [hstep, check_comparisons]
    dsimp only
    rw [hnew, ih, List.filter_append, List.length_append, List.filter_congr hold]
    cases hc : compared (samples ++ [s]) s <;> simp [hc]

/-- **The liveness verdict is exact**, for any samples in any order: a replica is reported stuck iff some sample is higher
than all of its own and its first highest one is older than the budget, and then with that state and that time. Replicas
are reported once each, in their order; and the comparisons that the safety verdict rests on are the samples at a height
that another replica was the first to show. -/
theorem stalls_exact (samples : List Sample) (now budget : ℕ) :
    (∀ st : Stall, st ∈ (observeAll samples).stalls now budget ↔
      ∃ x y, Peak (samples.filter fun s => s.replica == st.replica) x ∧ y ∈ samples ∧
        (∀ z ∈ samples, z.state.n ≤ y.state.n) ∧ x.state.n < y.state.n ∧ budget < now - x.observedAt ∧
        st = ⟨st.replica, x.state, x.observedAt, now, y.state.n⟩) ∧
    (((observeAll samples).stalls now budget).map (·.replica)).Pairwise (· < ·) ∧
    (observeAll samples).comparisons = (samples.filter (compared samples)).length := by
  obtain ⟨htop, hreached⟩ := clusterFrontier_eq samples
  refine ⟨fun st => ⟨fun hst => ?_, ?_⟩, ?_, comparisons_eq samples⟩
  · obtain ⟨e, he, rfl⟩ := List.mem_map.1 hst
    obtain ⟨hsort, hcond⟩ := List.mem_filter.1 he
    rw [Bool.and_eq_true, decide_eq_true_eq, decide_eq_true_eq] at hcond
    obtain ⟨x, hx, hlatest, hprogress⟩ := entry_peak ((List.mem_insertionSort _).1 hsort)
    rw [hlatest, hprogress] at hcond
    obtain ⟨y, hy, hyn⟩ := hreached (List.ne_nil_of_mem (List.mem_filter.1 hx.mem).1)
    rw [← hyn] at htop hcond
    refine ⟨x, y, hx, hy, htop, hcond.1, hcond.2, ?_⟩
    rw [hlatest, hprogress, ← hyn]
  · rintro ⟨x, y, hx, hy, hyall, hlt, hold, hst⟩
    obtain ⟨z, hz, hzn⟩ := hreached (List.ne_nil_of_mem hy)
    have hfrontier : (observeAll samples).clusterFrontier = y.state.n :=
      le_antisymm (hzn ▸ hyall z hz) (htop y hy)
    obtain ⟨view, hview, hlatest, hprogress⟩ := peak_entry hx
    rw [hst]
    refine List.mem_map.2 ⟨⟨st.replica, view⟩, List.mem_filter.2 ⟨(List.mem_insertionSort _).2 hview, ?_⟩, ?_⟩
    · dsimp only
      rw [hlatest, hprogress, hfrontier]
      simp [hlt, hold]
    · dsimp only
      rw [hlatest, hprogress, hfrontier]
  · unfold stalls
    dsimp only
    rw [List.map_map]
    exact (views_ascending (observeAll samples)).sublist (List.filter_sublist.map _)

end Observer

end Queso
