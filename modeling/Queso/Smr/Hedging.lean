/-
Hedging delays: the rank of a replica in a schedule, times the base delay.

`new_with_schedule`, `delay_for_slot` and `delays` each compute the product in `u64` by a plain multiplication. A build
with overflow checks panics where it does not fit, one without wraps around. The clock that the delays are added to
saturates instead.

The delays are what they should be, in either build, exactly when the largest rank times the base delay fits
(`hedging_delays_fit`). A base delay past that makes a late replica as early as the leader or panics.
-/
import Queso.Consensus.Concrete
import Queso.Smr.Epochs

namespace Queso

/-- `u64::MAX` -/
def U64_MAX : ℕ := 2 ^ 64 - 1

/-- `a * b` on `u64`: on overflow a panic where the build checks for it, else the wrapped product -/
def mulU64 (overflowChecks : Bool) (a b : ℕ) : Option ℕ :=
  if a * b ≤ U64_MAX then some (a * b) else if overflowChecks then none else some (a * b % 2 ^ 64)

/-- `order.iter().enumerate().map(|(rank, id)| (id, rank as u64 * base_delay)).collect()`, from `rank` on -/
def collectDelays (overflowChecks : Bool) (baseDelay : ℕ) :
    ℕ → List NodeId → Concrete.ByReplica ℕ → Option (Concrete.ByReplica ℕ)
  | _, [], delays => some delays
  | rank, id :: order, delays =>
    (mulU64 overflowChecks rank baseDelay).bind fun delay =>
      collectDelays overflowChecks baseDelay (rank + 1) order (delays.insert id delay)

def rankDelays (overflowChecks : Bool) (baseDelay : ℕ) (order : List NodeId) : Option (Concrete.ByReplica ℕ) :=
  collectDelays overflowChecks baseDelay 0 order ∅

namespace Concrete

variable {V : Type}

/-- the replicas in ascending order, but `leader` first, which need not be one of them -/
def hedgingOrder (ids : List NodeId) (leader : Option NodeId) : List NodeId :=
  let order := ids.insertionSort (· ≤ ·)
  match leader with
  | none => order
  | some l => l :: order.filter (· ≠ l)

def newWithSchedule (overflowChecks : Bool) (initialValues : ByReplica V) (leader : Option NodeId) (baseDelay : ℕ) :
    Option (Concrete V) :=
  (rankDelays overflowChecks baseDelay (hedgingOrder initialValues.keys leader)).map
    (newWithDelays initialValues leader)

end Concrete

namespace EpochTuner

/-- `delay_for_slot` as it computes: `delayForSlot` has the exact product -/
def delayForSlotU64 (overflowChecks : Bool) (t : EpochTuner) (slot : ℕ) (id : NodeId) : Except Panic (Option ℕ) :=
  match t.configFor slot with
  | .error e => .error e
  | .ok cfg => .ok (mulU64 overflowChecks (cfg.schedule.idxOf id) t.baseDelay)

/-- the open epoch's delays -/
def delays (overflowChecks : Bool) (t : EpochTuner) : Option (Concrete.ByReplica ℕ) :=
  rankDelays overflowChecks t.baseDelay t.schedule

end EpochTuner

/-! ## The product -/

theorem mulU64_eq_some_mul {overflowChecks : Bool} {a b : ℕ} :
    mulU64 overflowChecks a b = some (a * b) ↔ a * b ≤ U64_MAX := by
  unfold mulU64
  constructor
  · intro h
    by_contra hbig
    rw [if_neg hbig] at h
    cases overflowChecks with
    | true => simp at h
    | false =>
      -- a wrapped product is below the exact one
      have hlt := Nat.mod_lt (a * b) (show 0 < 2 ^ 64 by decide)
      simp only [Bool.false_eq_true, if_false, Option.some.injEq] at h
      unfold U64_MAX at hbig
      omega
  · intro h
    rw [if_pos h]

/-! ## Well-defined delays -/

/-- the delays of a schedule: each is its rank's product without overflow, the first replica has none, and they follow
the ranks -/
structure WellDefined (order : List NodeId) (baseDelay : ℕ) (delayOf : NodeId → Option ℕ) : Prop where
  exact : ∀ rank id, order[rank]? = some id → delayOf id = some (rank * baseDelay)
  first : ∀ id, order.head? = some id → delayOf id = some 0
  monotone : ∀ (r r' : ℕ) id id' d d', r ≤ r' → order[r]? = some id → order[r']? = some id' → delayOf id = some d →
    delayOf id' = some d' → d ≤ d'

variable {order : List NodeId} {baseDelay : ℕ} {overflowChecks : Bool} {delayOf : NodeId → Option ℕ}

theorem WellDefined.of_exact (h : ∀ rank id, order[rank]? = some id → delayOf id = some (rank * baseDelay)) :
    WellDefined order baseDelay delayOf where
  exact := h
  first := fun id hid => by
    have hzero := h 0 id (by rw [← List.head?_eq_getElem?]; exact hid)
    rw [Nat.zero_mul] at hzero
    exact hzero
  monotone := fun r r' id id' d d' hle hr hr' hd hd' => by
    rw [h r id hr, Option.some.injEq] at hd
    rw [h r' id' hr', Option.some.injEq] at hd'
    rw [← hd, ← hd']
    exact Nat.mul_le_mul_right _ hle

/-- delays that are computed rank by rank are well defined exactly when the last one fits -/
theorem wellDefined_iff (overflowChecks : Bool) (hne : order ≠ [])
    (h : ∀ rank id, order[rank]? = some id → delayOf id = mulU64 overflowChecks rank baseDelay) :
    WellDefined order baseDelay delayOf ↔ (order.length - 1) * baseDelay ≤ U64_MAX := by
  have hpos := List.length_pos_of_ne_nil hne
  constructor
  · intro hw
    have hlast : order[order.length - 1]? = some order[order.length - 1] := List.getElem?_eq_getElem (by omega)
    have hexact := hw.exact _ _ hlast
    rw [h _ _ hlast] at hexact
    exact mulU64_eq_some_mul.1 hexact
  · intro hfit
    refine .of_exact fun rank id hid => ?_
    obtain ⟨hlt, -⟩ := List.getElem?_eq_some_iff.1 hid
    rw [h rank id hid]
    refine mulU64_eq_some_mul.2 (le_trans ?_ hfit)
    exact Nat.mul_le_mul_right _ (by omega)

/-! ## Collecting the delays -/

theorem collectDelays_lookup {rank : ℕ} {delays delays' : Concrete.ByReplica ℕ} (hn : order.Nodup)
    (h : collectDelays overflowChecks baseDelay rank order delays = some delays') :
    (∀ id, id ∉ order → delays'.lookup id = delays.lookup id) ∧
      ∀ j id, order[j]? = some id →
        ∃ delay, mulU64 overflowChecks (rank + j) baseDelay = some delay ∧ delays'.lookup id = some delay := by
  induction order generalizing rank delays with
  | nil =>
    obtain rfl := Option.some.inj h
    exact ⟨fun _ _ => rfl, fun j id hid => by simp at hid⟩
  | cons i order ih =>
    obtain ⟨hi, hn⟩ := List.nodup_cons.1 hn
    unfold collectDelays at h
    obtain ⟨delay, hdelay, h⟩ := Option.bind_eq_some_iff.1 h
    obtain ⟨hout, hin⟩ := ih hn h
    refine ⟨fun id hid => ?_, fun j id hid => ?_⟩
    · rw [List.mem_cons, not_or] at hid
      rw [hout id hid.2, AList.lookup_insert_ne hid.1]
    · cases j with
      | zero =>
        obtain rfl : i = id := by simpa using hid
        exact ⟨delay, hdelay, by rw [hout i hi, AList.lookup_insert]⟩
      | succ j =>
        rw [show rank + (j + 1) = rank + 1 + j by omega]
        exact hin j id (by simpa using hid)

theorem collectDelays_eq_none {rank : ℕ} {delays : Concrete.ByReplica ℕ}
    (h : collectDelays overflowChecks baseDelay rank order delays = none) :
    ∃ j < order.length, mulU64 overflowChecks (rank + j) baseDelay = none := by
  induction order generalizing rank delays with
  | nil => cases h
  | cons i order ih =>
    unfold collectDelays at h
    cases hdelay : mulU64 overflowChecks rank baseDelay with
    | none => exact ⟨0, by simp, hdelay⟩
    | some delay =>
      rw [hdelay, Option.bind_some] at h
      obtain ⟨j, hj, hnone⟩ := ih h
      refine ⟨j + 1, by simpa using hj, ?_⟩
      rw [← hnone]
      congr 1
      omega

/-- the delay that a replica gets from a map of them, if the map was built at all -/
def delayIn (delays : Option (Concrete.ByReplica ℕ)) (id : NodeId) : Option ℕ := delays.bind fun d => d.lookup id

theorem rankDelays_wellDefined (hn : order.Nodup) :
    WellDefined order baseDelay (delayIn (rankDelays overflowChecks baseDelay order)) ↔
      (order.length - 1) * baseDelay ≤ U64_MAX := by
  by_cases hne : order = []
  · subst hne
    simp only [List.length_nil, Nat.zero_sub, Nat.zero_mul, Nat.zero_le, iff_true]
    exact .of_exact fun rank id hid => by simp at hid
  cases hd : rankDelays overflowChecks baseDelay order with
  | some delays =>
    refine wellDefined_iff overflowChecks hne fun rank id hid => ?_
    obtain ⟨delay, hdelay, hlook⟩ := (collectDelays_lookup hn hd).2 rank id hid
    rw [Nat.zero_add] at hdelay
    rw [hdelay]
    exact hlook
  | none =>
    -- a product overflowed, so the last one does too
    obtain ⟨j, hj, hnone⟩ := collectDelays_eq_none hd
    rw [Nat.zero_add] at hnone
    have hbig : ¬ (order.length - 1) * baseDelay ≤ U64_MAX := by
      intro hfit
      have hle : j * baseDelay ≤ U64_MAX := le_trans (Nat.mul_le_mul_right _ (by omega)) hfit
      rw [mulU64_eq_some_mul.2 hle] at hnone
      cases hnone
    refine iff_of_false (fun hw => ?_) hbig
    have hfirst := hw.exact 0 order[0] (List.getElem?_eq_getElem (by omega))
    cases hfirst

namespace Concrete

variable {V : Type}

theorem hedgingOrder_nodup {ids : List NodeId} (hn : ids.Nodup) (leader : Option NodeId) :
    (hedgingOrder ids leader).Nodup := by
  have hsort : (ids.insertionSort (· ≤ ·)).Nodup := (List.perm_insertionSort _ ids).nodup_iff.2 hn
  cases leader with
  | none => exact hsort
  | some l => exact List.nodup_cons.2 ⟨by simp, hsort.filter _⟩

theorem mem_hedgingOrder {ids : List NodeId} {i : NodeId} (hi : i ∈ ids) (leader : Option NodeId) :
    i ∈ hedgingOrder ids leader := by
  have hsort : i ∈ ids.insertionSort (· ≤ ·) := (List.perm_insertionSort _ ids).mem_iff.2 hi
  cases leader with
  | none => exact hsort
  | some l =>
    by_cases hl : i = l
    · subst hl
      exact List.mem_cons_self
    · refine List.mem_cons_of_mem _ (List.mem_filter.2 ⟨hsort, by simpa using hl⟩)

/-- the delays are those that the proposers of the cluster get -/
theorem newWithSchedule_delay {initialValues : ByReplica V} {leader : Option NodeId} {w : Concrete V} {i : NodeId}
    {nd : ReplicaNode V} (h : newWithSchedule overflowChecks initialValues leader baseDelay = some w)
    (hnd : w.nodes i = some nd) :
    delayIn (rankDelays overflowChecks baseDelay (hedgingOrder initialValues.keys leader)) i =
      some nd.proposer.activationDelay := by
  obtain ⟨delays, hdelays, rfl⟩ := Option.map_eq_some_iff.1 h
  obtain ⟨c, hc, rfl⟩ := Option.map_eq_some_iff.1 hnd
  obtain ⟨v, hv, rfl⟩ := Option.map_eq_some_iff.1 hc
  have hkey : i ∈ initialValues.keys := AList.mem_keys.1 (AList.lookup_isSome.1 (by rw [hv]; rfl))
  obtain ⟨rank, hrank⟩ := List.mem_iff_getElem?.1 (mem_hedgingOrder hkey leader)
  obtain ⟨delay, -, hlook⟩ := (collectDelays_lookup (hedgingOrder_nodup initialValues.keys_nodup leader) hdelays).2 _ _ hrank
  rw [hdelays]
  show delays.lookup i = some ((delays.lookup i).getD 0)
  rw [hlook]
  rfl

end Concrete

/-! ## The tuner's schedules -/

/-- what the replicas report to the tuner -/
inductive TunerCall where
  | attemptStart (slot now : ℕ)
  | slotDecided (slot now : ℕ)

namespace EpochTuner

def call (t : EpochTuner) : TunerCall → Except Panic EpochTuner
  | .attemptStart slot now => .ok (t.noteAttemptStart slot now)
  | .slotDecided slot now => t.noteSlotDecided slot now

/-- a tuner over the replicas `r :: rs` that has taken a series of calls, none of which panicked -/
def Reached (r : NodeId) (rs : List NodeId) (epochLen baseDelay : ℕ) (t : EpochTuner) : Prop :=
  ∃ calls : List TunerCall, calls.foldlM call (new r rs epochLen baseDelay) = .ok t

/-- every schedule, pinned or current, ranks every replica once, and the base delay is the given one -/
structure Ranked (replicas : List NodeId) (baseDelay : ℕ) (t : EpochTuner) : Prop where
  ids : t.replicas = replicas
  delay : t.baseDelay = baseDelay
  current : EpochConfig.Sound replicas ⟨t.leader, t.schedule⟩
  pinned : ∀ e cfg, t.epochConfigs.lookup e = some cfg → cfg.Sound replicas

variable {replicas : List NodeId} {t t' : EpochTuner}

theorem ranked_new {r : NodeId} {rs : List NodeId} (hn : (r :: rs).Nodup) (epochLen baseDelay : ℕ) :
    Ranked (r :: rs) baseDelay (new r rs epochLen baseDelay) where
  ids := rfl
  delay := rfl
  current := leaderFirst_sound List.mem_cons_self hn _
  pinned := fun e cfg he => by
    rcases lookup_configure he with ⟨-, rfl⟩ | hnone
    · exact leaderFirst_sound List.mem_cons_self hn _
    · rw [AList.lookup_empty] at hnone; cases hnone

theorem Ranked.closeEpoch (h : Ranked replicas baseDelay t) (hne : replicas ≠ []) (hn : replicas.Nodup) :
    Ranked replicas baseDelay t.closeEpoch := by
  obtain ⟨stats, recent, u, hu, hclose⟩ := t.closeEpoch_eq
  have hr : u.replicas = replicas := by rw [hu]; exact h.ids
  have hsound : (u.chooseNext (t.epoch + 1)).1.Sound replicas := by
    have hl : t.leader ∈ replicas := h.current.perm.mem_iff.1 (List.mem_of_mem_head? h.current.first)
    rw [← hr]
    refine chooseNext_sound _ (by rwa [hr]) (by rwa [hr]) ?_ ?_
    · rw [hr, hu]; exact h.current.perm
    · rw [hr, hu]; exact hl
  rw [hclose]
  exact
    { ids := hr
      delay := by rw [hu]; exact h.delay
      current := hsound
      pinned := fun e cfg he => by
        rcases lookup_configure he with ⟨-, rfl⟩ | hold
        · exact hsound
        · exact h.pinned e cfg hold }

theorem Ranked.call (h : Ranked replicas baseDelay t) (hne : replicas ≠ []) (hn : replicas.Nodup) {c : TunerCall}
    (hc : t.call c = .ok t') : Ranked replicas baseDelay t' := by
  cases c with
  | attemptStart slot now =>
    obtain rfl := Except.ok.inj hc
    unfold noteAttemptStart
    split_ifs
    · exact h
    · exact ⟨h.ids, h.delay, h.current, h.pinned⟩
  | slotDecided slot now =>
    simp only [EpochTuner.call, noteSlotDecided] at hc
    split_ifs at hc with hrec
    · obtain rfl := Except.ok.inj hc
      exact h
    · unfold absorb at hc
      split_ifs at hc with hord
      obtain rfl := Except.ok.inj hc
      split_ifs
      · exact Ranked.closeEpoch (t := { t with slotRecorded := _, epochSamples := _ })
          ⟨h.ids, h.delay, h.current, h.pinned⟩ hne hn
      · exact ⟨h.ids, h.delay, h.current, h.pinned⟩

theorem Ranked.calls (h : Ranked replicas baseDelay t) (hne : replicas ≠ []) (hn : replicas.Nodup) (calls : List TunerCall)
    (hcalls : calls.foldlM EpochTuner.call t = .ok t') : Ranked replicas baseDelay t' := by
  induction calls generalizing t with
  | nil =>
    obtain rfl := Except.ok.inj hcalls
    exact h
  | cons c calls ih =>
    rw [List.foldlM_cons] at hcalls
    cases hc : t.call c with
    | error e => rw [hc] at hcalls; cases hcalls
    | ok u =>
      rw [hc] at hcalls
      exact ih (h.call hne hn hc) hcalls

theorem Reached.ranked {r : NodeId} {rs : List NodeId} {epochLen : ℕ} (hn : (r :: rs).Nodup)
    (h : Reached r rs epochLen baseDelay t) : Ranked (r :: rs) baseDelay t := by
  obtain ⟨calls, hcalls⟩ := h
  exact (ranked_new hn epochLen baseDelay).calls (List.cons_ne_nil _ _) hn calls hcalls

/-- the delay that a replica is given for a slot, where the tuner and the multiplication do not panic -/
def slotDelay (overflowChecks : Bool) (t : EpochTuner) (slot : ℕ) (id : NodeId) : Option ℕ :=
  match t.delayForSlotU64 overflowChecks slot id with
  | .error _ => none
  | .ok delay => delay

/-- where it fits, it is the delay that the model of the cluster uses -/
theorem delayForSlotU64_exact {slot : ℕ} {id : NodeId} {delay : ℕ} (h : t.delayForSlot slot id = .ok delay)
    (hfit : delay ≤ U64_MAX) : t.delayForSlotU64 overflowChecks slot id = .ok (some delay) := by
  unfold delayForSlot at h
  unfold delayForSlotU64
  cases hcfg : t.configFor slot with
  | error e => rw [hcfg] at h; cases h
  | ok cfg =>
    rw [hcfg] at h
    obtain rfl := Except.ok.inj h
    dsimp only
    rw [mulU64_eq_some_mul.2 hfit]

theorem slotDelay_wellDefined (h : Ranked replicas baseDelay t) (hne : replicas ≠ []) (hn : replicas.Nodup) {slot : ℕ}
    {cfg : EpochConfig} (hcfg : t.configFor slot = .ok cfg) :
    WellDefined cfg.schedule baseDelay (t.slotDelay overflowChecks slot) ↔
      (replicas.length - 1) * baseDelay ≤ U64_MAX := by
  have hperm : cfg.schedule.Perm replicas := by
    unfold configFor at hcfg
    split at hcfg
    · next c hc =>
      obtain rfl := Except.ok.inj hcfg
      exact (h.pinned _ _ hc).perm
    · cases hcfg
  rw [← hperm.length_eq]
  refine wellDefined_iff overflowChecks (fun hnil => hne (by rw [hnil] at hperm; exact hperm.nil_eq.symm)) ?_
  intro rank id hid
  obtain ⟨hlt, rfl⟩ := List.getElem?_eq_some_iff.1 hid
  unfold slotDelay delayForSlotU64
  rw [hcfg, h.delay]
  dsimp only
  rw [(hperm.nodup_iff.2 hn).idxOf_getElem]

theorem delays_wellDefined (h : Ranked replicas baseDelay t) (hn : replicas.Nodup) :
    WellDefined t.schedule baseDelay (delayIn (t.delays overflowChecks)) ↔
      (replicas.length - 1) * baseDelay ≤ U64_MAX := by
  unfold delays
  rw [h.delay, rankDelays_wellDefined (h.current.perm.nodup_iff.2 hn), h.current.perm.length_eq]

end EpochTuner

/-! ## When the delays are well defined -/

/-- **Hedging delays are well defined exactly when the last of them fits** in a `u64`, in either build: those of
`new_with_schedule` over any replicas, with any leader (one that is not a replica is a rank of its own), and those that
any reachable tuner gives for a slot of any configured epoch, or for the open one. -/
theorem hedging_delays_fit {V : Type} (overflowChecks : Bool) (baseDelay : ℕ) :
    (∀ (initialValues : Concrete.ByReplica V) (leader : Option NodeId),
      (WellDefined (Concrete.hedgingOrder initialValues.keys leader) baseDelay
          (delayIn (rankDelays overflowChecks baseDelay (Concrete.hedgingOrder initialValues.keys leader))) ↔
        ((Concrete.hedgingOrder initialValues.keys leader).length - 1) * baseDelay ≤ U64_MAX) ∧
      ∀ w i nd, Concrete.newWithSchedule overflowChecks initialValues leader baseDelay = some w → w.nodes i = some nd →
        delayIn (rankDelays overflowChecks baseDelay (Concrete.hedgingOrder initialValues.keys leader)) i =
          some nd.proposer.activationDelay) ∧
    ∀ (r : NodeId) (rs : List NodeId) (epochLen : ℕ) (t : EpochTuner), (r :: rs).Nodup →
      EpochTuner.Reached r rs epochLen baseDelay t →
      (∀ slot cfg, t.configFor slot = .ok cfg →
        (WellDefined cfg.schedule baseDelay (t.slotDelay overflowChecks slot) ↔ rs.length * baseDelay ≤ U64_MAX)) ∧
      (WellDefined t.schedule baseDelay (delayIn (t.delays overflowChecks)) ↔ rs.length * baseDelay ≤ U64_MAX) := by
  refine ⟨fun initialValues leader => ?_, fun r rs epochLen t hn ht => ⟨fun slot cfg hcfg => ?_, ?_⟩⟩
  · exact ⟨rankDelays_wellDefined (Concrete.hedgingOrder_nodup initialValues.keys_nodup leader),
      fun w i nd h hnd => Concrete.newWithSchedule_delay h hnd⟩
  · exact EpochTuner.slotDelay_wellDefined (ht.ranked hn) (List.cons_ne_nil _ _) hn hcfg
  · exact EpochTuner.delays_wellDefined (ht.ranked hn) hn

/-- three replicas in ascending order -/
def threeValues : Concrete.ByReplica ℕ := ((∅ : Concrete.ByReplica ℕ).insert 2 0 |>.insert 1 0).insert 0 0

/-- with a base delay of `2 ^ 62`, the schedule of three replicas fits, and so do those of a new tuner -/
theorem hedging_delays_fit_three :
    (WellDefined (Concrete.hedgingOrder threeValues.keys (some 1)) (2 ^ 62)
      (delayIn (rankDelays true (2 ^ 62) (Concrete.hedgingOrder threeValues.keys (some 1))))) ∧
    WellDefined [0, 1, 2] (2 ^ 62) (delayIn ((EpochTuner.new 0 [1, 2] 4 (2 ^ 62)).delays true)) := by
  refine ⟨((hedging_delays_fit true (2 ^ 62)).1 threeValues (some 1)).1.2 (by decide), ?_⟩
  exact ((hedging_delays_fit (V := ℕ) true (2 ^ 62)).2 0 [1, 2] 4 (.new 0 [1, 2] 4 (2 ^ 62)) (by decide)
    ⟨[], rfl⟩).2.2 (by decide)

/-- with a base delay of `2 ^ 63`, the third replica's product does not fit: the checked build panics in the
constructor, the other one gives the last replica of the schedule the delay of the first; the tuner does the same -/
theorem hedging_delays_overflow :
    Concrete.newWithSchedule true threeValues none (2 ^ 63) = none ∧
    delayIn (rankDelays false (2 ^ 63) (Concrete.hedgingOrder threeValues.keys none)) 1 = some (2 ^ 63) ∧
    delayIn (rankDelays false (2 ^ 63) (Concrete.hedgingOrder threeValues.keys none)) 2 = some 0 ∧
    ¬ WellDefined (Concrete.hedgingOrder threeValues.keys none) (2 ^ 63)
      (delayIn (rankDelays false (2 ^ 63) (Concrete.hedgingOrder threeValues.keys none))) ∧
    (EpochTuner.new 0 [1, 2] 4 (2 ^ 63)).delays true = none ∧
    (EpochTuner.new 0 [1, 2] 4 (2 ^ 63)).slotDelay true 0 2 = none ∧
    (EpochTuner.new 0 [1, 2] 4 (2 ^ 63)).slotDelay false 0 2 = some 0 := by
  refine ⟨rfl, rfl, rfl, fun h => ?_, rfl, rfl, rfl⟩
  have hexact := h.exact 2 2 rfl
  exact absurd hexact (by decide)

end Queso
