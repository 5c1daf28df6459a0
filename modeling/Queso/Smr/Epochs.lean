/-
The tuner keeps step with the cluster.

All replicas share one tuner, and each asks it about its own frontier: a replica that was away asks about slots of epochs
that closed long ago, the one that is ahead about a slot that nobody has decided yet. `Causal` is what makes every such
question answerable: the slots recorded are an initial segment, their number fixes the open epoch and its samples, and
exactly the epochs up to the open one are configured. A replica proposes for a slot only after it has applied the one
before, so no frontier is past that segment (`InStep`).

`Serves` is all that a callback does to the tuner. Nothing is asked of the environment: messages and timers may be lost,
copied and reordered, and replicas crash and restart at any time.
-/
import Queso.Smr.Agreement

namespace Queso

/-- a panic of the tuner -/
def Panic.Epochal (e : Panic) : Prop := e = .epochNotOpened ∨ e = .epochOutOfOrder

/-- the schedule ranks every replica once, the leader first -/
structure EpochConfig.Sound (replicas : List NodeId) (cfg : EpochConfig) : Prop where
  perm : cfg.schedule.Perm replicas
  first : cfg.schedule.head? = some cfg.leader

namespace EpochTuner

variable {n l d slot now : ℕ} {t t' : EpochTuner}

/-! ## Schedules -/

theorem leaderFirst_sound {leader : NodeId} {replicas : List NodeId} (hl : leader ∈ replicas) (hn : replicas.Nodup)
    (key : NodeId → ℕ) : EpochConfig.Sound replicas ⟨leader, leaderFirst leader replicas key⟩ := by
  refine ⟨?_, rfl⟩
  have hrest : replicas.filter (· ≠ leader) = replicas.erase leader := by
    rw [hn.erase_eq_filter]
    apply List.filter_congr
    intro x _
    by_cases hx : x = leader <;> simp [hx]
  have hsort : (leaderFirst leader replicas key).Perm (leader :: replicas.erase leader) := by
    rw [leaderFirst, hrest]
    exact (List.perm_insertionSort _ _).cons _
  exact hsort.trans (List.perm_cons_erase hl).symm

theorem rankedBySpeed_sound {replicas : List NodeId} (hne : replicas ≠ [])
    (stats : AList fun _ : NodeId => RunningAvg) :
    EpochConfig.Sound replicas ⟨(rankedBySpeed replicas stats).headD 0, rankedBySpeed replicas stats⟩ := by
  have hperm : (rankedBySpeed replicas stats).Perm replicas := List.perm_insertionSort _ _
  refine ⟨hperm, ?_⟩
  cases hr : rankedBySpeed replicas stats with
  | nil =>
    rw [hr] at hperm
    exact absurd hperm.nil_eq.symm hne
  | cons r rs => rfl

/-! ## What the tuner maintains -/

/-- exactly the epochs up to the open one are configured, each with a schedule of all `n + 1` replicas -/
structure Configured (n : ℕ) (t : EpochTuner) : Prop where
  replicas : t.replicas = List.range (n + 1)
  explore : t.exploreEpochs = 2 * (n + 1) + 1
  opened : ∀ e, (t.epochConfigs.lookup e).isSome ↔ e ≤ t.epoch
  current : t.epochConfigs.lookup t.epoch = some ⟨t.leader, t.schedule⟩
  sound : ∀ e cfg, t.epochConfigs.lookup e = some cfg → cfg.Sound t.replicas
  rotates : ∀ e cfg, t.epochConfigs.lookup e = some cfg → e < t.exploreEpochs → cfg.leader = e % (n + 1)

/-- the tuner of `n + 1` replicas, with epochs of `l` slots and base delay `d`, after an initial segment of the slots -/
structure Causal (n l d : ℕ) (t : EpochTuner) : Prop where
  len : t.epochLen = max l 1
  delay : t.baseDelay = d
  recorded : t.slotRecorded = (List.range t.slotRecorded.length).reverse
  epoch : t.epoch = t.slotRecorded.length / t.epochLen
  samples : t.epochSamples.length = t.slotRecorded.length % t.epochLen
  configured : Configured n t

theorem Causal.len_pos (h : Causal n l d t) : 0 < t.epochLen := by rw [h.len]; omega

theorem Configured.pinned (h : Configured n t) : t.Pinned := fun e he => (h.opened e).1 (AList.lookup_isSome.2 he)

theorem Causal.mem_recorded (h : Causal n l d t) : slot ∈ t.slotRecorded ↔ slot < t.slotRecorded.length := by
  rw [h.recorded]
  simp

/-- configuring one epoch more -/
theorem lookup_configure {configs : AList fun _ : ℕ => EpochConfig} {e next : ℕ} {cfg cfg' : EpochConfig}
    (h : (configs.insert next cfg).lookup e = some cfg') : e = next ∧ cfg' = cfg ∨ configs.lookup e = some cfg' := by
  by_cases he : e = next
  · subst he
    rw [AList.lookup_insert] at h
    exact .inl ⟨rfl, (Option.some.inj h).symm⟩
  · rw [AList.lookup_insert_ne he] at h
    exact .inr h

theorem range_succ_cons (n : ℕ) : 0 :: (List.range n).map (· + 1) = List.range (n + 1) :=
  List.range_succ_eq_map.symm

theorem configured_new (n l d : ℕ) : Configured n (new 0 ((List.range n).map (· + 1)) l d) where
  replicas := range_succ_cons n
  explore := by simp [new]
  opened := fun e => by
    constructor
    · intro he
      obtain ⟨cfg, hcfg⟩ := Option.isSome_iff_exists.1 he
      rcases lookup_configure hcfg with ⟨rfl, -⟩ | hnone
      · exact le_rfl
      · rw [AList.lookup_empty] at hnone; cases hnone
    · intro he
      obtain rfl : e = 0 := Nat.le_zero.1 he
      exact AList.lookup_isSome.2 (AList.mem_insert _ |>.2 (.inl rfl))
  current := AList.lookup_insert _
  sound := fun e cfg he => by
    rcases lookup_configure he with ⟨-, rfl⟩ | hnone
    · refine leaderFirst_sound List.mem_cons_self ?_ _
      rw [range_succ_cons]
      exact List.nodup_range
    · rw [AList.lookup_empty] at hnone; cases hnone
  rotates := fun e cfg he _ => by
    rcases lookup_configure he with ⟨rfl, rfl⟩ | hnone
    · simp
    · rw [AList.lookup_empty] at hnone; cases hnone

theorem causal_new (n l d : ℕ) : Causal n l d (new 0 ((List.range n).map (· + 1)) l d) where
  len := rfl
  delay := rfl
  recorded := rfl
  epoch := by simp [new]
  samples := by simp [new]
  configured := configured_new n l d

/-! ## Closing an epoch -/

/-- while the tuner explores, the next epoch is led by the rotation -/
theorem chooseNext_rotates {next : ℕ} (hr : t.replicas = List.range (n + 1)) (hexp : next < t.exploreEpochs) :
    (t.chooseNext next).1.leader = next % (n + 1) := by
  have hlt : next % (n + 1) < n + 1 := Nat.mod_lt _ (Nat.succ_pos n)
  unfold chooseNext
  rw [if_pos hexp, hr, List.length_range]
  dsimp only
  rw [List.getD_eq_getElem?_getD, List.getElem?_range hlt]
  rfl

/-- the next epoch is led by one of the replicas -/
theorem chooseNext_sound (next : ℕ) (hne : t.replicas ≠ []) (hnodup : t.replicas.Nodup)
    (hs : t.schedule.Perm t.replicas) (hl : t.leader ∈ t.replicas) : (t.chooseNext next).1.Sound t.replicas := by
  unfold chooseNext
  by_cases hexp : next < t.exploreEpochs
  · rw [if_pos hexp]
    have hlt : next % t.replicas.length < t.replicas.length := Nat.mod_lt _ (List.length_pos_of_ne_nil hne)
    refine leaderFirst_sound ?_ hnodup _
    rw [List.getD_eq_getElem?_getD, List.getElem?_eq_getElem hlt]
    exact List.getElem_mem hlt
  · rw [if_neg hexp]
    by_cases heq : next = t.exploreEpochs
    · rw [if_pos heq]
      exact rankedBySpeed_sound hne _
    · rw [if_neg heq]
      refine leaderFirst_sound ?_ hnodup _
      cases hc : t.challenger with
      | none => exact hl
      | some r =>
        -- a challenger is the second of the schedule
        have hmem : r ∈ t.schedule := by
          unfold challenger at hc
          split at hc
          · cases hc
          · next candidate hcand =>
            split at hc
            · split_ifs at hc
              obtain rfl := Option.some.inj hc
              exact List.mem_of_getElem? hcand
            · cases hc
        exact hs.mem_iff.1 hmem

/-- what `measure` leaves alone -/
theorem measure_eq (t : EpochTuner) : ∃ stats recent, t.measure = { t with stats := stats, recent := recent } := by
  unfold measure
  split_ifs
  · exact ⟨t.stats, t.recent, rfl⟩
  · exact ⟨_, _, rfl⟩

/-- closing an epoch chooses the next one's leader and schedule from `u`, where the statistics are up to date -/
theorem closeEpoch_eq (t : EpochTuner) :
    ∃ stats recent, ∃ u : EpochTuner, u = { t with stats := stats, recent := recent, epochSamples := [] } ∧
      t.closeEpoch =
        { u with
          epoch := t.epoch + 1
          leader := (u.chooseNext (t.epoch + 1)).1.leader
          schedule := (u.chooseNext (t.epoch + 1)).1.schedule
          epochConfigs := t.epochConfigs.insert (t.epoch + 1) (u.chooseNext (t.epoch + 1)).1
          leaderLog := t.leaderLog ++ [(u.chooseNext (t.epoch + 1)).1.leader]
          switchCount := t.switchCount + (u.chooseNext (t.epoch + 1)).2 } := by
  obtain ⟨stats, recent, hm⟩ := t.measure_eq
  refine ⟨stats, recent, _, rfl, ?_⟩
  unfold closeEpoch
  rw [hm]

theorem Configured.closeEpoch (h : Configured n t) : Configured n t.closeEpoch := by
  have hcur := h.sound _ _ h.current
  have hl : t.leader ∈ t.replicas := hcur.perm.mem_iff.1 (List.mem_of_mem_head? hcur.first)
  have hne : t.replicas ≠ [] := by rw [h.replicas]; simp
  have hnodup : t.replicas.Nodup := by rw [h.replicas]; exact List.nodup_range
  obtain ⟨stats, recent, u, hu, hclose⟩ := t.closeEpoch_eq
  have hsound : (u.chooseNext (t.epoch + 1)).1.Sound t.replicas := by
    have hr : u.replicas = t.replicas := by rw [hu]
    have hs : u.schedule = t.schedule := by rw [hu]
    have hlead : u.leader = t.leader := by rw [hu]
    rw [← hr] at hne hnodup hl ⊢
    exact chooseNext_sound _ hne hnodup (by rw [hs, hr]; exact hcur.perm) (by rw [hlead]; exact hl)
  have hrot (hexp : t.epoch + 1 < t.exploreEpochs) :
      (u.chooseNext (t.epoch + 1)).1.leader = (t.epoch + 1) % (n + 1) := by
    refine chooseNext_rotates (t := u) ?_ ?_
    · rw [hu]; exact h.replicas
    · rw [hu]; exact hexp
  rw [hclose]
  exact
    { replicas := by rw [hu]; exact h.replicas
      explore := by rw [hu]; exact h.explore
      opened := fun e => by
        show ((t.epochConfigs.insert (t.epoch + 1) _).lookup e).isSome ↔ e ≤ t.epoch + 1
        by_cases he : e = t.epoch + 1
        · subst he; simp
        · rw [AList.lookup_insert_ne he, h.opened e]
          omega
      current := AList.lookup_insert _
      sound := fun e cfg he => by
        have hr : u.replicas = t.replicas := by rw [hu]
        show cfg.Sound u.replicas
        rw [hr]
        rcases lookup_configure he with ⟨-, rfl⟩ | hold
        · exact hsound
        · exact h.sound e cfg hold
      rotates := fun e cfg he hlt => by
        rw [hu] at hlt
        rcases lookup_configure he with ⟨rfl, rfl⟩ | hold
        · exact hrot hlt
        · exact h.rotates e cfg hold hlt }

theorem closeEpoch_counts (t : EpochTuner) : t.closeEpoch.epochLen = t.epochLen ∧ t.closeEpoch.baseDelay = t.baseDelay ∧
    t.closeEpoch.slotRecorded = t.slotRecorded ∧ t.closeEpoch.epoch = t.epoch + 1 ∧ t.closeEpoch.epochSamples = [] := by
  obtain ⟨stats, recent, u, rfl, hclose⟩ := t.closeEpoch_eq
  rw [hclose]
  exact ⟨rfl, rfl, rfl, rfl, rfl⟩

/-- one more slot than a full epoch less one closes it; one more than less stays inside -/
theorem epoch_arith {r len : ℕ} (hpos : 0 < len) :
    (len ≤ r % len + 1 → (r + 1) / len = r / len + 1 ∧ (r + 1) % len = 0) ∧
      (¬ len ≤ r % len + 1 → (r + 1) / len = r / len ∧ (r + 1) % len = r % len + 1) := by
  have hlt := Nat.mod_lt r hpos
  have hdm := Nat.div_add_mod r len
  refine ⟨fun h => ?_, fun h => ?_⟩
  · apply (Nat.div_mod_unique hpos).2
    have : len * (r / len + 1) = len * (r / len) + len := by ring
    exact ⟨by omega, hpos⟩
  · apply (Nat.div_mod_unique hpos).2
    exact ⟨by omega, by omega⟩

/-- **The first decision of the next slot** is recorded, and closes its epoch if the slot is the epoch's last. -/
theorem Causal.absorb {u : EpochTuner} (h : Causal n l d t) (latency : ℕ)
    (hu : u = { t with slotRecorded := t.slotRecorded.length :: t.slotRecorded }) :
    ∃ t', u.absorb t.slotRecorded.length latency = .ok t' ∧ Causal n l d t' ∧
      t'.slotRecorded = t.slotRecorded.length :: t.slotRecorded := by
  obtain ⟨hclose, hopen⟩ := epoch_arith (r := t.slotRecorded.length) h.len_pos
  have hlen : u.slotRecorded.length = t.slotRecorded.length + 1 := by rw [hu]; rfl
  have hrec : u.slotRecorded = (List.range u.slotRecorded.length).reverse := by
    rw [hlen, List.range_succ, List.reverse_append, ← h.recorded, hu]
    rfl
  have hconf : Configured n u := by
    rw [hu]
    exact ⟨h.configured.replicas, h.configured.explore, h.configured.opened, h.configured.current,
      h.configured.sound, h.configured.rotates⟩
  have hsamples : u.epochSamples.length = t.slotRecorded.length % t.epochLen := by rw [hu]; exact h.samples
  have hdelay : u.baseDelay = d := by rw [hu]; exact h.delay
  have hul : u.epochLen = t.epochLen := by rw [hu]
  have hue : u.epoch = t.slotRecorded.length / t.epochLen := by rw [hu]; exact h.epoch
  have hur : u.slotRecorded = t.slotRecorded.length :: t.slotRecorded := by rw [hu]
  have hord : u.epochOf t.slotRecorded.length = u.epoch := by rw [hue, epochOf, hul]
  have hcount : (u.epochSamples ++ [latency]).length = t.slotRecorded.length % t.epochLen + 1 := by simp [hsamples]
  unfold EpochTuner.absorb
  rw [if_neg (not_not.2 hord)]
  have hconf' : Configured n { u with epochSamples := u.epochSamples ++ [latency] } :=
    ⟨hconf.replicas, hconf.explore, hconf.opened, hconf.current, hconf.sound, hconf.rotates⟩
  refine ⟨_, rfl, ?_⟩
  by_cases hfull : t.epochLen ≤ t.slotRecorded.length % t.epochLen + 1
  · rw [if_pos (by rwa [hcount, hul])]
    obtain ⟨hdiv, hmod⟩ := hclose hfull
    obtain ⟨clen, cdelay, crec, cepoch, csamples⟩ :=
      closeEpoch_counts { u with epochSamples := u.epochSamples ++ [latency] }
    refine ⟨⟨?_, ?_, ?_, ?_, ?_, hconf'.closeEpoch⟩, ?_⟩
    · rw [clen]; exact hul.trans h.len
    · rw [cdelay]; exact hdelay
    · rw [crec]; exact hrec
    · rw [cepoch, crec, clen]
      show u.epoch + 1 = u.slotRecorded.length / u.epochLen
      rw [hue, hlen, hul, hdiv]
    · rw [csamples, crec, clen]
      show 0 = u.slotRecorded.length % u.epochLen
      rw [hlen, hul, hmod]
    · rw [crec]; exact hur
  · rw [if_neg (by rwa [hcount, hul])]
    obtain ⟨hdiv, hmod⟩ := hopen hfull
    refine ⟨⟨hul.trans h.len, hdelay, hrec, ?_, ?_, hconf'⟩, hur⟩
    · show u.epoch = u.slotRecorded.length / u.epochLen
      rw [hue, hlen, hul, hdiv]
    · show (u.epochSamples ++ [latency]).length = u.slotRecorded.length % u.epochLen
      rw [hcount, hlen, hul, hmod]

/-! ## What a replica asks and tells -/

/-- the tuner goes on from `t` to `t'`: it records no slot, or the next one -/
structure Advances (n l d : ℕ) (t t' : EpochTuner) : Prop where
  causal : Causal n l d t'
  keeps : t.Keeps t'
  records : t'.slotRecorded = t.slotRecorded ∨ t'.slotRecorded = t.slotRecorded.length :: t.slotRecorded

theorem Keeps.trans {t'' : EpochTuner} (h : t.Keeps t') (h' : t'.Keeps t'') : t.Keeps t'' :=
  ⟨h'.len.trans h.len, fun e cfg he => h'.configs e cfg (h.configs e cfg he), h'.pinned⟩

theorem Causal.stays (h : Causal n l d t) : Advances n l d t t :=
  ⟨h, ⟨rfl, fun _ _ he => he, h.configured.pinned⟩, .inl rfl⟩

/-- a replica asks about a slot that is not past the segment -/
theorem Causal.configFor (h : Causal n l d t) (hs : slot ≤ t.slotRecorded.length) : ∃ cfg, t.configFor slot = .ok cfg := by
  have hle : t.epochOf slot ≤ t.epoch := by
    rw [h.epoch]
    exact Nat.div_le_div_right hs
  obtain ⟨cfg, hcfg⟩ := Option.isSome_iff_exists.1 ((h.configured.opened _).2 hle)
  exact ⟨cfg, by unfold EpochTuner.configFor; rw [hcfg]⟩

theorem Causal.noteAttemptStart (h : Causal n l d t) (slot now : ℕ) :
    Advances n l d t (t.noteAttemptStart slot now) ∧ (t.noteAttemptStart slot now).slotRecorded = t.slotRecorded := by
  unfold EpochTuner.noteAttemptStart
  split_ifs
  · exact ⟨h.stays, rfl⟩
  · exact ⟨⟨⟨h.len, h.delay, h.recorded, h.epoch, h.samples,
      ⟨h.configured.replicas, h.configured.explore, h.configured.opened, h.configured.current, h.configured.sound,
        h.configured.rotates⟩⟩, ⟨rfl, fun _ _ he => he, h.configured.pinned⟩, .inl rfl⟩, rfl⟩

/-- **A decision is recorded once**: the first one of the next slot, and none of a slot that is recorded. -/
theorem Causal.noteSlotDecided (h : Causal n l d t) (hs : slot ≤ t.slotRecorded.length) (now : ℕ) :
    ∃ t', t.noteSlotDecided slot now = .ok t' ∧ Advances n l d t t' ∧
      t'.slotRecorded.length = max t.slotRecorded.length (slot + 1) := by
  by_cases hrec : slot ∈ t.slotRecorded
  · refine ⟨t, ?_, h.stays, (max_eq_left (h.mem_recorded.1 hrec)).symm⟩
    unfold EpochTuner.noteSlotDecided
    rw [if_pos hrec]
  · have heq : slot = t.slotRecorded.length := by
      have := mt h.mem_recorded.2 hrec
      omega
    obtain ⟨latency, hnoted⟩ : ∃ latency, t.noteSlotDecided slot now =
        ({ t with slotRecorded := slot :: t.slotRecorded } : EpochTuner).absorb slot latency := by
      unfold EpochTuner.noteSlotDecided
      rw [if_neg hrec]
      exact ⟨_, rfl⟩
    obtain ⟨t', ht', hcausal, hlist⟩ := h.absorb latency rfl
    have hok : t.noteSlotDecided slot now = .ok t' := by
      rw [hnoted, heq]
      exact ht'
    refine ⟨t', hok, ⟨hcausal, noteSlotDecided_keeps h.configured.pinned hok, .inr hlist⟩, ?_⟩
    rw [hlist, heq]
    exact (max_eq_right (Nat.le_succ _)).symm

/-! ## What the tuner promises -/

/-- the tuner takes the first decision of slot `k`, and the open epoch closes if `k` is its last slot -/
structure Takes (t t' : EpochTuner) (k : ℕ) : Prop where
  fresh : k ∉ t.slotRecorded
  recorded : t'.slotRecorded = k :: t.slotRecorded
  epoch : t'.epoch = if k + 1 = (t.epoch + 1) * t.epochLen then t.epoch + 1 else t.epoch

/-- nothing the tuner answered for a slot has changed -/
structure Remembers (t t' : EpochTuner) : Prop where
  leader : ∀ k i, t.leaderForSlot k = .ok i → t'.leaderForSlot k = .ok i
  delay : ∀ k i delay, t.delayForSlot k i = .ok delay → t'.delayForSlot k i = .ok delay

theorem takes_of_advances (h : Causal n l d t) (hadv : Advances n l d t t') :
    t'.slotRecorded = t.slotRecorded ∧ t'.epoch = t.epoch ∨ Takes t t' t.slotRecorded.length := by
  have h' := hadv.causal
  have hlen : t'.epochLen = t.epochLen := hadv.keeps.len
  rcases hadv.records with hrec | hrec
  · exact .inl ⟨hrec, by rw [h'.epoch, h.epoch, hrec, hlen]⟩
  · refine .inr ⟨fun hmem => lt_irrefl _ (h.mem_recorded.1 hmem), hrec, ?_⟩
    obtain ⟨hclose, hopen⟩ := epoch_arith (r := t.slotRecorded.length) h.len_pos
    have hlt := Nat.mod_lt t.slotRecorded.length h.len_pos
    have hdm := Nat.div_add_mod t.slotRecorded.length t.epochLen
    have hnext : (t.slotRecorded.length / t.epochLen + 1) * t.epochLen =
        t.epochLen * (t.slotRecorded.length / t.epochLen) + t.epochLen := by ring
    rw [h'.epoch, hrec, List.length_cons, hlen, h.epoch, hnext]
    split_ifs with hlast
    · exact (hclose (by omega)).1
    · exact (hopen (by omega)).1

theorem remembers_of_keeps (h : Causal n l d t) (h' : Causal n l d t') (hk : t.Keeps t') : Remembers t t' where
  leader := fun k i hl => leaderForSlot_keeps hk hl
  delay := fun k i delay hd => by
    have hepoch : t'.epochOf k = t.epochOf k := by unfold epochOf; rw [hk.len]
    unfold delayForSlot EpochTuner.configFor at hd ⊢
    rw [hepoch]
    cases hc : t.epochConfigs.lookup (t.epochOf k) with
    | none => rw [hc] at hd; cases hd
    | some cfg =>
      rw [hc] at hd
      rw [hk.configs _ cfg hc, h'.delay, ← h.delay]
      exact hd

/-- the replica that leads an epoch, once it is configured -/
def leaderOfEpoch (t : EpochTuner) (e : ℕ) : Option NodeId := (t.epochConfigs.lookup e).map EpochConfig.leader

/-- while the tuner explores, the replicas lead in turn -/
theorem Causal.leaderOfEpoch (h : Causal n l d t) {e : ℕ} (he : e ≤ t.epoch) (hexp : e < 2 * (n + 1) + 1) :
    t.leaderOfEpoch e = some (e % (n + 1)) := by
  obtain ⟨cfg, hcfg⟩ := Option.isSome_iff_exists.1 ((h.configured.opened e).2 he)
  unfold EpochTuner.leaderOfEpoch
  rw [hcfg, Option.map_some, h.configured.rotates e cfg hcfg (by rwa [h.configured.explore])]

/-- two rotations pass by every replica twice -/
theorem Causal.leads_twice (h : Causal n l d t) (hopen : 2 * (n + 1) ≤ t.epoch + 1) {i : ℕ} (hi : i < n + 1) :
    2 ≤ ((List.range (2 * (n + 1))).filter fun e => t.leaderOfEpoch e = some i).length := by
  have hlead : ∀ e ∈ [i, n + 1 + i], e < 2 * (n + 1) ∧ t.leaderOfEpoch e = some i := by
    intro e he
    have hmod : e % (n + 1) = i ∧ e < 2 * (n + 1) := by
      rcases List.mem_pair.1 he with rfl | rfl
      · exact ⟨Nat.mod_eq_of_lt hi, by omega⟩
      · exact ⟨by rw [Nat.add_mod_left, Nat.mod_eq_of_lt hi], by omega⟩
    exact ⟨hmod.2, by rw [h.leaderOfEpoch (by omega) (by omega), hmod.1]⟩
  have hsub : [i, n + 1 + i] ⊆ (List.range (2 * (n + 1))).filter fun e => t.leaderOfEpoch e = some i := by
    intro e he
    obtain ⟨hlt, hl⟩ := hlead e he
    exact List.mem_filter.2 ⟨List.mem_range.2 hlt, by simpa using hl⟩
  have hnodup : [i, n + 1 + i].Nodup := by
    simp
  exact (List.subperm_of_subset hnodup hsub).length_le

end EpochTuner

open EpochTuner

namespace LeaderPolicy

variable {n l d slot : ℕ} {t : EpochTuner}

theorem leaderFor_tuned (h : Causal n l d t) (hs : slot ≤ t.slotRecorded.length) :
    ∃ leader, (tuned t).leaderFor slot = .ok leader := by
  obtain ⟨cfg, hcfg⟩ := h.configFor hs
  exact ⟨some cfg.leader, by simp only [leaderFor, leaderForSlot, hcfg]⟩

theorem delayFor_tuned (h : Causal n l d t) (hs : slot ≤ t.slotRecorded.length) (id : NodeId) :
    ∃ delay, (tuned t).delayFor slot id = .ok delay := by
  obtain ⟨cfg, hcfg⟩ := h.configFor hs
  exact ⟨_, by simp only [delayFor, delayForSlot, hcfg]; rfl⟩

end LeaderPolicy

/-! ## What a callback does to the tuner -/

namespace Proposer

variable {p : Proposer Command} {e : Panic}

theorem processPhase_error (h : p.processPhase = .error e) : ¬ e.Epochal := by
  unfold processPhase at h
  split at h
  · split at h
    · cases h
    · split at h
      · cases h
      · cases h; simp [Panic.Epochal]
  · cases h
  · split_ifs at h
  · split at h
    · cases h
    · cases h; simp [Panic.Epochal]

theorem processQuorum_error {draw : NodeId → Draw} (h : p.processQuorum draw = .error e) : ¬ e.Epochal := by
  unfold processQuorum at h
  split_ifs at h
  · cases hp : p.processPhase with
    | error x =>
      rw [hp] at h
      cases h
      exact processPhase_error hp
    | ok q =>
      rw [hp] at h
      dsimp only at h
      split_ifs at h
  · split at h
    · cases h; simp [Panic.Epochal]
    · split at h
      · cases h; simp [Panic.Epochal]
      · cases h

/-- a proposer never asks the tuner -/
theorem onResponse_error {src : NodeId} {resp : RecordResponse Command} {draw : NodeId → Draw}
    (h : p.onResponse src resp draw = .error e) : ¬ e.Epochal := by
  unfold onResponse at h
  by_cases hdec : p.decided.isSome = true
  · rw [if_pos hdec] at h; cases h
  rw [if_neg hdec] at h
  by_cases hstale : resp.slot ≠ p.slot ∨ resp.reqStep ≠ p.step
  · rw [if_pos hstale] at h; cases h
  rw [if_neg hstale] at h
  extract_lets q at h
  split_ifs at h
  exact processQuorum_error h

theorem resend_error {rs : List NodeId} (h : p.resend rs = .error e) : ¬ e.Epochal := by
  induction rs with
  | nil => cases h
  | cons r rs ih =>
    unfold resend at h
    split at h
    · cases h; simp [Panic.Epochal]
    · split at h
      · next x hx => cases h; exact ih hx
      · cases h

theorem onTimer_error {id : TimerId} {localStep : ℕ} {draw : NodeId → Draw}
    (h : p.onTimer id localStep draw = .error e) : ¬ e.Epochal := by
  unfold onTimer at h
  split at h
  · cases h
  · cases h
  · cases h
  · split_ifs at h
    split at h
    · next x hx => cases h; exact resend_error hx
    · cases h

end Proposer

namespace SmrNode

variable {n l d : ℕ} {ctx : SmrCtx} {nd : SmrNode} {sh : Shared} {t : EpochTuner}

/-- a callback that starts an attempt or does nothing asks the tuner, and tells it no decision -/
def Asks (n l d : ℕ) (t : EpochTuner) (nd : SmrNode) : SmrOutcome → Prop
  | .error e => ¬ e.Epochal
  | .ok (nd', sh', _) => nd'.durable.nextSlot = nd.durable.nextSlot ∧
      ∃ t', sh'.policy = .tuned t' ∧ Advances n l d t t' ∧ t'.slotRecorded = t.slotRecorded

/-- all that a callback does to the tuner: it asks what the tuner can answer, and tells it of every slot that the replica
applies -/
def Serves (n l d : ℕ) (t : EpochTuner) (nd : SmrNode) : SmrOutcome → Prop
  | .error e => ¬ e.Epochal
  | .ok (nd', sh', _) => nd.durable.nextSlot ≤ nd'.durable.nextSlot ∧
      ∃ t', sh'.policy = .tuned t' ∧ Advances n l d t t' ∧
        t'.slotRecorded.length = max t.slotRecorded.length nd'.durable.nextSlot

theorem Asks.serves {o : SmrOutcome} (h : Asks n l d t nd o) (hs : nd.durable.nextSlot ≤ t.slotRecorded.length) :
    Serves n l d t nd o := by
  cases o with
  | error e => exact h
  | ok r =>
    obtain ⟨hnext, t', hp, hadv, hrec⟩ := h
    exact ⟨hnext.ge, t', hp, hadv, by rw [hrec, hnext, max_eq_left hs]⟩

/-- after the decision of the frontier was told, whatever the replica asks at the next slot -/
theorem Asks.serves_after {t' : EpochTuner} {nd₁ : SmrNode} {o : SmrOutcome} (h : Asks n l d t' nd₁ o)
    (hadv : Advances n l d t t') (hnext : nd₁.durable.nextSlot = nd.durable.nextSlot + 1)
    (hlen : t'.slotRecorded.length = max t.slotRecorded.length (nd.durable.nextSlot + 1)) : Serves n l d t nd o := by
  cases o with
  | error e => exact h
  | ok r =>
    obtain ⟨hnext', t'', hp, hadv', hrec⟩ := h
    rw [hnext] at hnext'
    refine ⟨by omega, t'', hp, ⟨hadv'.causal, hadv.keeps.trans hadv'.keeps, ?_⟩, by rw [hrec, hlen, hnext']⟩
    rw [hrec]
    exact hadv.records

theorem asks_same (hp : sh.policy = .tuned t) (h : Causal n l d t) (fx : List (Effect SmrMsg)) :
    Asks n l d t nd (.ok (nd, sh, fx)) := ⟨rfl, t, hp, h.stays, rfl⟩

theorem startAttempt_asks (hp : sh.policy = .tuned t) (h : Causal n l d t)
    (hs : nd.durable.nextSlot ≤ t.slotRecorded.length) (origin : AttemptOrigin) (command : Command)
    (leader : Option NodeId) : Asks n l d t nd (startAttempt ctx nd sh origin command leader) := by
  obtain ⟨delay, hdelay⟩ := LeaderPolicy.delayFor_tuned h hs ctx.selfId
  obtain ⟨hadv, hrec⟩ := h.noteAttemptStart nd.durable.nextSlot ctx.now
  unfold startAttempt
  dsimp only
  rw [hp, hdelay]
  exact ⟨rfl, t.noteAttemptStart nd.durable.nextSlot ctx.now, rfl, hadv, hrec⟩

theorem beginNextAttempt_asks (hp : sh.policy = .tuned t) (h : Causal n l d t)
    (hs : nd.durable.nextSlot ≤ t.slotRecorded.length) : Asks n l d t nd (beginNextAttempt ctx nd sh) := by
  unfold beginNextAttempt
  split_ifs
  · exact asks_same hp h []
  · cases hq : nd.queue with
    | nil => exact asks_same hp h []
    | cons op queue =>
      obtain ⟨leader, hleader⟩ := LeaderPolicy.leaderFor_tuned h hs
      dsimp only
      rw [hp, hleader]
      exact @startAttempt_asks n l d ctx { nd with queue := queue } sh t hp h hs (.op op.opId) op.command leader

theorem beginCatchUp_asks (hp : sh.policy = .tuned t) (h : Causal n l d t)
    (hs : nd.durable.nextSlot ≤ t.slotRecorded.length) : Asks n l d t nd (beginCatchUp ctx nd sh) := by
  unfold beginCatchUp
  split_ifs
  · exact asks_same hp h []
  · have hstart : Asks n l d t nd (startAttempt ctx nd sh .catchUp (catchUpProbe nd.durable.nextSlot) none) :=
      startAttempt_asks hp h hs .catchUp (catchUpProbe nd.durable.nextSlot) none
    dsimp only
    cases ho : startAttempt ctx nd sh .catchUp (catchUpProbe nd.durable.nextSlot) none with
    | error e => rw [ho] at hstart; exact hstart
    | ok r => rw [ho] at hstart; exact hstart

@[simp] theorem policy_complete (sh : Shared) (id : OpId) (now slot : ℕ) (outcome : OpOutcome) :
    (sh.complete id now slot outcome).policy = sh.policy := by
  unfold Shared.complete
  split <;> rfl

/-- a decision is told to the tuner, and the replica goes on from the next slot -/
theorem finishAttempt_serves (hp : sh.policy = .tuned t) (h : Causal n l d t)
    (hs : nd.durable.nextSlot ≤ t.slotRecorded.length) (decided : Command) :
    Serves n l d t nd (finishAttempt ctx nd sh decided) := by
  unfold finishAttempt
  cases hc : nd.currentAttempt with
  | none => simp [Serves, Panic.Epochal]
  | some attempt =>
    dsimp only
    by_cases hf : attempt.slot = nd.durable.nextSlot
    swap
    · rw [if_pos hf]
      simp [Serves, Panic.Epochal]
    rw [if_neg (not_not.2 hf)]
    obtain ⟨t', ht', hadv, hlen⟩ := h.noteSlotDecided (hf ▸ hs) ctx.now
    have hpolicy : sh.policy.noteSlotDecided attempt.slot ctx.now = .ok (.tuned t') := by
      rw [hp]
      unfold LeaderPolicy.noteSlotDecided
      dsimp only
      rw [ht']
    rw [hpolicy]
    dsimp only
    rw [hf] at hlen
    have hs' : nd.durable.nextSlot + 1 ≤ t'.slotRecorded.length := hlen ▸ le_max_right _ _
    cases attempt.origin with
    | op id =>
      dsimp only
      split_ifs
      · exact (beginNextAttempt_asks (by simp) hadv.causal hs').serves_after hadv rfl hlen
      · exact (beginNextAttempt_asks rfl hadv.causal hs').serves_after hadv rfl hlen
    | catchUp =>
      dsimp only
      split_ifs
      · exact (beginNextAttempt_asks rfl hadv.causal hs').serves_after hadv rfl hlen
      · exact (beginCatchUp_asks rfl hadv.causal hs').serves_after hadv rfl hlen

theorem onReply_serves (hp : sh.policy = .tuned t) (h : Causal n l d t) (hs : nd.durable.nextSlot ≤ t.slotRecorded.length)
    (src : NodeId) (resp : RecordResponse Command) : Serves n l d t nd (onReply ctx src resp nd sh) := by
  unfold onReply
  cases hc : nd.currentAttempt with
  | none => exact (asks_same hp h []).serves hs
  | some attempt =>
    dsimp only
    split_ifs
    · exact (asks_same hp h []).serves hs
    · cases hr : attempt.proposer.onResponse src resp ctx.rng with
      | error e => exact Proposer.onResponse_error hr
      | ok r =>
        obtain ⟨p, fx⟩ := r
        dsimp only [driveAttempt]
        cases hd : p.decided with
        | none => exact ⟨le_rfl, t, hp, h.stays, (max_eq_left hs).symm⟩
        | some decided =>
          have hs' : (nd.withAttempt { attempt with proposer := p }).durable.nextSlot ≤ t.slotRecorded.length := hs
          have hfin := @finishAttempt_serves n l d ctx _ sh t hp h hs' decided
          dsimp only
          cases ho : finishAttempt ctx (nd.withAttempt { attempt with proposer := p }) sh decided with
          | error e => rw [ho] at hfin; exact hfin
          | ok r => rw [ho] at hfin; exact hfin

/-- **What a message does** -/
theorem onMessage_serves (hp : sh.policy = .tuned t) (h : Causal n l d t)
    (hs : nd.durable.nextSlot ≤ t.slotRecorded.length) (src : NodeId) (payload : SmrMsg) :
    Serves n l d t nd (onMessage ctx src payload nd sh) := by
  cases payload with
  | request req => exact ⟨le_rfl, t, hp, h.stays, (max_eq_left hs).symm⟩
  | response resp => exact onReply_serves hp h hs src resp

/-- **What a timer does** -/
theorem onTimer_serves (hp : sh.policy = .tuned t) (h : Causal n l d t) (hs : nd.durable.nextSlot ≤ t.slotRecorded.length)
    (id : TimerId) : Serves n l d t nd (onTimer ctx id nd sh) := by
  unfold onTimer
  split_ifs
  · exact (beginNextAttempt_asks hp h hs).serves hs
  · unfold onCatchUpWatchdog
    split
    · exact (asks_same hp h []).serves hs
    · split_ifs
      · exact (asks_same hp h []).serves hs
      · exact (asks_same hp h []).serves hs
      · have hprobe : Asks n l d t { nd with currentAttempt := none }
            (beginCatchUp ctx { nd with currentAttempt := none } sh) := beginCatchUp_asks hp h hs
        exact hprobe.serves hs
  · cases nd.currentAttempt with
    | none => exact (asks_same hp h []).serves hs
    | some attempt =>
      dsimp only
      cases hr : attempt.proposer.onTimer id nd.localStep ctx.rng with
      | error e => exact Proposer.onTimer_error hr
      | ok r => exact ⟨le_rfl, t, hp, h.stays, (max_eq_left hs).symm⟩

/-- **What a restart does** -/
theorem onRestart_serves (hp : sh.policy = .tuned t) (h : Causal n l d t)
    (hs : nd.durable.nextSlot ≤ t.slotRecorded.length) : Serves n l d t nd (onRestart ctx nd sh) := by
  have hprobe : Asks n l d t { nd with queue := [], currentAttempt := none, metrics := .default }
      (beginCatchUp ctx { nd with queue := [], currentAttempt := none, metrics := .default } sh) :=
    beginCatchUp_asks hp h hs
  exact hprobe.serves hs

end SmrNode

/-! ## The tuner along a run -/

namespace Smr

variable {n l d : ℕ} {w w' : Smr} {t t' : EpochTuner} {op : SmrOp}

/-- the tuner's segment ends where the furthest replica is -/
structure InStep (n l d : ℕ) (w : Smr) (t : EpochTuner) : Prop where
  policy : w.shared.policy = .tuned t
  causal : Causal n l d t
  behind : ∀ i, nextSlot w i ≤ t.slotRecorded.length
  reached : ∃ i, nextSlot w i = t.slotRecorded.length
  calm : ∀ e, w.panicked = some e → ¬ e.Epochal

theorem nextSlot_of_node {i : NodeId} {nd : SmrNode} (h : w.nodes i = some nd) : nextSlot w i = nd.durable.nextSlot := by
  unfold nextSlot
  rw [h]

theorem InStep.of_same (h : InStep n l d w t) (hnodes : w'.nodes = w.nodes) (hshared : w'.shared = w.shared)
    (hpanicked : w'.panicked = w.panicked) : InStep n l d w' t := by
  have hnext : nextSlot w' = nextSlot w := by
    unfold nextSlot
    rw [hnodes]
  exact ⟨by rw [hshared]; exact h.policy, h.causal, by rw [hnext]; exact h.behind, by rw [hnext]; exact h.reached,
    by rw [hpanicked]; exact h.calm⟩

/-- a callback keeps the tuner in step -/
theorem InStep.perform (h : InStep n l d w t) {i : NodeId} {nd : SmrNode} (hnd : w.nodes i = some nd) {o : SmrOutcome}
    (ho : SmrNode.Serves n l d t nd o) : ∃ t', InStep n l d (w.perform i o) t' ∧ Advances n l d t t' := by
  cases o with
  | error e =>
    refine ⟨t, ⟨h.policy, h.causal, h.behind, h.reached, fun x hx => ?_⟩, h.causal.stays⟩
    obtain rfl := Option.some.inj hx
    exact ho
  | ok r =>
    obtain ⟨nd', sh', fx⟩ := r
    obtain ⟨hmono, t', hp, hadv, hlen⟩ := ho
    have hself : nextSlot (w.perform i (.ok (nd', sh', fx))) i = nd'.durable.nextSlot :=
      nextSlot_of_node (Function.update_self ..)
    have hother : ∀ j, j ≠ i → nextSlot (w.perform i (.ok (nd', sh', fx))) j = nextSlot w j := by
      intro j hj
      unfold nextSlot World.perform
      dsimp only
      rw [Function.update_of_ne hj]
    have hbefore := nextSlot_of_node hnd
    refine ⟨t', ⟨hp, hadv.causal, fun j => ?_, ?_, h.calm⟩, hadv⟩
    · by_cases hj : j = i
      · subst hj
        rw [hself, hlen]
        exact le_max_right _ _
      · rw [hother j hj, hlen]
        exact (h.behind j).trans (le_max_left _ _)
    · rcases le_total t.slotRecorded.length nd'.durable.nextSlot with hle | hle
      · exact ⟨i, by rw [hself, hlen, max_eq_right hle]⟩
      · -- whoever was furthest still is
        obtain ⟨j, hj⟩ := h.reached
        by_cases hji : j = i
        · subst hji
          exact ⟨j, by rw [hself, hlen, max_eq_left hle]; omega⟩
        · exact ⟨j, by rw [hother j hji, hlen, max_eq_left hle, hj]⟩

/-- **Step lemma.** -/
theorem inStep_step (h : InStep n l d w t) (op : SmrOp) : ∃ t', InStep n l d (step w op) t' ∧ Advances n l d t t' := by
  have hok : ∀ {i : NodeId} {nd : SmrNode}, w.nodes i = some nd → nd.durable.nextSlot ≤ t.slotRecorded.length :=
    fun {i _} hnd => nextSlot_of_node hnd ▸ h.behind i
  cases op with
  | submit j c =>
    refine ⟨t, ?_, h.causal.stays⟩
    rw [step]
    split_ifs
    · exact h
    unfold submit
    split_ifs
    · exact ⟨h.policy, h.causal, h.behind, h.reached, fun e he => by cases he; simp [Panic.Epochal]⟩
    cases hn : w.nodes j with
    | none => exact ⟨h.policy, h.causal, h.behind, h.reached, fun e he => by cases he; simp [Panic.Epochal]⟩
    | some nd =>
      -- a submission only queues
      have hnext : ∀ i, nextSlot { w with nodes := Function.update w.nodes j (some (nd.enqueue w.shared.nextOpId c).1) } i =
          nextSlot w i := by
        intro i
        by_cases hi : i = j
        · subst hi
          rw [nextSlot_of_node hn, nextSlot]
          dsimp only
          rw [Function.update_self]
          rfl
        · unfold nextSlot
          dsimp only
          rw [Function.update_of_ne hi]
      obtain ⟨k, hk⟩ := h.reached
      dsimp only
      split_ifs
      · exact ⟨h.policy, h.causal, fun i => (hnext i).trans_le (h.behind i), ⟨k, (hnext k).trans hk⟩, h.calm⟩
      · exact ⟨h.policy, h.causal, fun i => (hnext i).trans_le (h.behind i), ⟨k, (hnext k).trans hk⟩, h.calm⟩
  | env op =>
    show ∃ t', InStep n l d (w.env SmrNode.behaviour op) t' ∧ _
    rcases World.env_cases SmrNode.behaviour w op with hc | ⟨w₀, e, nd, rng, hc, -, hnd, -, hw⟩ |
      ⟨w₀, m, nd, rng, hc, -, hnd, -, -, hw⟩ | ⟨w₀, i, nd, rng, hc, hnd, -, hw⟩
    · exact ⟨t, h.of_same hc.nodes hc.shared hc.panicked, h.causal.stays⟩
    · rw [hw]
      have h₀ : InStep n l d { w₀ with trace := w₀.trace ++ [TraceEvent.deliver e] } t :=
        h.of_same hc.nodes hc.shared hc.panicked
      refine h₀.perform (hc.nodes ▸ hnd) ?_
      exact SmrNode.onMessage_serves (hc.shared ▸ h.policy) h.causal (hok hnd) e.src e.payload
    · rw [hw]
      refine (h.of_same hc.nodes hc.shared hc.panicked).perform (hc.nodes ▸ hnd) ?_
      exact SmrNode.onTimer_serves (hc.shared ▸ h.policy) h.causal (hok hnd) m.id
    · rw [hw]
      refine (h.of_same hc.nodes hc.shared hc.panicked).perform (hc.nodes ▸ hnd) ?_
      exact SmrNode.onRestart_serves (hc.shared ▸ h.policy) h.causal (hok hnd)

/-- **Run lemma.** -/
theorem inStep_run (h : InStep n l d w t) (ops : List SmrOp) :
    ∃ t', InStep n l d (w.run ops) t' ∧ t.Keeps t' := by
  induction ops generalizing w t with
  | nil => exact ⟨t, h, h.causal.stays.keeps⟩
  | cons op ops ih =>
    obtain ⟨t₁, h₁, hadv⟩ := inStep_step h op
    obtain ⟨t', h', hkeep⟩ := ih h₁
    exact ⟨t', h', hadv.keeps.trans hkeep⟩

theorem inStep_new (n l d : ℕ) :
    InStep n l d (newWithTuning n l d) (.new 0 ((List.range n).map (· + 1)) l d) where
  policy := rfl
  causal := causal_new n l d
  behind := fun i => by
    cases hn : (newWithTuning n l d).nodes i with
    | none => unfold nextSlot; rw [hn]; exact le_rfl
    | some nd => rw [nextSlot_of_node hn, build_node hn]; exact le_rfl
  reached := ⟨0, rfl⟩
  calm := fun e he => by cases he

/-- a segment of slots ends before `k` exactly if no replica has applied slot `k` -/
theorem InStep.mem_recorded (h : InStep n l d w t) (k : ℕ) : k ∈ t.slotRecorded ↔ ∃ i, k < nextSlot w i := by
  rw [h.causal.mem_recorded]
  constructor
  · intro hk
    obtain ⟨i, hi⟩ := h.reached
    exact ⟨i, hi ▸ hk⟩
  · rintro ⟨i, hi⟩
    exact hi.trans_le (h.behind i)

/-- **The tuner is causally consistent** in every run of a tuned cluster: none of its panics is raised, every question a
replica can ask has an answer, the first decision of each slot is recorded once and in order, an epoch closes with the
first decision of its last slot, no answer ever changes, and the schedules rank all replicas, each of which leads twice
while the tuner explores. -/
theorem tuner_causally_consistent (n l d : ℕ) (ops : List SmrOp) :
    ∃ t, ((newWithTuning n l d).run ops).shared.policy = .tuned t ∧
    (∀ e, ((newWithTuning n l d).run ops).panicked = some e → e ≠ .epochNotOpened ∧ e ≠ .epochOutOfOrder) ∧
    (∀ i k, k ≤ nextSlot ((newWithTuning n l d).run ops) i → ∃ leader, t.leaderForSlot k = .ok leader) ∧
    t.slotRecorded = (List.range t.slotRecorded.length).reverse ∧
    (∀ k, k ∈ t.slotRecorded ↔ ∃ i, k < nextSlot ((newWithTuning n l d).run ops) i) ∧
    (∀ op, ∃ t', (step ((newWithTuning n l d).run ops) op).shared.policy = .tuned t' ∧
      (t'.slotRecorded = t.slotRecorded ∧ t'.epoch = t.epoch ∨ Takes t t' t.slotRecorded.length)) ∧
    (∀ more, ∃ t', ((newWithTuning n l d).run (ops ++ more)).shared.policy = .tuned t' ∧ Remembers t t') ∧
    (∀ e, (t.epochConfigs.lookup e).isSome ↔ e ≤ t.epoch) ∧
    (∀ e cfg, t.epochConfigs.lookup e = some cfg → cfg.Sound (List.range (n + 1))) ∧
    (2 * (n + 1) ≤ t.epoch + 1 → ∀ i < n + 1,
      2 ≤ ((List.range (2 * (n + 1))).filter fun e => t.leaderOfEpoch e = some i).length) := by
  obtain ⟨t, h, -⟩ := inStep_run (inStep_new n l d) ops
  refine ⟨t, h.policy, fun e he => not_or.1 (h.calm e he), fun i k hk => ?_, h.causal.recorded, h.mem_recorded,
    fun op => ?_, fun more => ?_, h.causal.configured.opened, fun e cfg he => ?_,
    fun hopen i hi => h.causal.leads_twice hopen hi⟩
  · obtain ⟨cfg, hcfg⟩ := h.causal.configFor (hk.trans (h.behind i))
    exact ⟨cfg.leader, by unfold leaderForSlot; rw [hcfg]⟩
  · obtain ⟨t', h', hadv⟩ := inStep_step h op
    exact ⟨t', h'.policy, takes_of_advances h.causal hadv⟩
  · obtain ⟨t', h', hkeep⟩ := inStep_run h more
    refine ⟨t', ?_, remembers_of_keeps h.causal h'.causal hkeep⟩
    rw [run, Runs.run_append]
    exact h'.policy
  · rw [← h.causal.configured.replicas]
    exact h.causal.configured.sound e cfg he

end Smr

end Queso
