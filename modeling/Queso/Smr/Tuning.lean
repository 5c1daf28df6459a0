/-
Which replica leads a slot: a fixed leader, none, or the one that epoch tuning pinned to the slot's epoch.

The tuner leads each epoch by one replica. It rotates through all of them for `2n + 1` epochs, then takes the fastest,
and goes on switching when the leader's last epoch was slower than that of the next replica in its schedule. An epoch
closes when all its slots have decided, and the next one's leader and schedule are pinned at that moment; they never
change afterwards.

`leaderForSlot` and `absorb` panic outside the epochs they are meant for.
-/
import Mathlib.Data.List.AList
import Queso.Sim.Node

namespace Queso

structure EpochConfig where
  leader : NodeId
  schedule : List NodeId
deriving DecidableEq

structure RunningAvg where
  sum : ℕ
  count : ℕ
deriving DecidableEq

namespace RunningAvg

def zero : RunningAvg := ⟨0, 0⟩

def add (r : RunningAvg) (sample : ℕ) : RunningAvg := ⟨r.sum + sample, r.count + 1⟩

def avg (r : RunningAvg) : Option ℕ := if 0 < r.count then some (r.sum / r.count) else none

end RunningAvg

/-- `u64::MAX`, the rank of a replica that was never measured -/
def UNMEASURED : ℕ := 2 ^ 64 - 1

structure EpochTuner where
  replicas : List NodeId
  epochLen : ℕ
  baseDelay : ℕ
  exploreEpochs : ℕ
  epoch : ℕ
  leader : NodeId
  schedule : List NodeId
  stats : AList fun _ : NodeId => RunningAvg
  recent : AList fun _ : NodeId => ℕ
  epochSamples : List ℕ
  slotStarted : AList fun _ : ℕ => ℕ
  slotRecorded : List ℕ
  epochConfigs : AList fun _ : ℕ => EpochConfig
  leaderLog : List NodeId
  switchCount : ℕ

namespace EpochTuner

/-- a leader, then the other replicas in the order of `key` -/
def leaderFirst (leader : NodeId) (replicas : List NodeId) (key : NodeId → ℕ) : List NodeId :=
  leader :: (replicas.filter (· ≠ leader)).insertionSort fun r s => toLex (key r, r) ≤ toLex (key s, s)

/-- all replicas by their average over the epochs they led -/
def rankedBySpeed (replicas : List NodeId) (stats : AList fun _ : NodeId => RunningAvg) : List NodeId :=
  replicas.insertionSort fun r s =>
    toLex (((stats.lookup r).bind RunningAvg.avg).getD UNMEASURED, r) ≤
      toLex (((stats.lookup s).bind RunningAvg.avg).getD UNMEASURED, s)

/-- a tuner over the replicas `r :: rs`, which are sorted and distinct -/
def new (r : NodeId) (rs : List NodeId) (epochLen baseDelay : ℕ) : EpochTuner where
  replicas := r :: rs
  epochLen := max epochLen 1
  baseDelay := baseDelay
  exploreEpochs := 2 * (r :: rs).length + 1
  epoch := 0
  leader := r
  schedule := leaderFirst r (r :: rs) fun _ => 0
  stats := ∅
  recent := ∅
  epochSamples := []
  slotStarted := ∅
  slotRecorded := []
  epochConfigs := (∅ : AList fun _ : ℕ => EpochConfig).insert 0 ⟨r, leaderFirst r (r :: rs) fun _ => 0⟩
  leaderLog := [r]
  switchCount := 0

def epochOf (t : EpochTuner) (slot : ℕ) : ℕ := slot / t.epochLen

def configFor (t : EpochTuner) (slot : ℕ) : Except Panic EpochConfig :=
  match t.epochConfigs.lookup (t.epochOf slot) with
  | some cfg => .ok cfg
  | none => .error .epochNotOpened

def leaderForSlot (t : EpochTuner) (slot : ℕ) : Except Panic NodeId :=
  match t.configFor slot with
  | .error e => .error e
  | .ok cfg => .ok cfg.leader

/-- the rank of a replica in the slot's schedule, times the base delay -/
def delayForSlot (t : EpochTuner) (slot : ℕ) (id : NodeId) : Except Panic ℕ :=
  match t.configFor slot with
  | .error e => .error e
  | .ok cfg => .ok (cfg.schedule.idxOf id * t.baseDelay)

def noteAttemptStart (t : EpochTuner) (slot now : ℕ) : EpochTuner :=
  if slot ∈ t.slotStarted then t else { t with slotStarted := t.slotStarted.insert slot now }

/-- take the closing epoch's average into the leader's statistics -/
def measure (t : EpochTuner) : EpochTuner :=
  if t.epochSamples = [] then t
  else
    let avg := t.epochSamples.sum / t.epochSamples.length
    { t with
      stats := t.stats.insert t.leader (((t.stats.lookup t.leader).getD .zero).add avg)
      recent := t.recent.insert t.leader avg }

/-- the leader has fallen behind the next replica of its schedule -/
def challenger (t : EpochTuner) : Option NodeId :=
  match t.schedule[1]? with
  | none => none
  | some candidate =>
    match t.recent.lookup t.leader, t.recent.lookup candidate with
    | some currentAvg, some candidateAvg => if candidateAvg < currentAvg then some candidate else none
    | _, _ => none

/-- leader and schedule of the epoch `next`, and whether the leader was switched -/
def chooseNext (t : EpochTuner) (next : ℕ) : EpochConfig × ℕ :=
  if next < t.exploreEpochs then
    let leader := t.replicas.getD (next % t.replicas.length) 0
    (⟨leader, leaderFirst leader t.replicas fun _ => 0⟩, 0)
  else if next = t.exploreEpochs then
    let ranked := rankedBySpeed t.replicas t.stats
    (⟨ranked.headD 0, ranked⟩, 0)
  else
    let leader := t.challenger.getD t.leader
    (⟨leader, leaderFirst leader t.replicas fun r => (t.recent.lookup r).getD UNMEASURED⟩,
      if t.challenger.isSome then 1 else 0)

def closeEpoch (t : EpochTuner) : EpochTuner :=
  let t := { t.measure with epochSamples := [] }
  let next := t.epoch + 1
  let (cfg, switched) := t.chooseNext next
  { t with
    epoch := next
    leader := cfg.leader
    schedule := cfg.schedule
    epochConfigs := t.epochConfigs.insert next cfg
    leaderLog := t.leaderLog ++ [cfg.leader]
    switchCount := t.switchCount + switched }

def absorb (t : EpochTuner) (slot latency : ℕ) : Except Panic EpochTuner :=
  if t.epochOf slot ≠ t.epoch then .error .epochOutOfOrder
  else
    let t := { t with epochSamples := t.epochSamples ++ [latency] }
    .ok (if t.epochLen ≤ t.epochSamples.length then t.closeEpoch else t)

def noteSlotDecided (t : EpochTuner) (slot now : ℕ) : Except Panic EpochTuner :=
  if slot ∈ t.slotRecorded then .ok t
  else
    let latency := match t.slotStarted.lookup slot with
      | some started => now - started
      | none => 0
    { t with slotRecorded := slot :: t.slotRecorded }.absorb slot latency

end EpochTuner

/-- who leads a slot -/
inductive LeaderPolicy where
  | fixed (leader : Option NodeId)
  | tuned (tuner : EpochTuner)

namespace LeaderPolicy

def leaderFor (p : LeaderPolicy) (slot : ℕ) : Except Panic (Option NodeId) :=
  match p with
  | fixed leader => .ok leader
  | tuned t =>
    match t.leaderForSlot slot with
    | .error e => .error e
    | .ok leader => .ok (some leader)

def delayFor (p : LeaderPolicy) (slot : ℕ) (id : NodeId) : Except Panic (Option ℕ) :=
  match p with
  | fixed _ => .ok none
  | tuned t =>
    match t.delayForSlot slot id with
    | .error e => .error e
    | .ok delay => .ok (some delay)

def noteAttemptStart (p : LeaderPolicy) (slot now : ℕ) : LeaderPolicy :=
  match p with
  | fixed leader => fixed leader
  | tuned t => tuned (t.noteAttemptStart slot now)

def noteSlotDecided (p : LeaderPolicy) (slot now : ℕ) : Except Panic LeaderPolicy :=
  match p with
  | fixed leader => .ok (fixed leader)
  | tuned t =>
    match t.noteSlotDecided slot now with
    | .error e => .error e
    | .ok t => .ok (tuned t)

end LeaderPolicy

/-! ## Leaders are pinned -/

namespace EpochTuner

/-- no epoch past the open one is configured -/
def Pinned (t : EpochTuner) : Prop := ∀ e ∈ t.epochConfigs, e ≤ t.epoch

theorem pinned_new (r : NodeId) (rs : List NodeId) (epochLen baseDelay : ℕ) : (new r rs epochLen baseDelay).Pinned := by
  intro e he
  have he' : e ∈ (∅ : AList fun _ : ℕ => EpochConfig).insert 0 ⟨r, leaderFirst r (r :: rs) fun _ => 0⟩ := he
  rcases AList.mem_insert _ |>.1 he' with rfl | hnone
  · exact le_rfl
  · exact absurd hnone (AList.notMem_empty _)

/-- `t'` continues `t`: the slots' epochs are the same and every configured epoch stays as it is -/
structure Keeps (t t' : EpochTuner) : Prop where
  len : t'.epochLen = t.epochLen
  configs : ∀ e cfg, t.epochConfigs.lookup e = some cfg → t'.epochConfigs.lookup e = some cfg
  pinned : t'.Pinned

theorem closeEpoch_keeps {t : EpochTuner} (h : t.Pinned) : t.Keeps t.closeEpoch := by
  have hconfigs : t.measure.epochConfigs = t.epochConfigs := by unfold measure; split_ifs <;> rfl
  have hepoch : t.measure.epoch = t.epoch := by unfold measure; split_ifs <;> rfl
  have hlen : t.measure.epochLen = t.epochLen := by unfold measure; split_ifs <;> rfl
  refine ⟨hlen, fun e cfg he => ?_, fun e he => ?_⟩
  · -- the epoch that opens was not configured
    have hmem : e ∈ t.epochConfigs := AList.lookup_isSome.1 (by rw [he]; rfl)
    have hle := h e hmem
    have hne : e ≠ t.measure.epoch + 1 := by omega
    show (AList.insert (t.measure.epoch + 1) _ t.measure.epochConfigs).lookup e = some cfg
    rw [AList.lookup_insert_ne hne, hconfigs, he]
  · have he' : e ∈ AList.insert (t.measure.epoch + 1) _ t.measure.epochConfigs := he
    show e ≤ t.measure.epoch + 1
    rcases AList.mem_insert _ |>.1 he' with rfl | hold
    · exact le_rfl
    · rw [hconfigs] at hold
      have := h e hold
      omega

theorem absorb_keeps {t t' : EpochTuner} {slot latency : ℕ} (h : t.Pinned) (ht : t.absorb slot latency = .ok t') :
    t.Keeps t' := by
  unfold absorb at ht
  by_cases hord : t.epochOf slot ≠ t.epoch
  · rw [if_pos hord] at ht; exact absurd ht (by simp)
  · rw [if_neg hord] at ht
    obtain rfl := Except.ok.inj ht
    dsimp only
    split_ifs
    · have hkeep := closeEpoch_keeps (t := { t with epochSamples := t.epochSamples ++ [latency] }) h
      exact ⟨hkeep.len, hkeep.configs, hkeep.pinned⟩
    · exact ⟨rfl, fun _ _ he => he, h⟩

theorem noteSlotDecided_keeps {t t' : EpochTuner} {slot now : ℕ} (h : t.Pinned)
    (ht : t.noteSlotDecided slot now = .ok t') : t.Keeps t' := by
  unfold noteSlotDecided at ht
  split_ifs at ht with hrec
  · obtain rfl := Except.ok.inj ht
    exact ⟨rfl, fun _ _ he => he, h⟩
  · have hkeep := absorb_keeps (t := { t with slotRecorded := slot :: t.slotRecorded }) h ht
    exact ⟨hkeep.len, hkeep.configs, hkeep.pinned⟩

theorem leaderForSlot_keeps {t t' : EpochTuner} (h : t.Keeps t') {slot : ℕ} {leader : NodeId}
    (hl : t.leaderForSlot slot = .ok leader) : t'.leaderForSlot slot = .ok leader := by
  unfold leaderForSlot configFor at hl ⊢
  have hepoch : t'.epochOf slot = t.epochOf slot := by unfold epochOf; rw [h.len]
  rw [hepoch]
  cases hc : t.epochConfigs.lookup (t.epochOf slot) with
  | none => rw [hc] at hl; exact absurd hl (by simp)
  | some cfg =>
    rw [hc] at hl
    rw [h.configs _ cfg hc]
    exact hl

end EpochTuner

namespace LeaderPolicy

def Pinned : LeaderPolicy → Prop
  | fixed _ => True
  | tuned t => t.Pinned

/-- the leader that the policy assigns to a slot, where it assigns one -/
def leaderOf (p : LeaderPolicy) (slot : ℕ) : Option NodeId :=
  match p.leaderFor slot with
  | .ok leader => leader
  | .error _ => none

/-- `p'` continues `p`: an assigned leader stays -/
structure Keeps (p p' : LeaderPolicy) : Prop where
  leader : ∀ slot i, p.leaderOf slot = some i → p'.leaderOf slot = some i
  pinned : p'.Pinned

theorem Keeps.trans {p q r : LeaderPolicy} (h : p.Keeps q) (h' : q.Keeps r) : p.Keeps r :=
  ⟨fun slot i hi => h'.leader slot i (h.leader slot i hi), h'.pinned⟩

theorem Keeps.refl {p : LeaderPolicy} (h : p.Pinned) : p.Keeps p := ⟨fun _ _ hi => hi, h⟩

@[simp] theorem leaderFor_noteAttemptStart (p : LeaderPolicy) (slot now k : ℕ) :
    (p.noteAttemptStart slot now).leaderFor k = p.leaderFor k := by
  cases p with
  | fixed leader => rfl
  | tuned t =>
    have hcfg : (t.noteAttemptStart slot now).configFor k = t.configFor k := by
      unfold EpochTuner.noteAttemptStart
      split_ifs <;> rfl
    simp only [noteAttemptStart, leaderFor, EpochTuner.leaderForSlot, hcfg]

theorem noteAttemptStart_keeps {p : LeaderPolicy} (h : p.Pinned) (slot now : ℕ) :
    p.Keeps (p.noteAttemptStart slot now) := by
  refine ⟨fun k i hi => ?_, ?_⟩
  · unfold leaderOf at hi ⊢
    rwa [leaderFor_noteAttemptStart]
  · cases p with
    | fixed leader => trivial
    | tuned t =>
      show (t.noteAttemptStart slot now).Pinned
      unfold EpochTuner.noteAttemptStart
      split_ifs
      · exact h
      · exact h

theorem noteSlotDecided_keeps {p p' : LeaderPolicy} {slot now : ℕ} (h : p.Pinned)
    (hp : p.noteSlotDecided slot now = .ok p') : p.Keeps p' := by
  cases p with
  | fixed leader =>
    obtain rfl := Except.ok.inj hp
    exact .refl trivial
  | tuned t =>
    unfold noteSlotDecided at hp
    dsimp only at hp
    cases ht : t.noteSlotDecided slot now with
    | error e => rw [ht] at hp; exact absurd hp (by simp)
    | ok t' =>
      rw [ht] at hp
      obtain rfl := Except.ok.inj hp
      have hkeep := EpochTuner.noteSlotDecided_keeps h ht
      refine ⟨fun k i hi => ?_, hkeep.pinned⟩
      unfold leaderOf leaderFor at hi ⊢
      dsimp only at hi ⊢
      cases hl : t.leaderForSlot k with
      | error e => rw [hl] at hi; exact absurd hi (by simp)
      | ok leader =>
        rw [hl] at hi
        rw [EpochTuner.leaderForSlot_keeps hkeep hl]
        exact hi

end LeaderPolicy

end Queso
