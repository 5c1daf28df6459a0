/-
What one callback can do to a replica.

`startAttempt_launch` and the `_ok` lemmas invert the functions of the replica, one each: what a call that does not panic
has computed. Every callback keeps the replica's attempt as it is, drives the attempt's proposer, or ends the attempt and resumes:
`Resumes` is all that an idle replica can do next, and `Started` says what a started attempt is. The invariants of the
cluster are proved from `onReply_moves`, `onTimer_moves` and `onRestart_moves`.
-/
import Queso.Consensus.Moves
import Queso.Smr.Cluster

namespace Queso

namespace SmrNode

/-! ## What the calls compute -/

section Inversions

variable {ctx : SmrCtx} {nd nd' : SmrNode} {sh sh' : Shared} {fx : List (Effect SmrMsg)}

/-- the attempt that `start_attempt` puts in flight, and what its proposer asks for -/
def launch (ctx : SmrCtx) (nd : SmrNode) (origin : AttemptOrigin) (command : Command) (leader : Option NodeId)
    (delay : Option ℕ) : SmrNode × List (Effect SmrMsg) :=
  (nd.withAttempt ⟨origin, command, nd.durable.nextSlot,
      ((nd.proposerFor ctx.selfId command leader delay).start ctx.rng).1, false⟩,
    ((nd.proposerFor ctx.selfId command leader delay).start ctx.rng).2)

theorem startAttempt_launch {origin : AttemptOrigin} {command : Command} {leader : Option NodeId}
    (h : startAttempt ctx nd sh origin command leader = .ok (nd', sh', fx)) :
    ∃ delay, sh.policy.delayFor nd.durable.nextSlot ctx.selfId = .ok delay ∧
      nd' = (launch ctx nd origin command leader delay).1 ∧
      sh' = { sh with policy := sh.policy.noteAttemptStart nd.durable.nextSlot ctx.now } ∧
      fx = (launch ctx nd origin command leader delay).2 := by
  unfold startAttempt at h
  dsimp only at h
  cases hd : sh.policy.delayFor nd.durable.nextSlot ctx.selfId with
  | error e => rw [hd] at h; exact absurd h (by simp)
  | ok delay =>
    rw [hd] at h
    simp only [Except.ok.injEq, Prod.mk.injEq] at h
    obtain ⟨rfl, rfl, rfl⟩ := h
    exact ⟨delay, rfl, rfl, rfl, rfl⟩

theorem beginNextAttempt_ok (h : beginNextAttempt ctx nd sh = .ok (nd', sh', fx)) :
    nd' = nd ∧ sh' = sh ∧ fx = [] ∧ (nd.currentAttempt = none → nd.queue = []) ∨
      ∃ op queue leader, nd.currentAttempt = none ∧ nd.queue = op :: queue ∧
        sh.policy.leaderFor nd.durable.nextSlot = .ok leader ∧
        startAttempt ctx { nd with queue := queue } sh (.op op.opId) op.command leader = .ok (nd', sh', fx) := by
  unfold beginNextAttempt at h
  split_ifs at h with hc
  · simp only [Except.ok.injEq, Prod.mk.injEq] at h
    exact .inl ⟨h.1.symm, h.2.1.symm, h.2.2.symm, fun hnone => by simp [hnone] at hc⟩
  have hnone : nd.currentAttempt = none := by simpa using hc
  cases hq : nd.queue with
  | nil =>
    rw [hq] at h
    simp only [Except.ok.injEq, Prod.mk.injEq] at h
    exact .inl ⟨h.1.symm, h.2.1.symm, h.2.2.symm, fun _ => rfl⟩
  | cons op queue =>
    rw [hq] at h
    dsimp only at h
    cases hl : sh.policy.leaderFor nd.durable.nextSlot with
    | error e => rw [hl] at h; exact absurd h (by simp)
    | ok leader =>
      rw [hl] at h
      exact .inr ⟨op, queue, leader, hnone, rfl, rfl, h⟩

theorem beginCatchUp_ok (hidle : nd.currentAttempt = none) (h : beginCatchUp ctx nd sh = .ok (nd', sh', fx)) :
    ∃ nd₁ fx₁, startAttempt ctx nd sh .catchUp (catchUpProbe nd.durable.nextSlot) none = .ok (nd₁, sh', fx₁) ∧
      nd' = (nd₁.armCatchUpWatchdog nd.durable.nextSlot).1 ∧
      fx = fx₁ ++ [.timer CATCH_UP_WATCHDOG_TICKS .catchUpWatchdog] := by
  unfold beginCatchUp at h
  rw [if_neg (by simp [hidle])] at h
  dsimp only at h
  cases hs : startAttempt ctx nd sh .catchUp (catchUpProbe nd.durable.nextSlot) none with
  | error e => rw [hs] at h; exact absurd h (by simp)
  | ok r =>
    obtain ⟨nd₁, sh₁, fx₁⟩ := r
    rw [hs] at h
    simp only [Except.ok.injEq, Prod.mk.injEq] at h
    obtain ⟨rfl, rfl, rfl⟩ := h
    exact ⟨nd₁, fx₁, rfl, rfl, rfl⟩

/-- the decision is applied; the attempt's origin, and whether its own command was decided, say what comes next -/
theorem finishAttempt_ok {decided : Command} (h : finishAttempt ctx nd sh decided = .ok (nd', sh', fx)) :
    ∃ attempt policy, nd.currentAttempt = some attempt ∧ attempt.slot = nd.durable.nextSlot ∧
      sh.policy.noteSlotDecided attempt.slot ctx.now = .ok policy ∧
      ((∃ id, attempt.origin = .op id ∧ decided = attempt.command ∧
          beginNextAttempt ctx (nd.applied attempt decided) ({ sh with policy := policy }.complete id ctx.now attempt.slot
            (decided.outcome (nd.durable.kv.apply decided).2)) = .ok (nd', sh', fx)) ∨
        (∃ id, attempt.origin = .op id ∧ decided ≠ attempt.command ∧
          beginNextAttempt ctx { nd.applied attempt decided with queue := ⟨id, attempt.command⟩ :: nd.queue }
            { sh with policy := policy } = .ok (nd', sh', fx)) ∨
        (attempt.origin = .catchUp ∧ decided = attempt.command ∧
          beginNextAttempt ctx (nd.applied attempt decided) { sh with policy := policy } = .ok (nd', sh', fx)) ∨
        attempt.origin = .catchUp ∧ decided ≠ attempt.command ∧
          beginCatchUp ctx (nd.applied attempt decided) { sh with policy := policy } = .ok (nd', sh', fx)) := by
  unfold finishAttempt at h
  cases hc : nd.currentAttempt with
  | none => rw [hc] at h; exact absurd h (by simp)
  | some attempt =>
    rw [hc] at h
    dsimp only at h
    by_cases hf : attempt.slot = nd.durable.nextSlot
    swap
    · rw [if_pos hf] at h; exact absurd h (by simp)
    rw [if_neg (not_not.2 hf)] at h
    cases hp : sh.policy.noteSlotDecided attempt.slot ctx.now with
    | error e => rw [hp] at h; exact absurd h (by simp)
    | ok policy =>
      rw [hp] at h
      dsimp only at h
      refine ⟨attempt, policy, rfl, hf, hp, ?_⟩
      cases ho : attempt.origin with
      | op id =>
        rw [ho] at h
        dsimp only at h
        split_ifs at h with hd
        · exact .inl ⟨id, rfl, hd, h⟩
        · exact .inr (.inl ⟨id, rfl, hd, h⟩)
      | catchUp =>
        rw [ho] at h
        dsimp only at h
        split_ifs at h with hd
        · exact .inr (.inr (.inl ⟨rfl, hd, h⟩))
        · exact .inr (.inr (.inr ⟨rfl, hd, h⟩))

/-- a reply is ignored, or it drives the attempt for its slot, which is finished if it decides -/
theorem onReply_ok {src : NodeId} {resp : RecordResponse Command} (h : onReply ctx src resp nd sh = .ok (nd', sh', fx)) :
    nd' = nd ∧ sh' = sh ∧ fx = [] ∨
    ∃ attempt p fx₁, nd.currentAttempt = some attempt ∧ attempt.slot = resp.slot ∧
      attempt.proposer.onResponse src resp ctx.rng = .ok (p, fx₁) ∧
      (p.decided = none ∧ nd' = nd.withAttempt { attempt with proposer := p } ∧ sh' = sh ∧ fx = fx₁ ∨
        ∃ decided fx₂, p.decided = some decided ∧
          finishAttempt ctx (nd.withAttempt { attempt with proposer := p }) sh decided = .ok (nd', sh', fx₂) ∧
          fx = fx₁ ++ fx₂) := by
  unfold onReply at h
  cases hc : nd.currentAttempt with
  | none =>
    rw [hc] at h
    simp only [Except.ok.injEq, Prod.mk.injEq] at h
    exact .inl ⟨h.1.symm, h.2.1.symm, h.2.2.symm⟩
  | some attempt =>
    rw [hc] at h
    dsimp only at h
    split_ifs at h with hs
    · simp only [Except.ok.injEq, Prod.mk.injEq] at h
      exact .inl ⟨h.1.symm, h.2.1.symm, h.2.2.symm⟩
    cases hr : attempt.proposer.onResponse src resp ctx.rng with
    | error e => rw [hr] at h; exact absurd h (by simp [driveAttempt])
    | ok r =>
      obtain ⟨p, fx₁⟩ := r
      rw [hr] at h
      refine .inr ⟨attempt, p, fx₁, rfl, not_not.1 hs, hr, ?_⟩
      cases hd : p.decided with
      | none =>
        simp only [driveAttempt, hd, Except.ok.injEq, Prod.mk.injEq] at h
        exact .inl ⟨rfl, h.1.symm, h.2.1.symm, h.2.2.symm⟩
      | some decided =>
        simp only [driveAttempt, hd] at h
        cases hfin : finishAttempt ctx (nd.withAttempt { attempt with proposer := p }) sh decided with
        | error e => rw [hfin] at h; exact absurd h (by simp)
        | ok r =>
          obtain ⟨nd₃, sh₃, fx₃⟩ := r
          rw [hfin] at h
          simp only [Except.ok.injEq, Prod.mk.injEq] at h
          obtain ⟨rfl, rfl, rfl⟩ := h
          exact .inr ⟨decided, fx₃, rfl, hfin, rfl⟩

/-- a timer is ignored, kicks the replica off, finds a stalled catch-up attempt, or drives the attempt -/
theorem onTimer_ok {id : TimerId} (h : onTimer ctx id nd sh = .ok (nd', sh', fx)) :
    nd' = nd ∧ sh' = sh ∧ fx = [] ∧ id ≠ .kickoff ∧ (id ≠ .catchUpWatchdog → nd.currentAttempt = none) ∨
    id = .kickoff ∧ beginNextAttempt ctx nd sh = .ok (nd', sh', fx) ∨
    (∃ attempt generation, id = .catchUpWatchdog ∧ nd.currentAttempt = some attempt ∧ attempt.origin = .catchUp ∧
      nd.watchdogArmedFor = some (attempt.slot, generation) ∧ generation = nd.watchdogGeneration ∧
      beginCatchUp ctx { nd with currentAttempt := none } sh = .ok (nd', sh', fx)) ∨
    ∃ attempt p, id ≠ .kickoff ∧ id ≠ .catchUpWatchdog ∧ nd.currentAttempt = some attempt ∧
      attempt.proposer.onTimer id nd.localStep ctx.rng = .ok (p, fx) ∧
      nd' = nd.withAttempt { attempt with proposer := p } ∧ sh' = sh := by
  have hsame (h : (.ok (nd, sh, []) : SmrOutcome) = .ok (nd', sh', fx)) : nd' = nd ∧ sh' = sh ∧ fx = [] := by
    simp only [Except.ok.injEq, Prod.mk.injEq] at h
    exact ⟨h.1.symm, h.2.1.symm, h.2.2.symm⟩
  unfold onTimer at h
  split_ifs at h with hk hw
  · exact .inr (.inl ⟨hk, h⟩)
  · unfold onCatchUpWatchdog at h
    cases hwd : nd.watchdogArmedFor with
    | none =>
      rw [hwd] at h
      obtain ⟨hnd, hsh, hfx⟩ := hsame h
      exact .inl ⟨hnd, hsh, hfx, hk, fun hne => absurd hw hne⟩
    | some watched =>
      obtain ⟨slot, generation⟩ := watched
      rw [hwd] at h
      dsimp only at h
      split_ifs at h with hgen hst
      · obtain ⟨hnd, hsh, hfx⟩ := hsame h
        exact .inl ⟨hnd, hsh, hfx, hk, fun hne => absurd hw hne⟩
      · obtain ⟨hnd, hsh, hfx⟩ := hsame h
        exact .inl ⟨hnd, hsh, hfx, hk, fun hne => absurd hw hne⟩
      · unfold stalledAt at hst
        cases hc : nd.currentAttempt with
        | none => rw [hc] at hst; exact absurd rfl hst
        | some attempt =>
          rw [hc] at hst
          simp only [Bool.not_eq_false, Bool.and_eq_true, decide_eq_true_eq] at hst
          obtain ⟨rfl, ho⟩ := hst
          exact .inr (.inr (.inl ⟨attempt, generation, hw, rfl, ho, rfl, not_not.1 hgen, h⟩))
  · cases hc : nd.currentAttempt with
    | none =>
      rw [hc] at h
      obtain ⟨hnd, hsh, hfx⟩ := hsame h
      exact .inl ⟨hnd, hsh, hfx, hk, fun _ => rfl⟩
    | some attempt =>
      rw [hc] at h
      dsimp only at h
      cases hr : attempt.proposer.onTimer id nd.localStep ctx.rng with
      | error e => rw [hr] at h; exact absurd h (by simp [driveAttempt])
      | ok r =>
        obtain ⟨p, fx₁⟩ := r
        rw [hr] at h
        simp only [driveAttempt, Except.ok.injEq, Prod.mk.injEq] at h
        obtain ⟨rfl, rfl, rfl⟩ := h
        exact .inr (.inr (.inr ⟨attempt, p, hk, hw, rfl, hr, rfl, rfl⟩))

end Inversions

/-! ## Starting an attempt -/

/-- the attempt that drives the proposer `p`, whatever was counted -/
def Drives (nd : SmrNode) (origin : AttemptOrigin) (command : Command) (slot : ℕ) (p : Proposer Command) : Prop :=
  ∃ counted, nd.currentAttempt = some ⟨origin, command, slot, p, counted⟩

/-- what a call leaves alone: everything but the attempt, the queue and the bookkeeping -/
structure Keeps (nd nd' : SmrNode) : Prop where
  durable : nd'.durable = nd.durable
  total : nd'.totalReplicas = nd.totalReplicas
  localStep : nd'.localStep = nd.localStep

/-- `nd'` is `nd` with a fresh proposer for its frontier, already started -/
structure Started (ctx : SmrCtx) (nd : SmrNode) (sh : Shared) (origin : AttemptOrigin) (command : Command)
    (leader : Option NodeId) (nd' : SmrNode) (sh' : Shared) (fx : List (Effect SmrMsg)) : Prop where
  keeps : nd.Keeps nd'
  queue : nd'.queue = nd.queue
  shared : sh' = { sh with policy := sh.policy.noteAttemptStart nd.durable.nextSlot ctx.now }
  drives : ∃ delay, nd'.Drives origin command nd.durable.nextSlot
      ((nd.proposerFor ctx.selfId command leader delay).start ctx.rng).1 ∧
    ∀ i, sendsOf i fx = sendsOf i ((nd.proposerFor ctx.selfId command leader delay).start ctx.rng).2

/-- all that an idle replica can do next -/
inductive Resumes (ctx : SmrCtx) (nd : SmrNode) (sh : Shared) : SmrNode → Shared → List (Effect SmrMsg) → Prop where
  | rests : Resumes ctx nd sh nd sh []
  | proposes {op queue leader nd' sh' fx} (hq : nd.queue = op :: queue)
      (hl : sh.policy.leaderFor nd.durable.nextSlot = .ok leader)
      (h : Started ctx { nd with queue := queue } sh (.op op.opId) op.command leader nd' sh' fx) :
      Resumes ctx nd sh nd' sh' fx
  | probes {nd' sh' fx} (h : Started ctx nd sh .catchUp (catchUpProbe nd.durable.nextSlot) none nd' sh' fx) :
      Resumes ctx nd sh nd' sh' fx

variable {ctx : SmrCtx} {nd nd' : SmrNode} {sh sh' : Shared} {fx : List (Effect SmrMsg)}

theorem withAttempt_drives (nd : SmrNode) (a : CurrentAttempt) :
    (nd.withAttempt a).Drives a.origin a.command a.slot a.proposer := by
  unfold withAttempt CurrentAttempt.noteActivation
  split_ifs
  · exact ⟨true, rfl⟩
  · exact ⟨a.activatedCounted, rfl⟩

theorem withAttempt_keeps (nd : SmrNode) (a : CurrentAttempt) : nd.Keeps (nd.withAttempt a) := ⟨rfl, rfl, rfl⟩

@[simp] theorem withAttempt_queue (nd : SmrNode) (a : CurrentAttempt) : (nd.withAttempt a).queue = nd.queue := rfl

theorem Started.isCatchingUp {origin : AttemptOrigin} {command : Command} {leader : Option NodeId}
    (h : Started ctx nd sh origin command leader nd' sh' fx) : nd'.isCatchingUp = decide (origin = .catchUp) := by
  obtain ⟨_, ⟨b, hb⟩, -⟩ := h.drives
  unfold SmrNode.isCatchingUp
  rw [hb]

theorem startAttempt_moves {origin : AttemptOrigin} {command : Command} {leader : Option NodeId}
    (h : startAttempt ctx nd sh origin command leader = .ok (nd', sh', fx)) :
    Started ctx nd sh origin command leader nd' sh' fx := by
  obtain ⟨delay, -, rfl, rfl, rfl⟩ := startAttempt_launch h
  exact
    { keeps := withAttempt_keeps _ _
      queue := rfl
      shared := rfl
      drives := ⟨delay, withAttempt_drives _ _, fun _ => rfl⟩ }

theorem beginNextAttempt_moves (h : beginNextAttempt ctx nd sh = .ok (nd', sh', fx)) :
    nd' = nd ∧ sh' = sh ∧ fx = [] ∨
      nd.currentAttempt = none ∧ Resumes ctx nd sh nd' sh' fx ∧ nd'.isCatchingUp = false := by
  rcases beginNextAttempt_ok h with ⟨rfl, rfl, rfl, -⟩ | ⟨op, queue, leader, hnone, hq, hl, hs⟩
  · exact .inl ⟨rfl, rfl, rfl⟩
  · have hst := startAttempt_moves hs
    exact .inr ⟨hnone, .proposes hq hl hst, by rw [hst.isCatchingUp]; rfl⟩

theorem beginCatchUp_moves (hc : nd.currentAttempt = none) (h : beginCatchUp ctx nd sh = .ok (nd', sh', fx)) :
    Started ctx nd sh .catchUp (catchUpProbe nd.durable.nextSlot) none nd' sh' fx := by
  obtain ⟨nd₁, fx₁, hs, rfl, rfl⟩ := beginCatchUp_ok hc h
  have hst := startAttempt_moves hs
  obtain ⟨delay, ⟨b, hb⟩, hfx⟩ := hst.drives
  exact
    { keeps := ⟨hst.keeps.durable, hst.keeps.total, hst.keeps.localStep⟩
      queue := hst.queue
      shared := hst.shared
      drives := ⟨delay, ⟨b, hb⟩, fun i => by
        have := hfx i
        simp only [sendsOf, List.filterMap_append] at this ⊢
        simpa using this⟩ }

/-! ## Ending an attempt -/

/-- the replica after its attempt decided `decided`, about to resume -/
structure Ended (ctx : SmrCtx) (nd : SmrNode) (sh : Shared) (attempt : CurrentAttempt) (decided : Command)
    (nd' : SmrNode) (sh' : Shared) : Prop where
  frontier : attempt.slot = nd.durable.nextSlot
  policy : sh.policy.noteSlotDecided attempt.slot ctx.now = .ok sh'.policy
  durable : nd'.durable = (nd.applied attempt decided).durable
  total : nd'.totalReplicas = nd.totalReplicas
  idle : nd'.currentAttempt = none
  queue : nd'.queue = nd.queue ∨ ∃ id, attempt.origin = .op id ∧ nd'.queue = ⟨id, attempt.command⟩ :: nd.queue
  shared : sh' = { sh with policy := sh'.policy } ∨ ∃ id, attempt.origin = .op id ∧ decided = attempt.command ∧
    sh' = { sh with policy := sh'.policy }.complete id ctx.now attempt.slot
      (decided.outcome (nd.durable.kv.apply decided).2)

theorem finishAttempt_moves {decided : Command} (h : finishAttempt ctx nd sh decided = .ok (nd', sh', fx)) :
    ∃ attempt nd₁ sh₁, nd.currentAttempt = some attempt ∧ Ended ctx nd sh attempt decided nd₁ sh₁ ∧
      Resumes ctx nd₁ sh₁ nd' sh' fx ∧
      (nd'.isCatchingUp = true ↔ attempt.origin = .catchUp ∧ decided ≠ attempt.command) := by
  have hresume : ∀ {nd₁ : SmrNode} {sh₁ : Shared}, nd₁.currentAttempt = none →
      beginNextAttempt ctx nd₁ sh₁ = .ok (nd', sh', fx) →
      Resumes ctx nd₁ sh₁ nd' sh' fx ∧ nd'.isCatchingUp = false := by
    intro nd₁ sh₁ hidle hb
    rcases beginNextAttempt_moves hb with ⟨rfl, rfl, rfl⟩ | ⟨-, hr⟩
    · exact ⟨.rests, by unfold isCatchingUp; rw [hidle]⟩
    · exact hr
  obtain ⟨attempt, policy, ha, hf, hp, hnext⟩ := finishAttempt_ok h
  rcases hnext with ⟨id, ho, hd, hb⟩ | ⟨id, ho, -, hb⟩ | ⟨ho, hd, hb⟩ | ⟨ho, hd, hb⟩
  · obtain ⟨hr, hcu⟩ := hresume rfl hb
    refine ⟨attempt, _, _, ha, ⟨hf, ?_, rfl, rfl, rfl, .inl rfl, .inr ⟨id, ho, hd, ?_⟩⟩, hr, by simp [hcu, ho]⟩
    · rw [hp, Shared.complete]
      split <;> rfl
    · have hpol : ({ sh with policy := policy }.complete id ctx.now attempt.slot
          (decided.outcome (nd.durable.kv.apply decided).2)).policy = policy := by
        unfold Shared.complete
        split <;> rfl
      rw [hpol]
  · obtain ⟨hr, hcu⟩ := hresume rfl hb
    exact ⟨attempt, { nd.applied attempt decided with queue := ⟨id, attempt.command⟩ :: nd.queue },
      { sh with policy := policy }, ha, ⟨hf, hp, rfl, rfl, rfl, .inr ⟨id, ho, rfl⟩, .inl rfl⟩, hr,
      by simp [hcu, ho]⟩
  · obtain ⟨hr, hcu⟩ := hresume rfl hb
    exact ⟨attempt, _, _, ha, ⟨hf, hp, rfl, rfl, rfl, .inl rfl, .inl rfl⟩, hr, by simp [hcu, hd]⟩
  · have hst := beginCatchUp_moves rfl hb
    exact ⟨attempt, _, _, ha, ⟨hf, hp, rfl, rfl, rfl, .inl rfl, .inl rfl⟩, .probes hst,
      by simp [hst.isCatchingUp, ho, hd]⟩

/-! ## The callbacks -/

/-- the replica goes on with its attempt's proposer at `p` -/
structure Driven (nd : SmrNode) (attempt : CurrentAttempt) (p : Proposer Command) (nd' : SmrNode) : Prop where
  keeps : nd.Keeps nd'
  queue : nd'.queue = nd.queue
  drives : nd'.Drives attempt.origin attempt.command attempt.slot p

theorem driven_withAttempt (nd : SmrNode) (attempt : CurrentAttempt) (p : Proposer Command) :
    nd.Driven attempt p (nd.withAttempt { attempt with proposer := p }) :=
  ⟨withAttempt_keeps _ _, rfl, withAttempt_drives _ _⟩

/-- **All a reply can do**: nothing, or it drives the attempt; and if the attempt decides, it ends -/
theorem onReply_moves {src : NodeId} {resp : RecordResponse Command}
    (h : onReply ctx src resp nd sh = .ok (nd', sh', fx)) :
    nd' = nd ∧ sh' = sh ∧ fx = [] ∨
    ∃ attempt p fx₁ nd₁, nd.currentAttempt = some attempt ∧ attempt.slot = resp.slot ∧
      attempt.proposer.onResponse src resp ctx.rng = .ok (p, fx₁) ∧ nd.Driven attempt p nd₁ ∧
      (p.decided = none ∧ nd' = nd₁ ∧ sh' = sh ∧ fx = fx₁ ∨
        ∃ decided ended nd₂ sh₂ fx₂, p.decided = some decided ∧ nd₁.currentAttempt = some ended ∧
          Ended ctx nd₁ sh ended decided nd₂ sh₂ ∧ Resumes ctx nd₂ sh₂ nd' sh' fx₂ ∧ fx = fx₁ ++ fx₂ ∧
          (nd'.isCatchingUp = true ↔ ended.origin = .catchUp ∧ decided ≠ ended.command)) := by
  rcases onReply_ok h with hsame | ⟨attempt, p, fx₁, ha, hslot, hr, hnext⟩
  · exact .inl hsame
  refine .inr ⟨attempt, p, fx₁, _, ha, hslot, hr, nd.driven_withAttempt attempt p, ?_⟩
  rcases hnext with ⟨hd, rfl, rfl, rfl⟩ | ⟨decided, fx₂, hd, hfin, rfl⟩
  · exact .inl ⟨hd, rfl, rfl, rfl⟩
  · obtain ⟨ended, nd₂, sh₂, he, hend, hres, hlearn⟩ := finishAttempt_moves hfin
    exact .inr ⟨decided, ended, nd₂, sh₂, fx₂, hd, he, hend, hres, rfl, hlearn⟩

/-- **All a timer can do**: nothing, or an idle replica resumes, or the watchdog drops a catch-up attempt and resumes,
or it drives the attempt -/
theorem onTimer_moves {id : TimerId} (h : onTimer ctx id nd sh = .ok (nd', sh', fx)) :
    nd' = nd ∧ sh' = sh ∧ fx = [] ∨
    nd.currentAttempt = none ∧ Resumes ctx nd sh nd' sh' fx ∧ nd'.isCatchingUp = false ∨
    nd.isCatchingUp = true ∧ Started ctx { nd with currentAttempt := none } sh .catchUp
        (catchUpProbe nd.durable.nextSlot) none nd' sh' fx ∨
    ∃ attempt p, nd.currentAttempt = some attempt ∧ id ≠ .kickoff ∧
      attempt.proposer.onTimer id nd.localStep ctx.rng = .ok (p, fx) ∧ nd.Driven attempt p nd' ∧ sh' = sh := by
  rcases onTimer_ok h with ⟨hnd, hsh, hfx, -, -⟩ | ⟨-, hb⟩ | ⟨attempt, generation, -, ha, ho, -, -, hb⟩ |
    ⟨attempt, p, hk, -, ha, hr, rfl, rfl⟩
  · exact .inl ⟨hnd, hsh, hfx⟩
  · rcases beginNextAttempt_moves hb with hsame | hres
    · exact .inl hsame
    · exact .inr (.inl hres)
  · refine .inr (.inr (.inl ⟨?_, beginCatchUp_moves rfl hb⟩))
    unfold isCatchingUp
    rw [ha]
    exact decide_eq_true ho
  · exact .inr (.inr (.inr ⟨attempt, p, ha, hk, hr, nd.driven_withAttempt attempt p, rfl⟩))

/-- **All a restart can do**: probe the frontier with everything volatile gone -/
theorem onRestart_moves (h : onRestart ctx nd sh = .ok (nd', sh', fx)) :
    Started ctx { nd with queue := [], currentAttempt := none, metrics := .default } sh .catchUp
      (catchUpProbe nd.durable.nextSlot) none nd' sh' fx :=
  beginCatchUp_moves rfl h

end SmrNode

end Queso
