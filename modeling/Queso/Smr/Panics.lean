/-
No panic of an attempt can be reached.

The proposer's own panics are out of reach because it stands on what was sent and served (`Consensus.Panics`), whichever
attempt the replies and timers were meant for. `finish_attempt` runs right after a live attempt decided, and a live
attempt is at the frontier (`Live.frontier`). What is left of a callback's panics is the tuner's.
-/
import Queso.Consensus.Panics
import Queso.Smr.Turns
import Queso.Smr.Invariant

namespace Queso

/-! ## The panics of the policy -/

/-- a configuration that is missing is no panic of the proposer -/
theorem EpochTuner.configFor_error {t : EpochTuner} {slot : ℕ} {e : Panic} (h : t.configFor slot = .error e) :
    ¬ e.Internal := by
  unfold configFor at h
  cases hc : t.epochConfigs.lookup (t.epochOf slot) with
  | some cfg => rw [hc] at h; exact absurd h (by simp)
  | none =>
    rw [hc] at h
    simp only [Except.error.injEq] at h
    rw [← h]
    exact id

namespace LeaderPolicy

theorem leaderFor_error {p : LeaderPolicy} {slot : ℕ} {e : Panic} (h : p.leaderFor slot = .error e) : ¬ e.Internal := by
  cases p with
  | fixed leader => exact absurd h (by simp [leaderFor])
  | tuned t =>
    unfold leaderFor EpochTuner.leaderForSlot at h
    dsimp only at h
    cases hc : t.configFor slot with
    | ok cfg => rw [hc] at h; exact absurd h (by simp)
    | error e' =>
      rw [hc] at h
      simp only [Except.error.injEq] at h
      exact h ▸ EpochTuner.configFor_error hc

theorem delayFor_error {p : LeaderPolicy} {slot : ℕ} {i : NodeId} {e : Panic} (h : p.delayFor slot i = .error e) :
    ¬ e.Internal := by
  cases p with
  | fixed leader => exact absurd h (by simp [delayFor])
  | tuned t =>
    unfold delayFor EpochTuner.delayForSlot at h
    dsimp only at h
    cases hc : t.configFor slot with
    | ok cfg => rw [hc] at h; exact absurd h (by simp)
    | error e' =>
      rw [hc] at h
      simp only [Except.error.injEq] at h
      exact h ▸ EpochTuner.configFor_error hc

theorem noteSlotDecided_error {p : LeaderPolicy} {slot now : ℕ} {e : Panic}
    (h : p.noteSlotDecided slot now = .error e) : ¬ e.Internal := by
  cases p with
  | fixed leader => exact absurd h (by simp [noteSlotDecided])
  | tuned t =>
    unfold noteSlotDecided EpochTuner.noteSlotDecided EpochTuner.absorb at h
    dsimp only at h
    split_ifs at h with hs ho
    simp only [Except.error.injEq] at h
    rw [← h]
    exact id

end LeaderPolicy

namespace SmrNode

variable {ctx : SmrCtx} {nd : SmrNode} {sh : Shared} {e : Panic}

theorem startAttempt_error {origin : AttemptOrigin} {command : Command} {leader : Option NodeId}
    (h : startAttempt ctx nd sh origin command leader = .error e) : ¬ e.Internal := by
  unfold startAttempt at h
  dsimp only at h
  cases hd : sh.policy.delayFor nd.durable.nextSlot ctx.selfId with
  | error e' =>
    rw [hd] at h
    rw [← Except.error.inj h]
    exact LeaderPolicy.delayFor_error hd
  | ok delay => rw [hd] at h; exact absurd h (by simp)

theorem beginNextAttempt_error (h : beginNextAttempt ctx nd sh = .error e) : ¬ e.Internal := by
  unfold beginNextAttempt at h
  split_ifs at h with hc
  cases hq : nd.queue with
  | nil => rw [hq] at h; exact absurd h (by simp)
  | cons o queue =>
    rw [hq] at h
    dsimp only at h
    cases hl : sh.policy.leaderFor nd.durable.nextSlot with
    | error e' =>
      rw [hl] at h
      rw [← Except.error.inj h]
      exact LeaderPolicy.leaderFor_error hl
    | ok leader => rw [hl] at h; exact startAttempt_error h

theorem beginCatchUp_error (h : beginCatchUp ctx nd sh = .error e) : ¬ e.Internal := by
  unfold beginCatchUp at h
  split_ifs at h with hc
  dsimp only at h
  cases hs : startAttempt ctx nd sh .catchUp (catchUpProbe nd.durable.nextSlot) none with
  | error e' =>
    rw [hs] at h
    rw [← Except.error.inj h]
    exact startAttempt_error hs
  | ok r => rw [hs] at h; exact absurd h (by simp)

/-- a live attempt at the frontier is there to finish -/
theorem finishAttempt_error {attempt : CurrentAttempt} {decided : Command} (ha : nd.currentAttempt = some attempt)
    (hf : attempt.slot = nd.durable.nextSlot) (h : finishAttempt ctx nd sh decided = .error e) : ¬ e.Internal := by
  unfold finishAttempt at h
  rw [ha] at h
  dsimp only at h
  rw [if_neg (not_not.2 hf)] at h
  cases hp : sh.policy.noteSlotDecided attempt.slot ctx.now with
  | error e' =>
    rw [hp] at h
    rw [← Except.error.inj h]
    exact LeaderPolicy.noteSlotDecided_error hp
  | ok policy =>
    rw [hp] at h
    dsimp only at h
    cases ho : attempt.origin with
    | op id =>
      rw [ho] at h
      dsimp only at h
      split_ifs at h
      · exact beginNextAttempt_error h
      · exact beginNextAttempt_error h
    | catchUp =>
      rw [ho] at h
      dsimp only at h
      split_ifs at h
      · exact beginNextAttempt_error h
      · exact beginCatchUp_error h

theorem onTimer_error {id : TimerId} (hst : ∀ a, nd.currentAttempt = some a → a.proposer.Stocked)
    (h : onTimer ctx id nd sh = .error e) : ¬ e.Internal := by
  unfold onTimer at h
  split_ifs at h with hk hw
  · exact beginNextAttempt_error h
  · unfold onCatchUpWatchdog at h
    cases hwd : nd.watchdogArmedFor with
    | none => rw [hwd] at h; exact absurd h (by simp)
    | some watched =>
      rw [hwd] at h
      dsimp only at h
      split_ifs at h
      exact beginCatchUp_error h
  · cases hc : nd.currentAttempt with
    | none => rw [hc] at h; exact absurd h (by simp)
    | some attempt =>
      rw [hc] at h
      dsimp only at h
      obtain ⟨r, hr⟩ := (hst attempt hc).onTimer_ok id nd.localStep ctx.rng
      rw [hr] at h
      exact absurd h (by simp [driveAttempt])

end SmrNode

namespace Smr

variable {n : ℕ} {w : Smr}

/-- a reply's panic is not the proposer's, nor `finish_attempt`'s -/
theorem Sane.onReply_error (h : Sane n w) {i src : NodeId} {nd : SmrNode} {now : ℕ} {rng : NodeId → Draw}
    {resp : RecordResponse Command} {e : Panic} (hnd : w.nodes i = some nd)
    (hsent : ⟨src, i, .response resp⟩ ∈ sentOf w.trace)
    (herr : SmrNode.onReply ⟨i, now, rng⟩ src resp nd w.shared = .error e) : ¬ e.Internal := by
  unfold SmrNode.onReply at herr
  cases hc : nd.currentAttempt with
  | none => rw [hc] at herr; exact absurd herr (by simp)
  | some attempt =>
    rw [hc] at herr
    dsimp only at herr
    split_ifs at herr with hs
    have hseat := h.arena.seat i attempt.proposer (by rw [view_props hnd, SmrNode.hosted, hc]; rfl)
    obtain ⟨r, hr⟩ := hseat.onResponse_ok h.arena hsent rng
    obtain ⟨p, fx⟩ := r
    rw [hr] at herr
    cases hd : p.decided with
    | none =>
      simp only [SmrNode.driveAttempt, hd] at herr
      exact absurd herr (by simp)
    | some decided =>
      simp only [SmrNode.driveAttempt, hd] at herr
      cases hfin : SmrNode.finishAttempt ⟨i, now, rng⟩ (nd.withAttempt { attempt with proposer := p }) w.shared
          decided with
      | error e' =>
        rw [hfin] at herr
        rw [← Except.error.inj herr]
        obtain ⟨b, hb⟩ := SmrNode.withAttempt_drives nd { attempt with proposer := p }
        exact SmrNode.finishAttempt_error hb (h.live i nd attempt hnd hc).frontier hfin
      | ok r => rw [hfin] at herr; exact absurd herr (by simp)

/-- every attempt's proposer can repeat what it sent, and no attempt has panicked -/
structure Unbroken (w : Smr) : Prop where
  stocked : ∀ i nd a, w.nodes i = some nd → nd.currentAttempt = some a → a.proposer.Stocked
  panicked : ∀ e, w.panicked = some e → ¬ e.Internal

/-- the proposer of an attempt that was just launched is stocked -/
theorem Launches.stocked {ctx : SmrCtx} {nd nd' : SmrNode} {sh sh' : Shared} {fx : List (Effect SmrMsg)}
    (h : SmrNode.Launches ctx nd sh nd' sh' fx) {a : CurrentAttempt} (ha : nd'.currentAttempt = some a) :
    a.proposer.Stocked := by
  have hfresh : ∀ (nd : SmrNode) command leader delay,
      ((nd.proposerFor ctx.selfId command leader delay).start ctx.rng).1.Stocked := by
    intro nd command leader delay
    refine Proposer.start_stocked (Proposer.stocked_idle ?_) ctx.rng
    cases delay <;> rfl
  cases h with
  | @op o queue leader delay hq hl hd =>
    obtain ⟨b, hb⟩ := SmrNode.launch_drives ctx { nd with queue := queue } (.op o.opId) o.command leader delay
    obtain rfl := Option.some.inj (hb.symm.trans ha)
    exact hfresh _ _ _ _
  | @probe delay hd =>
    obtain ⟨b, hb⟩ := SmrNode.launch_drives ctx nd .catchUp (catchUpProbe nd.durable.nextSlot) none delay
    obtain rfl := Option.some.inj (hb.symm.trans ha)
    exact hfresh _ _ _ _

theorem Course.stocked {ctx : SmrCtx} {nd nd' : SmrNode} {sh sh' : Shared} {x : Stimulus SmrMsg}
    {fx : List (Effect SmrMsg)} (h : SmrNode.Course ctx nd sh x nd' sh' fx)
    (hst : ∀ a, nd.currentAttempt = some a → a.proposer.Stocked) {a : CurrentAttempt}
    (ha : nd'.currentAttempt = some a) : a.proposer.Stocked := by
  cases h with
  | serves => exact hst a ha
  | ignores => exact hst a ha
  | @drives x attempt p fx hold hc =>
    obtain ⟨b, hb⟩ := SmrNode.withAttempt_drives nd { attempt with proposer := p }
    obtain rfl := Option.some.inj (hb.symm.trans ha)
    cases hc with
    | reply _ hcall _ => exact Proposer.onResponse_stocked (hst attempt hold) hcall
    | timer _ _ hcall => exact Proposer.onTimer_stocked (hst attempt hold) hcall
  | begins _ hl => exact Launches.stocked hl ha
  | reissues _ _ _ _ hl => exact Launches.stocked hl ha
  | rejoins hl => exact Launches.stocked hl ha
  | finishes _ _ _ _ _ hnext =>
    rcases hnext with ⟨rfl, -⟩ | hl
    · exact absurd ha (by simp [SmrNode.applied])
    · exact Launches.stocked hl ha

/-- where a panic comes from: a misuse of `submit`, or a callback -/
theorem panic_arises {op : SmrOp} {e : Panic} (hok : w.panicked = none) (h : (step w op).panicked = some e) :
    (step w op).nodes = w.nodes ∧ (¬ e.Internal ∨ ∃ i x rng left nd eop, World.Arises w eop i x rng left ∧
      w.nodes i = some nd ∧ SmrNode.behaviour.respond ⟨i, w.now, rng⟩ x nd w.shared = .error e) := by
  cases op with
  | submit i c =>
    unfold step at h ⊢
    dsimp only at h ⊢
    split_ifs at h ⊢ with hp
    · rw [hok] at h; exact absurd h (by simp)
    · unfold submit at h ⊢
      split_ifs at h ⊢ with hc
      · obtain rfl : Panic.reservedClient = e := Option.some.inj h
        exact ⟨rfl, .inl id⟩
      · cases hn : w.nodes i with
        | none =>
          simp only [hn] at h ⊢
          obtain rfl : Panic.unknownReplica = e := Option.some.inj h
          exact ⟨trivial, .inl id⟩
        | some nd =>
          simp only [hn] at h
          split_ifs at h
          · exact absurd (hok.symm.trans h) (by simp)
          · exact absurd (hok.symm.trans h) (by simp)
  | env op =>
    have hpanic : (w.env SmrNode.behaviour op).panicked = some e := h
    rcases World.env_event SmrNode.behaviour w op with hquiet |
      ⟨-, i, x, rng, left, nd, harises, hnd, ⟨e', he'⟩ | ⟨nd', fx, hcb⟩⟩
    · rw [hquiet.panicked, hok] at hpanic
      exact absurd hpanic (by simp)
    · obtain rfl : e' = e := Option.some.inj (he'.panicked.symm.trans hpanic)
      exact ⟨he'.nodes, .inr ⟨i, x, rng, left, nd, op, harises, hnd, he'.outcome⟩⟩
    · rw [hcb.panicked] at hpanic
      exact absurd hpanic (by simp)

/-- a panicked cluster takes no step -/
theorem step_stopped {e : Panic} (h : w.panicked = some e) (op : SmrOp) : step w op = w := by
  cases op with
  | submit i c => unfold step; simp [h]
  | env op =>
    show w.env SmrNode.behaviour op = w
    unfold World.env
    rw [if_pos (by simp [h])]

/-- **Step lemma.** -/
theorem unbroken_step (h : Sane n w) (hu : Unbroken w) (op : SmrOp) : Unbroken (step w op) := by
  cases hw : w.panicked with
  | some e => rw [step_stopped hw op]; exact hu
  | none =>
    cases hp : (step w op).panicked with
    | some e =>
      obtain ⟨hnodes, hwhy⟩ := panic_arises hw hp
      refine ⟨fun i nd a hnd ha => hu.stocked i nd a (by rw [← hnodes]; exact hnd) ha, fun e' he' => ?_⟩
      obtain rfl : e = e' := Option.some.inj (hp.symm.trans he')
      rcases hwhy with hmisuse | ⟨i, x, rng, left, nd, eop, harises, hnd, herr⟩
      · exact hmisuse
      · cases x with
        | message src payload =>
          cases payload with
          | request req => exact absurd herr (by simp [Behaviour.respond, SmrNode.behaviour, SmrNode.onMessage,
              SmrNode.onRequest])
          | response resp =>
            cases harises with
            | message hk hup => exact h.onReply_error hnd (h.net _ (List.mem_of_getElem? hk)) herr
        | timer id => exact SmrNode.onTimer_error (fun a ha => hu.stocked i nd a hnd ha) herr
        | restart =>
          have hcall : SmrNode.beginCatchUp ⟨i, w.now, rng⟩
              { nd with queue := [], currentAttempt := none, metrics := .default } w.shared = .error e := herr
          exact SmrNode.beginCatchUp_error hcall
    | none =>
      refine ⟨fun j nd₁ a hnd₁ ha => ?_, fun e he => absurd (hp.symm.trans he) (by simp)⟩
      rcases step_turns hp with ⟨eop, -, hquiet⟩ | ⟨i, c, nd, -, hq⟩ |
        ⟨eop, i, x, rng, left, nd, nd', fx, -, -, hcb, hcourse⟩
      · rw [hquiet.nodes] at hnd₁
        exact hu.stocked j nd₁ a hnd₁ ha
      · rw [hq.nodes] at hnd₁
        by_cases hji : j = i
        · subst hji
          obtain rfl : _ = nd₁ := by simpa using hnd₁
          exact hu.stocked j nd a hq.node ha
        · exact hu.stocked j nd₁ a (by simpa [hji] using hnd₁) ha
      · rcases callback_node hcb hnd₁ with ⟨rfl, rfl⟩ | ⟨-, hold⟩
        · exact Course.stocked hcourse (fun a ha => hu.stocked j nd a hcb.node ha) ha
        · exact hu.stocked j nd₁ a hold ha

theorem unbroken_cluster (s : Setup) : Unbroken s.cluster where
  stocked := fun i nd a hnd ha => by
    rw [cluster_idle hnd] at ha
    cases ha
  panicked := fun e he => by
    cases s with
    | leader n l => exact absurd he (by simp [Setup.cluster, newWithLeader, build])
    | tuning n l d => exact absurd he (by simp [Setup.cluster, newWithTuning, build])

theorem unbroken_run (s : Setup) (ops : List SmrOp) : Unbroken (s.cluster.run ops) := by
  let I : Smr → Prop := fun w => Sane s.size w ∧ Unbroken w
  have hI : I (s.cluster.run ops) :=
    Runs.run_invariant (I := I) (fun _ op hi _ => ⟨sane_step hi.1 op, unbroken_step hi.1 hi.2 op⟩)
      ⟨sane_cluster s, unbroken_cluster s⟩ (Runs.along_true _ _ ops)
  exact hI.2

end Smr

/-- **The proposer's internal panics are unreachable**, in every run of the single-slot cluster (where nothing else can
panic) and in every run of the replicated log, under any schedule -/
theorem internal_panics_unreachable :
    (∀ (V : Type) [LinearOrder V] (n : ℕ) (cfg : NodeId → Option (ReplicaCfg V)) (ops : List ClusterOp),
      ((Concrete.build n cfg).run ops).panicked = none) ∧
    ∀ (s : Smr.Setup) (ops : List SmrOp) (e : Panic), (s.cluster.run ops).panicked = some e → ¬ e.Internal :=
  ⟨fun _ _ _ cfg ops => (Concrete.unbroken_run cfg ops).panicked, fun s ops => (Smr.unbroken_run s ops).panicked⟩

/-- a submission under the reserved client id stops the run, by a panic of its own -/
theorem internal_panics_unreachable_misuse :
    (((Smr.Setup.leader 3 (some 0)).cluster.run [.submit 0 (.get CATCH_UP_CLIENT 0 0)]).panicked =
      some .reservedClient ∧ ¬ Panic.reservedClient.Internal) ∧
    ((Concrete.build 1 fun _ => some (⟨0, none, none⟩ : ReplicaCfg ℕ)).run [.kick 0]).panicked = none :=
  ⟨⟨rfl, internal_panics_unreachable.2 (.leader 3 (some 0)) [.submit 0 (.get CATCH_UP_CLIENT 0 0)] _ rfl⟩,
    internal_panics_unreachable.1 ℕ 1 (fun _ => some ⟨0, none, none⟩) [.kick 0]⟩

end Queso
