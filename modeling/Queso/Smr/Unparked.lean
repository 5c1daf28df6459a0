/-
No attempt of a live replica is parked.

An attempt is started where it is put in flight and its proposer is never started again, so its effective timer is the
retry timer of its step once it has activated, and the hedge timer before that. A crash loses the timers that fire
meanwhile, but a restart begins a fresh attempt with fresh timers.
-/
import Queso.Consensus.Unparked
import Queso.Smr.Panics

namespace Queso

/-- a fresh proposer awaits its first timer as soon as it is started -/
theorem Proposer.start_awake {V : Type} {p : Proposer V} {T : List PendingTimer} {i : NodeId} {draw : NodeId → Draw}
    {fx : List (Effect (ConcreteMsg V))} (hd : p.decided = none) (ha : p.activated = false)
    (hsub : ∀ f ∈ (p.start draw).2, f ∈ fx) (hnew : ∀ d id, .timer d id ∈ fx → Pends T i id) :
    Proposer.Awake False T i (p.start draw).1 := by
  have hnot : ¬ p.decided.isSome = true := by simp [hd]
  have hpends : ∀ d id, .timer d id ∈ (p.start draw).2 → Pends T i id := fun d id hm => hnew d id (hsub _ hm)
  unfold Proposer.start at hpends ⊢
  rw [if_neg hnot] at hpends ⊢
  dsimp only at hpends ⊢
  split_ifs at hpends ⊢ with hdelay
  · exact Proposer.awake_begins hpends
  · refine ⟨fun hact => absurd (ha.symm.trans hact) (by simp), fun _ => ?_⟩
    exact hpends p.activationDelay .hedge (List.mem_singleton.2 rfl)

theorem Proposer.start_waiting {V : Type} {p : Proposer V} (h : p.Waiting) (draw : NodeId → Draw) :
    (p.start draw).1.Waiting := by
  have hcall : p.onTimer .kickoff 0 draw = .ok ((p.start draw).1, (p.start draw).2) := rfl
  exact Proposer.onTimer_waiting h hcall

namespace Smr

variable {n : ℕ} {w : Smr}

/-- an idle proposer of a replica has done nothing yet -/
theorem proposerFor_idle (nd : SmrNode) (self : NodeId) (command : Command) (leader : Option NodeId)
    (delay : Option ℕ) :
    (nd.proposerFor self command leader delay).activated = false ∧
      (nd.proposerFor self command leader delay).decided = none ∧
      (nd.proposerFor self command leader delay).responses = ∅ := by
  cases delay with
  | none => exact ⟨rfl, rfl, rfl⟩
  | some d => exact ⟨rfl, rfl, rfl⟩

/-- no attempt waits for a quorum that it has, and no attempt of a live replica is parked -/
structure Lively (w : Smr) : Prop where
  waiting : ∀ i nd a, w.nodes i = some nd → nd.currentAttempt = some a → a.proposer.Waiting
  awake : ∀ i nd a, w.crashed i = false → w.nodes i = some nd → nd.currentAttempt = some a →
    a.proposer.decided = none → Proposer.Awake False w.timers i a.proposer

theorem Launches.lively {ctx : SmrCtx} {nd nd' : SmrNode} {sh sh' : Shared} {fx : List (Effect SmrMsg)}
    (h : SmrNode.Launches ctx nd sh nd' sh' fx) {T : List PendingTimer} {i : NodeId} {more : List (Effect SmrMsg)}
    (hnew : ∀ d id, .timer d id ∈ more ++ fx → Pends T i id) {a : CurrentAttempt} (ha : nd'.currentAttempt = some a) :
    a.proposer.Waiting ∧ Proposer.Awake False T i a.proposer := by
  obtain ⟨origin, command, leader, delay, counted, watch, hb, rfl, -⟩ := h.attempt
  obtain rfl := Option.some.inj (hb.symm.trans ha)
  obtain ⟨hact, hdec, hresp⟩ := proposerFor_idle nd ctx.selfId command leader delay
  refine ⟨Proposer.start_waiting (Proposer.waiting_empty hresp) ctx.rng, ?_⟩
  refine Proposer.start_awake hdec hact (fun f hf => ?_) hnew
  exact List.mem_append_right _ (List.mem_append_left _ hf)

/-- **Step lemma.** Where no timer is dropped, no live replica's attempt is parked. -/
theorem lively_step (hs : Sane n w) (h : Lively w) {op : SmrOp} (hdrop : ∀ k, op ≠ .env (.dropTimer k))
    (hok : (step w op).panicked = none) : Lively (step w op) := by
  rcases step_turns hok with ⟨eop, rfl, hquiet⟩ | ⟨j, c, nd₀, -, hq⟩ |
    ⟨eop, j, x, rng, left, nd, nd', fx, rfl, harises, hcb, hcourse⟩
  · have hdrop' : ∀ k, eop ≠ .dropTimer k := fun k hk => hdrop k (by rw [hk])
    refine ⟨fun i nd a hnd ha => h.waiting i nd a (by rw [← hquiet.nodes]; exact hnd) ha,
      fun i nd a hup hnd ha hd => ?_⟩
    have hnd₀ : w.nodes i = some nd := by rw [← hquiet.nodes]; exact hnd
    rcases hquiet.crashed i hup with hup₀ | hno
    · exact (h.awake i nd a hup₀ hnd₀ ha hd).carry (hquiet.pends hdrop' hup₀ hnd₀) (hquiet.pends hdrop' hup₀ hnd₀)
    · exact absurd (hnd₀.symm.trans hno) (by simp)
  · -- a submission touches the queue only
    obtain ⟨kicks, htimers, -⟩ := hq.timers
    have hback : ∀ i nd₁ a, (step w op).nodes i = some nd₁ → nd₁.currentAttempt = some a →
        ∃ nd, w.nodes i = some nd ∧ nd.currentAttempt = some a := by
      intro i nd₁ a hnd₁ ha
      rw [hq.nodes] at hnd₁
      by_cases hij : i = j
      · subst hij
        obtain rfl : _ = nd₁ := by simpa using hnd₁
        exact ⟨nd₀, hq.node, ha⟩
      · exact ⟨nd₁, by simpa [hij] using hnd₁, ha⟩
    have hmore : ∀ i id, Pends w.timers i id → Pends (step w op).timers i id := by
      rintro i id ⟨t, ht, hti⟩
      exact ⟨t, by rw [htimers]; exact List.mem_append_left _ ht, hti⟩
    refine ⟨fun i nd₁ a hnd₁ ha => ?_, fun i nd₁ a hup hnd₁ ha hd => ?_⟩
    · obtain ⟨nd, hnd, ha₀⟩ := hback i nd₁ a hnd₁ ha
      exact h.waiting i nd a hnd ha₀
    · obtain ⟨nd, hnd, ha₀⟩ := hback i nd₁ a hnd₁ ha
      rw [hq.crashed] at hup
      exact (h.awake i nd a hup hnd ha₀ hd).carry (hmore i _) (hmore i _)
  · have hnew := hcb.armed
    have hlaunch : ∀ (more : List (Effect SmrMsg)) {nd₀ nd₁ : SmrNode} {sh₀ sh₁ : Shared} {fx₂ : List (Effect SmrMsg)}
        {a : CurrentAttempt}, SmrNode.Launches ⟨j, w.now, rng⟩ nd₀ sh₀ nd₁ sh₁ fx₂ → fx = more ++ fx₂ →
        nd₁.currentAttempt = some a →
        a.proposer.Waiting ∧ Proposer.Awake False (step w (.env eop)).timers j a.proposer := by
      intro more nd₀ nd₁ sh₀ sh₁ fx₂ a hl hfx ha
      exact Launches.lively hl (fun d id hm => hnew d id (by rw [hfx]; exact hm)) ha
    -- the replica that the callback is about
    have hself : ∀ a, nd'.currentAttempt = some a → a.proposer.Waiting ∧
        (a.proposer.decided = none → Proposer.Awake False (step w (.env eop)).timers j a.proposer) := by
      intro a ha
      have hw₀ : ∀ a₀, nd.currentAttempt = some a₀ → a₀.proposer.Waiting := fun a₀ => h.waiting j nd a₀ hcb.node
      have haw₀ : ∀ a₀, x ≠ .restart → nd.currentAttempt = some a₀ → a₀.proposer.decided = none →
          Proposer.Awake False w.timers j a₀.proposer := by
        intro a₀ hx ha₀ hd
        refine h.awake j nd a₀ ?_ hcb.node ha₀ hd
        cases harises with
        | message hk hup => exact hup
        | timer hk hup hdue => exact hup
        | restart => exact absurd rfl hx
      generalize (step w (.env eop)).shared = sh' at hcourse
      cases hcourse with
      | serves =>
        refine ⟨hw₀ a ha, fun hd => ?_⟩
        exact (haw₀ a (by simp) ha hd).carry (fun hp => hcb.kept harises hp (by simp))
          fun hp => hcb.kept harises hp (by simp)
      | ignores hreq hrestart htimer =>
        refine ⟨hw₀ a ha, fun hd => ?_⟩
        have hother : ∀ id, id ≠ .kickoff → id ≠ .catchUpWatchdog → x ≠ .timer id := by
          intro id hk hwd hx
          rcases htimer id a hx ha with h1 | h2
          · exact hk h1
          · exact hwd h2
        exact (haw₀ a hrestart ha hd).carry
          (fun hp => hcb.kept harises hp fun _ => hother _ (by simp) (by simp))
          fun hp => hcb.kept harises hp fun _ => hother _ (by simp) (by simp)
      | @drives x attempt p fx hold hcall =>
        obtain ⟨b, hb⟩ := SmrNode.withAttempt_drives nd { attempt with proposer := p }
        obtain rfl := Option.some.inj (hb.symm.trans ha)
        have hstart := (hs.live j nd attempt hcb.node hold).started
        cases hcall with
        | reply hslot hc hd =>
          refine ⟨Proposer.onResponse_waiting (hw₀ attempt hold) hc, fun hdec => ?_⟩
          have hstep := (Proposer.onResponse_rises hc).2
          refine Proposer.reply_awake (fun _ hd₀ => haw₀ attempt (by simp) hold hd₀)
            (fun id hp => hcb.kept harises hp (by simp)) hnew hc ?_ hdec
          show p.step ≠ 0
          omega
        | timer hk hwd hc =>
          refine ⟨Proposer.onTimer_waiting (hw₀ attempt hold) hc, fun hdec => ?_⟩
          have hstep := (Proposer.onTimer_rises hc hk).2
          refine Proposer.timer_awake (fun _ hd₀ => haw₀ attempt (by simp) hold hd₀) (hw₀ attempt hold)
            (fun hid => absurd hid hk) (fun y hy hp => ?_) hnew hc ?_ hdec
          · exact hcb.kept harises hp fun _ => by simpa using Ne.symm hy
          · show p.step ≠ 0
            omega
      | begins _ hl => exact (hlaunch [] hl rfl ha).imp_right fun haw _ => haw
      | reissues _ _ _ _ hl => exact (hlaunch [] hl rfl ha).imp_right fun haw _ => haw
      | rejoins hl => exact (hlaunch [] hl rfl ha).imp_right fun haw _ => haw
      | finishes _ _ _ _ _ hnext =>
        rcases hnext with ⟨rfl, -⟩ | hl
        · exact absurd ha (by simp [SmrNode.applied])
        · exact (hlaunch _ hl rfl ha).imp_right fun haw _ => haw
    refine ⟨fun i nd₁ a hnd₁ ha => ?_, fun i nd₁ a hup hnd₁ ha hd => ?_⟩
    · rcases callback_node hcb hnd₁ with ⟨rfl, rfl⟩ | ⟨-, hold⟩
      · exact (hself a ha).1
      · exact h.waiting i nd₁ a hold ha
    · rcases callback_node hcb hnd₁ with ⟨rfl, rfl⟩ | ⟨hij, hold⟩
      · exact (hself a ha).2 hd
      · have hup₀ : w.crashed i = false := by
          rw [hcb.crashed] at hup
          simpa [hij] using hup
        exact (h.awake i nd₁ a hup₀ hold ha hd).carry (fun hp => hcb.kept harises hp fun heq => absurd heq hij)
          fun hp => hcb.kept harises hp fun heq => absurd heq hij

theorem lively_cluster (s : Setup) : Lively s.cluster := by
  have hidle : ∀ i nd a, s.cluster.nodes i = some nd → nd.currentAttempt ≠ some a := by
    intro i nd a hnd ha
    rw [cluster_idle hnd] at ha
    cases ha
  exact ⟨fun i nd a hnd ha => absurd ha (hidle i nd a hnd), fun i nd a _ hnd ha => absurd ha (hidle i nd a hnd)⟩

/-- **Run lemma.** -/
theorem lively_run (s : Setup) {ops : List SmrOp} (hdrop : ∀ k, .env (.dropTimer k) ∉ ops)
    (hok : (s.cluster.run ops).panicked = none) : Lively (s.cluster.run ops) := by
  induction ops using List.reverseRecOn with
  | nil => exact lively_cluster s
  | append_singleton ops op ih =>
    rw [run, Runs.run_snoc] at hok ⊢
    -- a panicked cluster would have stopped there
    have hbefore : (s.cluster.run ops).panicked = none := by
      refine Option.eq_none_iff_forall_ne_some.2 fun e he => ?_
      rw [show Runs.run step s.cluster ops = s.cluster.run ops from rfl, step_stopped he op, he] at hok
      exact absurd hok (by simp)
    have hlively := ih (fun k hk => hdrop k (List.mem_append_left _ hk)) hbefore
    refine lively_step (sane_run s ops) hlively (fun k hk => ?_) hok
    exact hdrop k (by rw [← hk]; exact List.mem_append_right _ (List.mem_singleton.2 rfl))

end Smr

/-- **No proposer is parked.** Under any schedule that drops no timer, a started and undecided proposer of a node that
never crashed has a pending timer that makes it act; so has every attempt of a replica that is up. What the timer does
when it fires: a retry resends what is unanswered and is armed again, a hedge timer begins the step or is armed again. -/
theorem never_parked :
    (∀ (V : Type) [LinearOrder V] (n : ℕ) (cfg : NodeId → Option (ReplicaCfg V)) (ops : List ClusterOp) (i : NodeId)
      (nd : ReplicaNode V),
      (∀ op ∈ ops, op ≠ .env (.crash i) ∧ ∀ k, op ≠ .env (.dropTimer k)) →
      ((Concrete.build n cfg).run ops).nodes i = some nd → nd.proposer.step ≠ 0 → nd.proposer.decided = none →
      (nd.proposer.activated = true →
        nd.proposer.Repeats ∧ (Pends ((Concrete.build n cfg).run ops).timers i (.retry nd.proposer.step) ∨
          nd.proposer.activationDelay ≠ 0 ∧ nd.proposer.step = FIRST_ROUND_STEP ∧
            Pends ((Concrete.build n cfg).run ops).timers i .hedge)) ∧
      (nd.proposer.activated = false → Pends ((Concrete.build n cfg).run ops).timers i .hedge) ∧
      nd.proposer.Rehedges) ∧
    (∀ (s : Smr.Setup) (ops : List SmrOp) (i : NodeId) (nd : SmrNode) (a : CurrentAttempt),
      (∀ k, .env (.dropTimer k) ∉ ops) → (s.cluster.run ops).panicked = none → (s.cluster.run ops).crashed i = false →
      (s.cluster.run ops).nodes i = some nd → nd.currentAttempt = some a → a.proposer.decided = none →
      (a.proposer.activated = true →
        a.proposer.Repeats ∧ Pends (s.cluster.run ops).timers i (.retry a.proposer.step)) ∧
      (a.proposer.activated = false → Pends (s.cluster.run ops).timers i .hedge) ∧
      a.proposer.Rehedges) := by
  constructor
  · intro V _ n cfg ops i nd hops hnd hs hd
    have hlively : Concrete.Lively i ((Concrete.build n cfg).run ops) := Concrete.lively_run cfg hops
    have hunbroken : Concrete.Unbroken ((Concrete.build n cfg).run ops) := Concrete.unbroken_run cfg ops
    have hawake := hlively.awake nd hnd hs hd
    refine ⟨fun ha => ⟨?_, ?_⟩, hawake.passive, Proposer.rehedges hd⟩
    · exact Proposer.repeats hd ha (hunbroken.stocked i nd hnd) (hlively.waiting nd hnd hd)
    · exact (hawake.active ha).imp_right fun h => h.2
  · intro s ops i nd a hdrop hok hup hnd ha hd
    have hlively := Smr.lively_run s hdrop hok
    have hawake := hlively.awake i nd a hup hnd ha hd
    refine ⟨fun hact => ⟨?_, ?_⟩, hawake.passive, Proposer.rehedges hd⟩
    · exact Proposer.repeats hd hact ((Smr.unbroken_run s ops).stocked i nd a hnd ha) (hlively.waiting i nd a hnd ha hd)
    · exact (hawake.active hact).resolve_right fun h => h.1

/-- replica 0 after its first push, and a replica that took in an operation -/
theorem never_parked_activated :
    (∃ nd, ((Concrete.newWithDelays Concrete.idValues none Concrete.lateDelays).run Concrete.firstPush).nodes 0 =
        some nd ∧ nd.proposer.activated = true ∧
      Pends ((Concrete.newWithDelays Concrete.idValues none Concrete.lateDelays).run Concrete.firstPush).timers 0
        (.retry nd.proposer.step)) ∧
    ∃ nd a, ((Smr.Setup.leader 3 (some 0)).cluster.run
        [.submit 0 (.get 1 1 7), .env (.tick 1), .env (.fire 0 (drawing 1))]).nodes 0 = some nd ∧
      nd.currentAttempt = some a ∧
      Pends ((Smr.Setup.leader 3 (some 0)).cluster.run
        [.submit 0 (.get 1 1 7), .env (.tick 1), .env (.fire 0 (drawing 1))]).timers 0 (.retry a.proposer.step) := by
  constructor
  · have hrun : (((Concrete.newWithDelays Concrete.idValues none Concrete.lateDelays).run Concrete.firstPush).nodes 0).map
        (fun nd => (nd.proposer.step, nd.proposer.decided, nd.proposer.activated)) = some (5, none, true) := by
      decide +kernel
    obtain ⟨nd, hnd, heq⟩ := Option.map_eq_some_iff.1 hrun
    simp only [Prod.mk.injEq] at heq
    obtain ⟨hstep, hdec, hact⟩ := heq
    have hops : ∀ op ∈ Concrete.firstPush, op ≠ .env (.crash 0) ∧ ∀ k, op ≠ .env (.dropTimer k) := by
      intro op hop
      simp only [Concrete.firstPush, Concrete.runSlot, Concrete.wait, Concrete.fire, Concrete.deliver, List.mem_append,
        List.mem_map, List.mem_cons] at hop
      cases op with
      | kick j => exact ⟨by simp, by simp⟩
      | env e =>
        cases e with
        | crash j => simp at hop
        | dropTimer k => simp at hop
        | _ => exact ⟨by simp, by simp⟩
    have h := never_parked.1 ℕ _ _ Concrete.firstPush 0 nd hops hnd (by rw [hstep]; decide) hdec
    refine ⟨nd, hnd, hact, ((h.1 hact).2).resolve_right fun hfour => ?_⟩
    rw [hstep] at hfour
    exact absurd hfour.2.1 (by decide)
  · have hrun : (((Smr.Setup.leader 3 (some 0)).cluster.run
        [.submit 0 (.get 1 1 7), .env (.tick 1), .env (.fire 0 (drawing 1))]).nodes 0).bind (fun nd =>
          nd.currentAttempt.map fun a => (a.proposer.decided, a.proposer.activated)) = some (none, true) := by
      decide +kernel
    obtain ⟨nd, hnd, hrun⟩ := Option.bind_eq_some_iff.1 hrun
    obtain ⟨a, ha, heq⟩ := Option.map_eq_some_iff.1 hrun
    simp only [Prod.mk.injEq] at heq
    have h := never_parked.2 (.leader 3 (some 0)) _ 0 nd a (by simp) (by decide +kernel) (by decide +kernel) hnd ha heq.1
    exact ⟨nd, a, hnd, ha, (h.1 heq.2).2⟩

end Queso
