/-
No proposer is parked.

A started, undecided proposer always has a pending timer that makes it act (`Awake`): the retry timer of its own step once
it has activated, the hedge timer before that. Timers cannot be cancelled, so this is about which firings are idle: a
retry for another step, or before the activation, leaves the effective timer pending.

A second start is the exception: it takes a hedged proposer back to step 4 and arms only the hedge timer, although the
proposer has activated. `R` says whether proposers are started again. In a replicated log they are not.

`repeats` and `rehedges` say what the two timers do when they fire.
-/
import Queso.Consensus.Panics
import Queso.Consensus.Retry

namespace Queso

variable {V : Type}

namespace Proposer

/-- one of the pending timers `T` makes the proposer of node `i` act -/
structure Awake (R : Prop) (T : List PendingTimer) (i : NodeId) (p : Proposer V) : Prop where
  active : p.activated = true →
    Pends T i (.retry p.step) ∨ R ∧ p.activationDelay ≠ 0 ∧ p.step = FIRST_ROUND_STEP ∧ Pends T i .hedge
  passive : p.activated = false → Pends T i .hedge

/-! ## What the two timers do -/

/-- the retry timer of the proposer's own step resends every unanswered request, and is armed again -/
def Repeats (p : Proposer V) : Prop :=
  ∀ localStep draw, ∃ fx,
    p.onTimer (.retry p.step) localStep draw = .ok ({ p with retriesThisStep := p.retriesThisStep + 1 }, fx) ∧
    (∀ r < p.totalReplicas, r ∉ p.responses → ∃ q, p.sent.lookup r = some q ∧ p.sendRequest r q ∈ fx) ∧
    .timer (retryBackoffDelay p.retriesThisStep) (.retry p.step) ∈ fx

/-- the hedge timer begins the proposer's step, or is armed again -/
def Rehedges (p : Proposer V) : Prop :=
  ∀ localStep draw, ∃ p' fx, p.onTimer .hedge localStep draw = .ok (p', fx) ∧
    (p' = (p.beginStep draw).1 ∧ fx = (p.beginStep draw).2 ∨ .timer HEDGE_RECHECK_TICKS .hedge ∈ fx)

/-- a resend goes to each of the recorders it is for -/
theorem mem_resend {p : Proposer V} {rs : List NodeId} {fx : List (Effect (ConcreteMsg V))} (h : p.resend rs = .ok fx)
    {r : NodeId} (hr : r ∈ rs) : ∃ q, p.sent.lookup r = some q ∧ p.sendRequest r q ∈ fx := by
  induction rs generalizing fx with
  | nil => exact absurd hr (by simp)
  | cons a rs ih =>
    unfold resend at h
    cases hl : p.sent.lookup a with
    | none => rw [hl] at h; exact absurd h (by simp)
    | some q =>
      rw [hl] at h
      dsimp only at h
      cases hrest : p.resend rs with
      | error e => rw [hrest] at h; exact absurd h (by simp)
      | ok fx' =>
        rw [hrest] at h
        simp only [Except.ok.injEq] at h
        subst h
        rcases List.mem_cons.1 hr with rfl | hr
        · exact ⟨q, hl, List.mem_cons_self ..⟩
        · obtain ⟨x, hx, hmem⟩ := ih hrest hr
          exact ⟨x, hx, List.mem_cons_of_mem _ hmem⟩

theorem repeats {p : Proposer V} (hd : p.decided = none) (ha : p.activated = true) (hst : p.Stocked)
    (hq : ¬ p.Quorate) : p.Repeats := by
  intro localStep draw
  have hsent : ∀ r ∈ p.allRecorders.filter fun r => r ∉ p.responses, p.sent.lookup r ≠ none := by
    intro r hr
    refine hst ha r ?_
    simpa [allRecorders] using (List.mem_filter.1 hr).1
  obtain ⟨fx, hfx⟩ := resend_ok hsent
  refine ⟨fx ++ [.timer (retryBackoffDelay p.retriesThisStep) (.retry p.step)], ?_, fun r hr hnew => ?_, by simp⟩
  · have hlive : ¬ (p.decided.isSome = true ∨ p.activated = false ∨ p.step ≠ p.step) := by simp [hd, ha]
    unfold onTimer
    dsimp only
    rw [if_neg hlive, if_neg (show ¬ p.quorumThreshold ≤ p.responses.keys.length from hq), hfx]
  · obtain ⟨q, hl, hmem⟩ := mem_resend hfx (List.mem_filter.2 ⟨List.mem_range.2 hr, by simpa using hnew⟩)
    exact ⟨q, hl, List.mem_append_left _ hmem⟩

theorem rehedges {p : Proposer V} (hd : p.decided = none) : p.Rehedges := by
  intro localStep draw
  have hnot : ¬ p.decided.isSome = true := by simp [hd]
  unfold onTimer maybeActivateAfterHedge
  dsimp only
  rw [if_neg hnot]
  split_ifs
  · exact ⟨_, _, rfl, .inr (List.mem_singleton.2 rfl)⟩
  · exact ⟨_, _, rfl, .inl ⟨rfl, rfl⟩⟩

/-! ## An undecided proposer waits for a quorum -/

/-- whatever an undecided proposer has collected is no quorum yet -/
def Waiting (p : Proposer V) : Prop := p.decided = none → ¬ p.Quorate

theorem waiting_empty {p : Proposer V} (h : p.responses = ∅) : p.Waiting := by
  intro _ hq
  unfold Quorate quorumThreshold at hq
  rw [h] at hq
  have hlen : (∅ : ByRecorder (RecordResponse V)).keys.length = 0 := rfl
  omega

theorem onTimer_waiting {p p' : Proposer V} {id : TimerId} {localStep : ℕ} {draw : NodeId → Draw}
    {fx : List (Effect (ConcreteMsg V))} (h : p.Waiting) (hcall : p.onTimer id localStep draw = .ok (p', fx)) :
    p'.Waiting := by
  cases onTimer_moves hcall with
  | quiet => exact h
  | restarts => exact waiting_empty rfl
  | rewinds => exact h
  | activates => exact waiting_empty rfl
  | resends => exact h

/-- processing a quorum decides, or begins a step with nothing collected -/
theorem processQuorum_clears [LinearOrder V] {p p' : Proposer V} {draw : NodeId → Draw}
    {fx : List (Effect (ConcreteMsg V))} (h : p.processQuorum draw = .ok (p', fx)) :
    p'.decided ≠ none ∨ p'.responses = ∅ := by
  rcases processQuorum_ok h with ⟨p₁, -, -, ⟨-, hbegin⟩ | ⟨hd, rfl, -⟩⟩ | ⟨best, q, -, -, hbegin⟩
  · rw [← show (({ p₁ with step := p₁.step + 1 } : Proposer V).beginStep draw).1 = p' by rw [hbegin]]
    exact .inr rfl
  · exact .inl hd
  · rw [← show (({ p with step := best.step, proposal := q } : Proposer V).beginStep draw).1 = p' by rw [hbegin]]
    exact .inr rfl

theorem onResponse_waiting [LinearOrder V] {p p' : Proposer V} {src : NodeId} {resp : RecordResponse V}
    {draw : NodeId → Draw} {fx : List (Effect (ConcreteMsg V))} (h : p.Waiting)
    (hcall : p.onResponse src resp draw = .ok (p', fx)) : p'.Waiting := by
  rcases onResponse_ok hcall with ⟨rfl, -⟩ | ⟨-, -, -, ⟨-, hprocess⟩ | ⟨hq, rfl, -⟩⟩
  · exact h
  · rcases processQuorum_clears hprocess with hdec | hempty
    · exact fun hnone => absurd hnone hdec
    · exact waiting_empty hempty
  · exact fun _ => hq

/-! ## Some timer stays effective -/

section Awake

variable {R : Prop} {T T' : List PendingTimer} {i : NodeId} {p p' : Proposer V} {draw : NodeId → Draw}
  {fx : List (Effect (ConcreteMsg V))}

/-- it is enough that the effective timers are still pending -/
theorem Awake.carry (h : Awake R T i p) (hr : Pends T i (.retry p.step) → Pends T' i (.retry p.step))
    (hh : Pends T i .hedge → Pends T' i .hedge) : Awake R T' i p := by
  refine ⟨fun ha => ?_, fun ha => hh (h.passive ha)⟩
  rcases h.active ha with hold | ⟨hR, hdelay, hfour, hold⟩
  · exact .inl (hr hold)
  · exact .inr ⟨hR, hdelay, hfour, hh hold⟩

/-- a begun step has its retry timer -/
theorem awake_begins (hnew : ∀ d id, .timer d id ∈ (p.beginStep draw).2 → Pends T' i id) :
    Awake R T' i (p.beginStep draw).1 := by
  refine ⟨fun _ => .inl ?_, fun ha => absurd ha (by simp)⟩
  exact hnew RETRY_DELAY_TICKS (.retry p.step) (by simp [beginStep])

theorem reply_awake [LinearOrder V] {src : NodeId} {resp : RecordResponse V}
    (h : p.step ≠ 0 → p.decided = none → Awake R T i p) (hkeep : ∀ id, Pends T i id → Pends T' i id)
    (hnew : ∀ d id, .timer d id ∈ fx → Pends T' i id)
    (hcall : p.onResponse src resp draw = .ok (p', fx)) (hstep : p'.step ≠ 0) (hd : p'.decided = none) :
    Awake R T' i p' := by
  rcases onResponse_moves hcall with ⟨rfl, -⟩ | ⟨hnone, -, -, hans⟩
  · exact (h hstep hd).carry (hkeep _) (hkeep _)
  · cases hans with
    | waits =>
      have hold := (h hstep hnone).carry (hkeep _) (hkeep _)
      exact ⟨hold.active, hold.passive⟩
    | advances => exact awake_begins hnew
    | jumps => exact awake_begins hnew
    | decides => exact absurd hd (by simp)

theorem timer_awake {id : TimerId} {localStep : ℕ} (h : p.step ≠ 0 → p.decided = none → Awake R T i p)
    (hw : p.Waiting) (hR : id = .kickoff → R) (hkeep : ∀ y, y ≠ id → Pends T i y → Pends T' i y)
    (hnew : ∀ d y, .timer d y ∈ fx → Pends T' i y)
    (hcall : p.onTimer id localStep draw = .ok (p', fx)) (hstep : p'.step ≠ 0) (hd : p'.decided = none) :
    Awake R T' i p' := by
  unfold onTimer at hcall
  cases id with
  | kickoff =>
    unfold start at hcall
    simp only [Except.ok.injEq] at hcall
    split_ifs at hcall with hdec ha
    · simp only [Prod.mk.injEq] at hcall
      rw [← hcall.1] at hd
      rw [hd] at hdec
      exact absurd hdec (by simp)
    · rw [show p' = _ from (congrArg Prod.fst hcall).symm]
      exact awake_begins (by rw [show (Proposer.beginStep _ draw).2 = fx from congrArg Prod.snd hcall]; exact hnew)
    · simp only [Prod.mk.injEq] at hcall
      obtain ⟨rfl, rfl⟩ := hcall
      have hhedge : Pends T' i .hedge := hnew p.activationDelay .hedge (List.mem_singleton.2 rfl)
      exact ⟨fun _ => .inr ⟨hR rfl, ha, rfl, hhedge⟩, fun _ => hhedge⟩
  | hedge =>
    unfold maybeActivateAfterHedge at hcall
    simp only [Except.ok.injEq] at hcall
    split_ifs at hcall with hdec hf
    · simp only [Prod.mk.injEq] at hcall
      rw [← hcall.1] at hd
      rw [hd] at hdec
      exact absurd hdec (by simp)
    · -- deferred once more: the hedge timer is pending again, and no retry timer was lost
      simp only [Prod.mk.injEq] at hcall
      obtain ⟨rfl, rfl⟩ := hcall
      have hhedge : Pends T' i .hedge := hnew HEDGE_RECHECK_TICKS .hedge (List.mem_singleton.2 rfl)
      have hold := h hstep hd
      refine ⟨fun ha => ?_, fun _ => hhedge⟩
      rcases hold.active ha with hretry | ⟨hr, hdelay, hfour, -⟩
      · exact .inl (hkeep _ (by simp) hretry)
      · exact .inr ⟨hr, hdelay, hfour, hhedge⟩
    · rw [show p' = _ from (congrArg Prod.fst hcall).symm]
      exact awake_begins (by rw [show (Proposer.beginStep _ draw).2 = fx from congrArg Prod.snd hcall]; exact hnew)
  | catchUpWatchdog =>
    simp only [Except.ok.injEq, Prod.mk.injEq] at hcall
    obtain ⟨rfl, rfl⟩ := hcall
    exact (h hstep hd).carry (hkeep _ (by simp)) (hkeep _ (by simp))
  | retry s =>
    dsimp only at hcall
    split_ifs at hcall with hstale hq
    · simp only [Except.ok.injEq, Prod.mk.injEq] at hcall
      obtain ⟨rfl, rfl⟩ := hcall
      have hold := h hstep hd
      by_cases hs : s = p.step
      · -- a retry before the activation: the hedge timer is what counts
        have hpas : p.activated = false := by
          rcases hstale with hdec | hact | hne
          · rw [hd] at hdec
            exact absurd hdec (by simp)
          · exact hact
          · exact absurd hs hne
        exact ⟨fun ha => absurd (hpas.symm.trans ha) (by simp), fun ha => hkeep _ (by simp) (hold.passive ha)⟩
      · have hne : (.retry p.step : TimerId) ≠ .retry s := by simpa using Ne.symm hs
        exact hold.carry (hkeep _ hne) (hkeep _ (by simp))
    · push Not at hstale
      have hnone : p.decided = none := by simpa using hstale.1
      exact absurd hq (hw hnone)
    · push Not at hstale
      obtain ⟨-, hact, rfl⟩ := hstale
      cases hr : p.resend (p.allRecorders.filter fun r => r ∉ p.responses) with
      | error e => rw [hr] at hcall; exact absurd hcall (by simp)
      | ok fx' =>
        rw [hr] at hcall
        simp only [Except.ok.injEq, Prod.mk.injEq] at hcall
        obtain ⟨rfl, rfl⟩ := hcall
        have hact' : p.activated = true := by simpa using hact
        refine ⟨fun _ => .inl ?_, fun ha => absurd (hact'.symm.trans ha) (by simp)⟩
        exact hnew (retryBackoffDelay p.retriesThisStep) (.retry p.step) (by simp)

end Awake

end Proposer

/-! ## The single-slot cluster -/

namespace Concrete

variable [LinearOrder V] {n : ℕ} {w : Concrete V} {i : NodeId}

/-- node `i` is up, and its proposer is not parked -/
structure Lively (i : NodeId) (w : Concrete V) : Prop where
  up : w.crashed i = false
  waiting : ∀ nd, w.nodes i = some nd → nd.proposer.Waiting
  awake : ∀ nd, w.nodes i = some nd → nd.proposer.step ≠ 0 → nd.proposer.decided = none →
    Proposer.Awake True w.timers i nd.proposer

/-- **Step lemma.** While node `i` is up and no timer is dropped, its proposer stays unparked. -/
theorem lively_step (h : Lively i w) {op : ClusterOp} (hcrash : op ≠ .env (.crash i))
    (hdrop : ∀ k, op ≠ .env (.dropTimer k)) (hok : (step w op).panicked = none) : Lively i (step w op) := by
  rcases step_turns hok with ⟨eop, rfl, hquiet⟩ | ⟨j, -, hsame | hkick⟩ |
    ⟨eop, j, x, rng, left, nd, nd', fx, rfl, harises, hcb, htook⟩
  · have hup : (step w (.env eop)).crashed i = false :=
      (hquiet.up i h.up).resolve_right fun heq => hcrash (by rw [heq])
    have hdrop' : ∀ k, eop ≠ .dropTimer k := fun k hk => hdrop k (by rw [hk])
    refine ⟨hup, fun nd hnd => h.waiting nd (by rw [← hquiet.nodes]; exact hnd), fun nd hnd hs hd => ?_⟩
    have hnd₀ : w.nodes i = some nd := by rw [← hquiet.nodes]; exact hnd
    exact (h.awake nd hnd₀ hs hd).carry (hquiet.pends hdrop' h.up hnd₀)
      (hquiet.pends hdrop' h.up hnd₀)
  · rw [hsame]
    exact h
  · rw [hkick]
    have hmore : ∀ id, Pends w.timers i id → Pends (w.injectTimer j 0 .kickoff).timers i id := by
      rintro id ⟨t, ht, hti⟩
      exact ⟨t, List.mem_append_left _ ht, hti⟩
    exact ⟨h.up, h.waiting, fun nd hnd hs hd => (h.awake nd hnd hs hd).carry (hmore _) (hmore _)⟩
  · have hup : (step w (.env eop)).crashed i = false := by
      rw [hcb.crashed]
      by_cases hij : i = j
      · subst hij; simp
      · simpa [hij] using h.up
    have hnew := hcb.armed
    refine ⟨hup, fun nd₁ hnd₁ => ?_, fun nd₁ hnd₁ hs hd => ?_⟩
    · rcases callback_node hcb hnd₁ with ⟨rfl, rfl⟩ | ⟨-, hold⟩
      · have hw := h.waiting nd hcb.node
        cases htook with
        | records => exact hw
        | reply hcall => exact Proposer.onResponse_waiting hw hcall
        | timer hcall => exact Proposer.onTimer_waiting hw hcall
        | restart => exact hw
      · exact h.waiting nd₁ hold
    · rcases callback_node hcb hnd₁ with ⟨rfl, rfl⟩ | ⟨hij, hold⟩
      · have haw := h.awake nd hcb.node
        cases htook with
        | records =>
          exact (haw hs hd).carry (fun hp => hcb.kept harises hp (by simp))
            fun hp => hcb.kept harises hp (by simp)
        | reply hcall =>
          exact Proposer.reply_awake haw (fun id hp => hcb.kept harises hp (by simp)) hnew hcall hs hd
        | timer hcall =>
          refine Proposer.timer_awake haw (h.waiting nd hcb.node) (fun _ => trivial) (fun y hy hp => ?_) hnew hcall hs hd
          exact hcb.kept harises hp fun _ => by simpa using Ne.symm hy
        | restart =>
          exact (haw hs hd).carry (fun hp => hcb.kept harises hp (by simp))
            fun hp => hcb.kept harises hp (by simp)
      · exact (h.awake nd₁ hold hs hd).carry (fun hp => hcb.kept harises hp fun heq => absurd heq hij)
          fun hp => hcb.kept harises hp fun heq => absurd heq hij

omit [LinearOrder V] in
theorem lively_build {cfg : NodeId → Option (ReplicaCfg V)} : Lively i (build n cfg) where
  up := rfl
  waiting := fun nd hnd => by
    have hprop : (view (build n cfg)).props i = some nd.proposer := by simp [view, arenaOf, hnd]
    exact Proposer.waiting_empty (build_fresh hprop).1.responses
  awake := fun nd hnd hs => by
    have hprop : (view (build n cfg)).props i = some nd.proposer := by simp [view, arenaOf, hnd]
    exact absurd (build_fresh hprop).1.step hs

/-- **Run lemma.** -/
theorem lively_run (cfg : NodeId → Option (ReplicaCfg V)) {ops : List ClusterOp}
    (hops : ∀ op ∈ ops, op ≠ .env (.crash i) ∧ ∀ k, op ≠ .env (.dropTimer k)) : Lively i ((build n cfg).run ops) := by
  let I : Concrete V → Prop := fun w => Sane n w ∧ Unbroken w ∧ Lively i w
  have hI : I ((build n cfg).run ops) := by
    refine Runs.run_invariant (I := I) (P := fun _ op => op ∈ ops) (fun w op hi hmem => ?_)
      ⟨sane_build cfg, unbroken_build cfg, lively_build⟩ (Runs.along_mem _ _ _)
    have hu := unbroken_step hi.1 hi.2.1 op
    exact ⟨sane_step hi.1 op, hu, lively_step hi.2.2 (hops op hmem).1 (hops op hmem).2 hu.panicked⟩
  exact hI.2.2

/-- replica 0 retried step 5 before the second push took it back to step 4 -/
def rehedged : List ClusterOp := firstPush ++ [wait 13, fire 2 1] ++ runSlot 3 ++ [wait 1, fire 2 1, fire 2 1]

/-- **A second push leaves an activated proposer to its hedge timer**: no retry timer for its step is pending. -/
theorem rehedged_without_retry :
    ∃ nd, ((newWithDelays idValues none lateDelays).run rehedged).nodes 0 = some nd ∧ nd.proposer.step ≠ 0 ∧
      nd.proposer.decided = none ∧ nd.proposer.activated = true ∧
      ¬ Pends ((newWithDelays idValues none lateDelays).run rehedged).timers 0 (.retry nd.proposer.step) := by
  have hrun : (((newWithDelays idValues none lateDelays).run rehedged).nodes 0).map (fun nd =>
      (nd.proposer.step, nd.proposer.decided, nd.proposer.activated)) = some (4, none, true) := by decide +kernel
  have htimers : ∀ t ∈ ((newWithDelays idValues none lateDelays).run rehedged).timers,
      ¬ (t.node = 0 ∧ t.id = .retry 4) := by decide +kernel
  obtain ⟨nd, hnd, heq⟩ := Option.map_eq_some_iff.1 hrun
  simp only [Prod.mk.injEq] at heq
  obtain ⟨hstep, hdec, hact⟩ := heq
  refine ⟨nd, hnd, by rw [hstep]; decide, hdec, hact, ?_⟩
  rintro ⟨t, ht, hnode, hid⟩
  rw [hstep] at hid
  exact htimers t ht ⟨hnode, hid⟩

end Concrete

end Queso
