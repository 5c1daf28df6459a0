/-
When the catch-up watchdog acts.

Timers cannot be cancelled, and a watchdog timer names neither the slot nor the generation it was armed for. The check of
the generation compares the last arm with itself, so whichever watchdog timer fires acts for the attempt in flight. A
timer armed for an earlier attempt is therefore harmless only if it is gone when a later one is watched: a restart and a
learned slot arm a second one beside it, the watchdog's own re-arm does not.
-/
import Queso.Smr.Agreement
import Queso.Smr.Episode

namespace Queso

namespace SmrNode

/-- the watchdog, if it fired now, would replace the attempt in flight -/
def watches (nd : SmrNode) : Bool :=
  match nd.watchdogArmedFor with
  | none => false
  | some (slot, generation) => decide (generation = nd.watchdogGeneration) && nd.stalledAt slot

/-- the reply makes a catch-up attempt learn a command that is not its probe -/
def learns (nd : SmrNode) (src : NodeId) (resp : RecordResponse Command) (draw : NodeId → Draw) : Bool :=
  nd.currentAttempt.any fun a =>
    decide (a.origin = .catchUp) && decide (a.slot = resp.slot) &&
      match a.proposer.onResponse src resp draw with
      | .ok (p, _) => p.decided.any fun c => decide (c ≠ a.command)
      | .error _ => false

variable {ctx : SmrCtx} {nd nd' : SmrNode} {sh sh' : Shared} {fx : List (Effect SmrMsg)}

/-- `watches` is all that the watchdog checks -/
theorem onCatchUpWatchdog_eq (ctx : SmrCtx) (nd : SmrNode) (sh : Shared) :
    onCatchUpWatchdog ctx nd sh =
      if nd.watches then beginCatchUp ctx { nd with currentAttempt := none } sh else .ok (nd, sh, []) := by
  unfold onCatchUpWatchdog watches
  cases nd.watchdogArmedFor with
  | none => rfl
  | some watched =>
    obtain ⟨slot, generation⟩ := watched
    dsimp only
    by_cases hg : generation = nd.watchdogGeneration
    · rw [if_neg (not_not.2 hg)]
      by_cases hst : nd.stalledAt slot = true
      · simp [hg, hst]
      · simp [hst]
    · rw [if_pos hg]
      simp [hg]

theorem catchingUp_attempt (h : nd.isCatchingUp = true) : ∃ a, nd.currentAttempt = some a := by
  unfold isCatchingUp at h
  cases ha : nd.currentAttempt with
  | none => rw [ha] at h; exact absurd h (by simp)
  | some a => exact ⟨a, rfl⟩

/-- a reply starts a catch-up attempt only where one learns a command that is not its probe -/
theorem onReply_learns {src : NodeId} {resp : RecordResponse Command}
    (h : onReply ctx src resp nd sh = .ok (nd', sh', fx)) (hcu : nd'.isCatchingUp = true)
    (hkey : nd'.inFlight ≠ nd.inFlight) : nd.learns src resp ctx.rng = true := by
  rcases onReply_ok h with ⟨rfl, -, -⟩ | ⟨attempt, p, fx₁, ha, hslot, hr, hnext⟩
  · exact absurd rfl hkey
  · rcases hnext with ⟨-, rfl, -, -⟩ | ⟨decided, fx₂, hd, hfin, -⟩
    · refine absurd ?_ hkey
      rw [withAttempt_inFlight]
      unfold inFlight
      rw [ha]
      rfl
    · obtain ⟨b, hb⟩ := withAttempt_drives nd { attempt with proposer := p }
      obtain ⟨ended, nd₂, sh₂, he, -, -, hlearn⟩ := finishAttempt_moves hfin
      obtain rfl := Option.some.inj (hb.symm.trans he)
      obtain ⟨ho, hne⟩ := hlearn.1 hcu
      unfold learns
      rw [ha]
      simp only [Option.any_some, Bool.and_eq_true, decide_eq_true_eq, hr, hd]
      exact ⟨⟨ho, hslot⟩, hne⟩

end SmrNode

/-! ## Which calls arm a watchdog -/

namespace Proposer

variable {V : Type}

theorem onTimer_unwatched {p p' : Proposer V} {id : TimerId} {localStep : ℕ} {draw : NodeId → Draw}
    {fx : List (Effect (ConcreteMsg V))} (h : p.onTimer id localStep draw = .ok (p', fx)) (d : ℕ) :
    .timer d .catchUpWatchdog ∉ fx := by
  intro hmem
  rcases (onTimer_moves h).armed hmem with ⟨s, hs⟩ | ⟨hs, -⟩
  · exact absurd hs (by simp)
  · exact absurd hs (by simp)

theorem start_unwatched (p : Proposer V) (draw : NodeId → Draw) (d : ℕ) :
    .timer d .catchUpWatchdog ∉ (p.start draw).2 :=
  onTimer_unwatched (show p.onTimer .kickoff 0 draw = .ok ((p.start draw).1, (p.start draw).2) from rfl) d

theorem onResponse_unwatched [LinearOrder V] {p p' : Proposer V} {src : NodeId} {resp : RecordResponse V}
    {draw : NodeId → Draw} {fx : List (Effect (ConcreteMsg V))} (h : p.onResponse src resp draw = .ok (p', fx)) (d : ℕ) :
    .timer d .catchUpWatchdog ∉ fx := by
  intro hmem
  obtain ⟨s, hs⟩ := onResponse_armed h hmem
  exact absurd hs (by simp)

end Proposer

namespace SmrNode

variable {ctx : SmrCtx} {nd nd' : SmrNode} {sh sh' : Shared} {fx : List (Effect SmrMsg)}

/-- a launch arms one watchdog, if it launches a probe -/
theorem Launches.watchdog (h : Launches ctx nd sh nd' sh' fx) :
    nd'.isCatchingUp = false ∧ (∀ d, .timer d .catchUpWatchdog ∉ fx) ∨
      nd'.isCatchingUp = true ∧ ∃ more, fx = more ++ [.timer CATCH_UP_WATCHDOG_TICKS .catchUpWatchdog] ∧
        ∀ d, .timer d .catchUpWatchdog ∉ more := by
  cases h with
  | @op o queue leader delay hq hl hd =>
    exact .inl ⟨launch_op_isCatchingUp _ _ _ _ _ _, Proposer.start_unwatched _ _⟩
  | @probe delay hd =>
    exact .inr ⟨launch_probe_isCatchingUp _ _ _ _, _, rfl, Proposer.start_unwatched _ _⟩

/-- **All a callback does to the watchdog**: it arms none and leaves a catch-up attempt as it is; or it launches one and
arms a single watchdog, which only a restart, a watchdog and a learned command do -/
theorem Course.watchdog {x : Stimulus SmrMsg} (h : Course ctx nd sh x nd' sh' fx)
    (hout : behaviour.respond ctx x nd sh = .ok (nd', sh', fx)) :
    (∀ d, .timer d .catchUpWatchdog ∉ fx) ∧
        (nd'.isCatchingUp = true → nd'.inFlight = nd.inFlight ∧ nd.isCatchingUp = true) ∨
      (∃ more, fx = more ++ [.timer CATCH_UP_WATCHDOG_TICKS .catchUpWatchdog] ∧
        ∀ d, .timer d .catchUpWatchdog ∉ more) ∧ nd'.isCatchingUp = true ∧ nd'.inFlight ≠ nd.inFlight ∧
        (x = .timer .catchUpWatchdog ∧ nd.isCatchingUp = true ∨ x = .restart ∨
          ∃ src resp, x = .message src (.response resp) ∧ nd.learns src resp ctx.rng = true) := by
  -- a launched attempt is a probe, or nothing is watched
  have hlaunched : ∀ {nd₁ sh₁ pre fx₁}, Launches ctx nd₁ sh₁ nd' sh' fx₁ → (∀ d, .timer d .catchUpWatchdog ∉ pre) →
      nd'.isCatchingUp = false ∧ (∀ d, .timer d .catchUpWatchdog ∉ pre ++ fx₁) ∨
        nd'.isCatchingUp = true ∧ ∃ more, pre ++ fx₁ = more ++ [.timer CATCH_UP_WATCHDOG_TICKS .catchUpWatchdog] ∧
          ∀ d, .timer d .catchUpWatchdog ∉ more := by
    intro nd₁ sh₁ pre fx₁ hl hpre
    rcases hl.watchdog with ⟨hnot, hnone⟩ | ⟨hcu, more, rfl, hmore⟩
    · refine .inl ⟨hnot, fun d hd => ?_⟩
      rcases List.mem_append.1 hd with hd | hd
      · exact hpre d hd
      · exact hnone d hd
    · refine .inr ⟨hcu, pre ++ more, (List.append_assoc _ _ _).symm, fun d hd => ?_⟩
      rcases List.mem_append.1 hd with hd | hd
      · exact hpre d hd
      · exact hmore d hd
  cases h with
  | serves => exact .inl ⟨by simp, fun hcu => ⟨rfl, hcu⟩⟩
  | ignores => exact .inl ⟨by simp, fun hcu => ⟨rfl, hcu⟩⟩
  | @drives x attempt p fx ha hc =>
    refine .inl ⟨fun d => ?_, fun hcu => ⟨?_, ?_⟩⟩
    · cases hc with
      | reply _ hc _ => exact Proposer.onResponse_unwatched hc d
      | timer _ _ hc => exact Proposer.onTimer_unwatched hc d
    · rw [withAttempt_inFlight]
      unfold inFlight
      rw [ha]
      rfl
    · rw [(withAttempt_drives nd { attempt with proposer := p }).isCatchingUp] at hcu
      unfold isCatchingUp
      rw [ha]
      exact hcu
  | begins hidle hl hop =>
    rcases hlaunched hl (fun d => List.not_mem_nil) with ⟨-, hnone⟩ | ⟨hcu, -⟩
    · exact .inl ⟨hnone, fun hcu => absurd (hop.symm.trans hcu) (by simp)⟩
    · exact absurd (hop.symm.trans hcu) (by simp)
  | reissues ha ho hw hg hl hcu =>
    rcases hlaunched hl (fun d => List.not_mem_nil) with ⟨hnot, -⟩ | ⟨-, hmore⟩
    · exact absurd (hnot.symm.trans hcu) (by simp)
    · refine .inr ⟨hmore, hcu, hl.inFlight_ne hcu rfl, .inl ⟨rfl, ?_⟩⟩
      unfold isCatchingUp
      rw [ha]
      simp [ho]
  | rejoins hl hcu =>
    rcases hlaunched hl (fun d => List.not_mem_nil) with ⟨hnot, -⟩ | ⟨-, hmore⟩
    · exact absurd (hnot.symm.trans hcu) (by simp)
    · exact .inr ⟨hmore, hcu, hl.inFlight_ne hcu rfl, .inr (.inl rfl)⟩
  | @finishes src resp attempt p fx₁ decided queue sh₂ nd' sh' fx₂ ha hslot hfront hr hd hnext =>
    have hpre := Proposer.onResponse_unwatched hr
    rcases hnext with ⟨rfl, rfl⟩ | hl
    · refine .inl ⟨fun d => by simpa using hpre d, fun hcu => absurd hcu ?_⟩
      simp [isCatchingUp, applied]
    · rcases hlaunched hl hpre with ⟨hnot, hnone⟩ | ⟨hcu, hmore⟩
      · exact .inl ⟨hnone, fun hcu => absurd (hnot.symm.trans hcu) (by simp)⟩
      · have hkey : nd'.inFlight ≠ nd.inFlight := hl.inFlight_ne hcu rfl
        exact .inr ⟨hmore, hcu, hkey, .inr (.inr ⟨src, resp, rfl, onReply_learns hout hcu hkey⟩)⟩

end SmrNode

/-! ## Over a run -/

namespace Smr

/-- the step starts a catch-up attempt at replica `i` other than by its watchdog: the replica restarts, or it learns a
command that is not its probe -/
def rearms (w : Smr) (i : NodeId) : SmrOp → Bool
  | .env (.restart j _) => decide (j = i)
  | .env (.deliver k rng) =>
    !w.crashed i && (w.net[k]?).any fun e => decide (e.dst = i) &&
      match e.payload with
      | .request _ => false
      | .response resp => (w.nodes i).any fun nd => nd.learns e.src resp rng
  | _ => false

/-- such a step finds no watchdog timer of the replica pending -/
def Unhurried (i : NodeId) (w : Smr) (op : SmrOp) : Prop :=
  rearms w i op = true → ownTimers w i .catchUpWatchdog = []

instance (i : NodeId) (w : Smr) (op : SmrOp) : Decidable (Unhurried i w op) := by
  unfold Unhurried; infer_instance

/-- a watchdog that replaces the attempt of replica `i` finds it a full interval old -/
def Patient (i : NodeId) (f : Followed) (op : SmrOp) : Prop :=
  ∀ nd nd' t, f.world.nodes i = some nd → (step f.world op).nodes i = some nd' → nd'.inFlight ≠ nd.inFlight →
    fired f.world i op = some t → t.id = .catchUpWatchdog →
    f.episode.startedAt + CATCH_UP_WATCHDOG_TICKS ≤ f.world.now

/-- at most one pending watchdog timer can act on the attempt of replica `i` -/
def SoleWatch (i : NodeId) (w : Smr) : Prop :=
  ∀ nd, w.nodes i = some nd → nd.watches = true → (ownTimers w i .catchUpWatchdog).length ≤ 1

/-- replica `i` has one watchdog timer at most, and it leaves a catch-up attempt a full interval -/
structure Watched (i : NodeId) (f : Followed) : Prop where
  sole : (ownTimers f.world i .catchUpWatchdog).length ≤ 1
  due : ∀ nd, f.world.nodes i = some nd → nd.isCatchingUp = true →
    ∀ t ∈ ownTimers f.world i .catchUpWatchdog, f.episode.startedAt + CATCH_UP_WATCHDOG_TICKS ≤ t.fireAt

variable {i : NodeId} {f : Followed} {op : SmrOp}

/-- a callback that learns or restarts is one of the steps that rearm -/
theorem Own.rearms {w w' : Smr} {x : Stimulus SmrMsg} {rng : NodeId → Draw} {left : List PendingTimer}
    {nd nd' : SmrNode} {fx : List (Effect SmrMsg)} (h : Own w i op x rng left nd nd' fx w')
    (hx : x = .restart ∨ ∃ src resp, x = .message src (.response resp) ∧ nd.learns src resp rng = true) :
    rearms w i op = true := by
  obtain ⟨eop, rfl, harises⟩ := h.arises
  rcases hx with rfl | ⟨src, resp, rfl, hlearn⟩
  · cases harises with
    | restart => simp [Smr.rearms]
  · cases harises with
    | message hk hup => simp [Smr.rearms, hk, hup, h.callback.node, hlearn]

/-- **Step lemma.** -/
theorem watched_step (h : Watched i f) (hdup : ∀ k, op ≠ .env (.dupTimer k)) (hcalm : Unhurried i f.world op) :
    Watched i (f.step i op) := by
  rcases step_replica f.world i op with ⟨haside, hfired⟩ | ⟨x, rng, left, nd, nd', fx, hown⟩
  · have hnote : (f.step i op).episode = f.episode := haside.note hfired
    have hsub := haside.timers hdup .catchUpWatchdog (by simp)
    refine ⟨hsub.length_le.trans h.sole, fun nd' hnd' hcu t ht => ?_⟩
    obtain ⟨nd, queue, hnd, rfl⟩ := haside.node nd' hnd'
    rw [hnote]
    exact h.due nd hnd hcu t (hsub.subset ht)
  · obtain ⟨kept, htimers, hkept, hlost⟩ := hown.ownTimers .catchUpWatchdog
    have hout := hown.callback.outcome
    rcases hown.course.watchdog hout with ⟨hnone, hsame⟩ | ⟨⟨more, rfl, hmore⟩, hcu, hkey, hwhy⟩
    · -- nothing is armed
      have hpending : ownTimers (f.step i op).world i .catchUpWatchdog = kept := by
        rw [World.timersOf_unarmed hnone, List.append_nil] at htimers
        exact htimers
      refine ⟨by rw [hpending]; exact hkept.length_le.trans h.sole, fun nd₁ hnd₁ hcu t ht => ?_⟩
      obtain rfl : nd' = nd₁ := Option.some.inj (hown.node.symm.trans hnd₁)
      obtain ⟨hkey, hcu₀⟩ := hsame hcu
      obtain ⟨a, ha⟩ := SmrNode.catchingUp_attempt hcu
      have hnote : (f.step i op).episode = _ := hown.note_kept ha hkey
      rw [hpending] at ht
      rw [hnote]
      exact h.due nd hown.callback.node hcu₀ t (hkept.subset ht)
    · -- one is armed, and no other is pending
      have hempty : kept = [] := by
        have hshort := h.sole
        rcases hwhy with ⟨hx, -⟩ | hx
        · have hlen := hlost hx
          exact List.length_eq_zero_iff.1 (by omega)
        · have hnil := hcalm (hown.rearms hx)
          rw [hnil] at hkept
          exact List.sublist_nil.1 hkept
      have hpending : ownTimers (f.step i op).world i .catchUpWatchdog =
          [⟨i, .catchUpWatchdog, f.world.now + CATCH_UP_WATCHDOG_TICKS⟩] := by
        rw [World.timersOf_append, List.filter_append, World.timersOf_unarmed hmore, hempty] at htimers
        exact htimers
      refine ⟨by rw [hpending]; rfl, fun nd₁ hnd₁ _ t ht => ?_⟩
      obtain ⟨a, ha⟩ := SmrNode.catchingUp_attempt hcu
      have hnote : (f.step i op).episode = _ := hown.note_launched ha hkey
      rw [hpending] at ht
      rw [List.mem_singleton.1 ht, hnote]

/-- a watchdog that replaces the attempt is one that was armed for it -/
theorem Watched.patient (h : Watched i f) (op : SmrOp) : Patient i f op := by
  intro nd nd' t hnd hnd' hkey hfired hid
  rcases step_replica f.world i op with ⟨haside, -⟩ | ⟨x, rng, left, nd₀, nd₁, fx, hown⟩
  · obtain ⟨nd₀, queue, hnd₀, rfl⟩ := haside.node nd' hnd'
    obtain rfl : nd = nd₀ := Option.some.inj (hnd.symm.trans hnd₀)
    exact absurd rfl hkey
  · obtain rfl : nd = nd₀ := Option.some.inj (hnd.symm.trans hown.callback.node)
    obtain rfl : nd₁ = nd' := Option.some.inj (hown.node.symm.trans hnd')
    rcases hown.fired with ⟨hnot, -⟩ | ⟨t', ht', hx, hmem, hdue⟩
    · exact absurd (hnot.symm.trans hfired) (by simp)
    · obtain rfl : t' = t := Option.some.inj (ht'.symm.trans hfired)
      rw [hid] at hx hmem
      have hcu : nd.isCatchingUp = true := by
        have hcourse := hown.course
        generalize (step f.world op).shared = sh' at hcourse
        subst hx
        cases hcourse with
        | ignores => exact absurd rfl hkey
        | drives ha hc =>
          cases hc with
          | timer _ hw _ => exact absurd rfl hw
        | reissues ha ho =>
          unfold SmrNode.isCatchingUp
          rw [ha]
          simp [ho]
      exact (h.due nd hnd hcu t' hmem).trans hdue

theorem watched_of (s : Setup) : Watched i (.of s.cluster) := by
  have hnone : ownTimers s.cluster i .catchUpWatchdog = [] := by
    cases s with
    | leader n l => rfl
    | tuning n l d => rfl
  refine ⟨?_, fun nd hnd hcu t ht => ?_⟩
  · show (ownTimers s.cluster i .catchUpWatchdog).length ≤ 1
    rw [hnone]
    exact Nat.zero_le 1
  · have ht' : t ∈ ownTimers s.cluster i .catchUpWatchdog := ht
    rw [hnone] at ht'
    exact absurd ht' List.not_mem_nil

/-- **A watchdog only replaces an attempt that stalled for a full interval**, along every run in which replica `i`
restarts, and its catch-up attempts learn other commands than their probes, only when no watchdog timer of it is pending;
and at most one pending watchdog timer can act on its attempt, in every state of the run. -/
theorem watchdog_patient (s : Setup) (i : NodeId) (ops : List SmrOp) (hdup : ∀ k, .env (.dupTimer k) ∉ ops)
    (hcalm : Runs.Along step (Unhurried i) s.cluster ops) :
    Runs.Along (Followed.step i) (Patient i) (.of s.cluster) ops ∧
    ∀ l m, ops = l ++ m → SoleWatch i (s.cluster.run l) := by
  let P : Followed → SmrOp → Prop := fun f op => (∀ k, op ≠ .env (.dupTimer k)) ∧ Unhurried i f.world op
  have hmem : Runs.Along (Followed.step i) (fun _ op => op ∈ ops) (.of s.cluster) ops := Runs.along_mem _ _ ops
  have halong : Runs.Along (Followed.step i) P (.of s.cluster) ops :=
    ((hmem.imp fun f op hop k hk => hdup k (by rw [← hk]; exact hop)).and (Followed.along_world i hcalm))
  refine ⟨Runs.along_of_invariant (I := Watched i) (fun f op hw hp => watched_step hw hp.1 hp.2)
    (fun f op hw hp => hw.patient op) (watched_of s) halong, ?_⟩
  rintro l m rfl nd - -
  have hl : Watched i (Runs.run (Followed.step i) (.of s.cluster) l) :=
    Runs.run_invariant (I := Watched i) (fun f op hw hp => watched_step hw hp.1 hp.2) (watched_of s)
      (Runs.along_append.1 halong).1
  have hsole := hl.sole
  rw [Followed.run_world] at hsole
  exact hsole

/-- a restarted replica stalls for a full interval -/
theorem watchdog_patient_stalled :
    Runs.Along (Followed.step 1) (Patient 1) (.of (newWithLeader 3 (some 0)))
      [restart 1 1, wait CATCH_UP_WATCHDOG_TICKS, fire 0 1, fire 0 1] ∧
    SoleWatch 1 ((newWithLeader 3 (some 0)).run [restart 1 1, wait CATCH_UP_WATCHDOG_TICKS, fire 0 1, fire 0 1]) := by
  have h := watchdog_patient (.leader 3 (some 0)) 1 [restart 1 1, wait CATCH_UP_WATCHDOG_TICKS, fire 0 1, fire 0 1]
    (by simp [restart, wait, fire]) (by decide +kernel)
  exact ⟨h.1, h.2 _ [] (List.append_nil _).symm⟩

/-! ## A watchdog left over from an earlier slot -/

/-- replica 0 decides slot 0; replica 1 restarted and is cut off, and every message to and from it is lost -/
def cutOff : List SmrOp :=
  [.submit 0 (.get 1 1 7), wait 1, fire 0 1, restart 1 1] ++ [deliver 0 1, deliver 0 1, deliver 0 1, deliver 3 1,
    deliver 3 1] ++ List.replicate 4 (.env (.drop 0)) ++ [wait 20, fire 0 1, fire 0 1] ++
    List.replicate 3 (.env (.drop 0)) ++
    [20, 40, 80, 160, 320].flatMap fun d => [wait d, fire 1 1] ++ List.replicate 3 (.env (.drop 0))

/-- at tick 1281 the replies to its retry teach replica 1 what slot 0 decided -/
def learnsLate : List SmrOp :=
  [wait 640, fire 1 1, deliver 0 1, deliver 0 1, deliver 1 1, deliver 1 1] ++ List.replicate 4 (.env (.drop 0))

/-- cut off again, until the watchdog of its restart is due -/
def cutOffAgain : List SmrOp :=
  [wait 20, fire 2 1] ++ List.replicate 3 (.env (.drop 0)) ++
    ([20, 40, 80, 160, 320].flatMap fun d => [wait d, fire 3 1] ++ List.replicate 3 (.env (.drop 0))) ++ [wait 640]

/-- **A watchdog left over from slot 0 replaces the attempt at slot 1** after half its interval; and two watchdog timers
can act on that attempt from its start on. -/
theorem watchdog_hasty :
    ¬ Runs.Along (Followed.step 1) (Patient 1) (.of (newWithLeader 3 (some 0)))
      (cutOff ++ learnsLate ++ cutOffAgain ++ [fire 0 1]) ∧
    ¬ SoleWatch 1 ((newWithLeader 3 (some 0)).run (cutOff ++ learnsLate)) := by
  constructor
  · intro h
    have hlast : Patient 1 (Runs.run (Followed.step 1) (.of (newWithLeader 3 (some 0)))
        (cutOff ++ learnsLate ++ cutOffAgain)) (fire 0 1) := (Runs.along_append.1 h).2.1
    generalize hf : Runs.run (Followed.step 1) (.of (newWithLeader 3 (some 0))) (cutOff ++ learnsLate ++ cutOffAgain) = f
      at hlast
    have hbefore : (f.world.nodes 1).map SmrNode.inFlight = some (some (1, 2)) := by rw [← hf]; decide +kernel
    have hafter : ((step f.world (fire 0 1)).nodes 1).map SmrNode.inFlight = some (some (1, 3)) := by
      rw [← hf]; decide +kernel
    have hfired : fired f.world 1 (fire 0 1) = some ⟨1, .catchUpWatchdog, 2561⟩ := by rw [← hf]; decide +kernel
    have htimes : (f.episode.startedAt, f.world.now) = (1281, 2561) := by rw [← hf]; decide +kernel
    obtain ⟨nd, hnd, hkey⟩ := Option.map_eq_some_iff.1 hbefore
    obtain ⟨nd', hnd', hkey'⟩ := Option.map_eq_some_iff.1 hafter
    have hfull := hlast nd nd' _ hnd hnd' (by rw [hkey, hkey']; decide) hfired rfl
    simp only [Prod.mk.injEq] at htimes
    rw [htimes.1, htimes.2] at hfull
    exact absurd hfull (by decide)
  · intro h
    have hrun : ((((newWithLeader 3 (some 0)).run (cutOff ++ learnsLate)).nodes 1).map SmrNode.watches,
        (ownTimers ((newWithLeader 3 (some 0)).run (cutOff ++ learnsLate)) 1 .catchUpWatchdog).length) =
          (some true, 2) := by decide +kernel
    simp only [Prod.mk.injEq] at hrun
    obtain ⟨nd, hnd, hwatch⟩ := Option.map_eq_some_iff.1 hrun.1
    have hsole := h nd hnd hwatch
    rw [hrun.2] at hsole
    exact absurd hsole (by decide)

end Smr

end Queso
