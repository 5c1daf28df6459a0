/-
What a hedged attempt defers on.

The step cell is shared by all attempts of a replica. It is written when the recorder answers a request for the slot of the
attempt in flight, and nothing resets it when that attempt is replaced. A fresh proposer has seen no progress yet, so
whatever the cell still holds passes for fresh progress if it is ahead of step 4. From the first answer for its own slot on,
the cell is the step of that slot's recorder.
-/
import Queso.Smr.Agreement
import Queso.Smr.Episode
import Queso.Smr.Unparked

namespace Queso

/-! ## What a proposer remembers of the cell -/

namespace Proposer

variable {V : Type} {p p' : Proposer V} {draw : NodeId → Draw} {fx : List (Effect (ConcreteMsg V))}

theorem onResponse_seen [LinearOrder V] {src : NodeId} {resp : RecordResponse V}
    (h : p.onResponse src resp draw = .ok (p', fx)) : p'.lastSeenProgress = p.lastSeenProgress := by
  rcases onResponse_moves h with ⟨rfl, -⟩ | ⟨-, -, -, hans⟩
  · rfl
  · cases hans with
    | waits => rfl
    | advances => rfl
    | jumps => rfl
    | decides => rfl

theorem sawFreshProgress_iff {localStep : ℕ} :
    p.sawFreshProgress localStep = true ↔
      p.localRecorderStep = true ∧ p.step < localStep ∧ p.lastSeenProgress ≠ some localStep := by
  unfold sawFreshProgress current
  cases hwired : p.localRecorderStep with
  | true =>
    simp only [if_true, Bool.and_eq_true, decide_eq_true_eq, true_and, ne_eq]
    exact and_congr_right fun _ => not_congr eq_comm
  | false => simp

/-- the hedge timer makes the proposer look at the cell, and remember it if it defers -/
theorem onTimer_seen {id : TimerId} {localStep : ℕ} (h : p.onTimer id localStep draw = .ok (p', fx))
    (hid : id ≠ .kickoff) :
    p'.lastSeenProgress =
      if id = .hedge ∧ p.decided = none ∧ p.sawFreshProgress localStep = true then some localStep
      else p.lastSeenProgress := by
  cases id with
  | kickoff => exact absurd rfl hid
  | catchUpWatchdog =>
    simp only [onTimer, Except.ok.injEq, Prod.mk.injEq] at h
    rw [← h.1]
    simp
  | retry s =>
    rw [if_neg (by simp)]
    unfold onTimer at h
    dsimp only at h
    split_ifs at h with hstale hq
    · simp only [Except.ok.injEq, Prod.mk.injEq] at h
      rw [← h.1]
    · simp only [Except.ok.injEq, Prod.mk.injEq] at h
      rw [← h.1]
    · cases hr : p.resend (p.allRecorders.filter fun r => r ∉ p.responses) with
      | error e => rw [hr] at h; exact absurd h (by simp)
      | ok fx' =>
        rw [hr] at h
        simp only [Except.ok.injEq, Prod.mk.injEq] at h
        rw [← h.1]
  | hedge =>
    simp only [onTimer, Except.ok.injEq] at h
    unfold maybeActivateAfterHedge at h
    by_cases hd : p.decided.isSome = true
    · rw [if_pos hd] at h
      have hnot : p.decided ≠ none := by
        intro hnone
        rw [hnone] at hd
        exact absurd hd (by simp)
      rw [← (Prod.mk.inj h).1, if_neg (fun hall => hnot hall.2.1)]
    · have hnone : p.decided = none := by simpa using hd
      rw [if_neg hd] at h
      by_cases hf : p.sawFreshProgress localStep = true
      · rw [if_pos hf] at h
        rw [← (Prod.mk.inj h).1, if_pos ⟨rfl, hnone, hf⟩]
        unfold current
        rw [if_pos (sawFreshProgress_iff.1 hf).1]
      · rw [if_neg hf] at h
        rw [← (Prod.mk.inj h).1, if_neg (fun hall => hf hall.2.2)]

theorem start_seen (p : Proposer V) (draw : NodeId → Draw) : (p.start draw).1.lastSeenProgress = p.lastSeenProgress := by
  unfold start
  split_ifs with hd
  · rfl
  · dsimp only
    split_ifs
    · rfl
    · rfl

end Proposer

theorem sendsOf_payload {M : Type} (i j : NodeId) (fx : List (Effect M)) :
    (sendsOf i fx).map Envelope.payload = (sendsOf j fx).map Envelope.payload := by
  unfold sendsOf
  rw [List.map_filterMap, List.map_filterMap]
  refine List.filterMap_congr fun f _ => ?_
  cases f with
  | send dst payload => rfl
  | timer d id => rfl

/-- a proposer answers nothing -/
theorem Proposer.Requests.mute {V : Type} {i j : NodeId} {k slot : ℕ} {fx : List (Effect (ConcreteMsg V))}
    (h : Proposer.Requests j k fx) : ((sendsOf i fx).map Envelope.payload).any (ConcreteMsg.answers slot) = false := by
  rw [sendsOf_payload i j, List.any_eq_false]
  intro m hm
  obtain ⟨e, he, rfl⟩ := List.mem_map.1 hm
  obtain ⟨r, s, x, rfl⟩ := h e he
  simp [ConcreteMsg.answers]

namespace Smr

/-- a hedged attempt looks at the cell for the first time, before the replica's recorder answered a request for its slot,
and finds a step ahead of its own -/
def looksBack (i : NodeId) (f : Followed) (op : SmrOp) : Bool :=
  (fired f.world i op).any (fun t => decide (t.id = .hedge)) && !f.episode.answered &&
    (f.world.nodes i).any fun nd => nd.currentAttempt.any fun a =>
      a.proposer.localRecorderStep && a.proposer.decided.isNone && a.proposer.lastSeenProgress.isNone &&
        decide (a.proposer.step < nd.localStep)

/-- an attempt of replica `i` that defers has seen its own slot's recorder answer a request since it started or last
deferred, and that recorder is ahead of it -/
def Earned (i : NodeId) (f : Followed) (op : SmrOp) : Prop :=
  defers f.world i op = true → ∀ nd a, f.world.nodes i = some nd → nd.currentAttempt = some a →
    f.episode.answered = true ∧ a.proposer.step < (nd.durable.recorder a.slot).isr.step

/-- the cell is the recorder's step from the first answer on, and an attempt that deferred remembers it until the next -/
structure Attends (nd : SmrNode) (e : Episode) (a : CurrentAttempt) : Prop where
  cell : e.answered = true ∨ a.proposer.lastSeenProgress ≠ none → nd.localStep = (nd.durable.recorder a.slot).isr.step
  seen : e.answered = false → a.proposer.lastSeenProgress ≠ none → a.proposer.lastSeenProgress = some nd.localStep

/-- what replica `i` keeps -/
def Attentive (i : NodeId) (f : Followed) : Prop :=
  ∀ nd a, f.world.nodes i = some nd → nd.currentAttempt = some a → Attends nd f.episode a

variable {i : NodeId} {f : Followed} {op : SmrOp}

theorem defers_iff {w : Smr} :
    defers w i op = true ↔ ∃ t nd a, fired w i op = some t ∧ t.id = .hedge ∧ w.nodes i = some nd ∧
      nd.currentAttempt = some a ∧ a.proposer.decided = none ∧ a.proposer.sawFreshProgress nd.localStep = true := by
  unfold defers
  simp only [Bool.and_eq_true, Option.any_eq_true, decide_eq_true_eq, Option.isNone_iff_eq_none]
  constructor
  · rintro ⟨⟨t, ht, hid⟩, nd, hnd, a, ha, hd, hf⟩
    exact ⟨t, nd, a, ht, hid, hnd, ha, hd, hf⟩
  · rintro ⟨t, nd, a, ht, hid, hnd, ha, hd, hf⟩
    exact ⟨⟨t, ht, hid⟩, nd, hnd, a, ha, hd, hf⟩

/-- a look back is a deferral before any answer, by an attempt that has not deferred before -/
theorem looksBack_iff :
    looksBack i f op = true ↔ defers f.world i op = true ∧ f.episode.answered = false ∧
      ∀ nd a, f.world.nodes i = some nd → nd.currentAttempt = some a → a.proposer.lastSeenProgress = none := by
  rw [defers_iff]
  unfold looksBack
  simp only [Bool.and_eq_true, Bool.not_eq_true', Option.any_eq_true, decide_eq_true_eq, Option.isNone_iff_eq_none]
  constructor
  · rintro ⟨⟨⟨t, ht, hid⟩, hans⟩, nd, hnd, a, ha, ⟨⟨hwired, hd⟩, hseen⟩, hlt⟩
    refine ⟨⟨t, nd, a, ht, hid, hnd, ha, hd, ?_⟩, hans, fun nd' a' hnd' ha' => ?_⟩
    · exact Proposer.sawFreshProgress_iff.2 ⟨hwired, hlt, by rw [hseen]; simp⟩
    · obtain rfl := Option.some.inj (hnd.symm.trans hnd')
      obtain rfl := Option.some.inj (ha.symm.trans ha')
      exact hseen
  · rintro ⟨⟨t, nd, a, ht, hid, hnd, ha, hd, hf⟩, hans, hseen⟩
    obtain ⟨hwired, hlt, -⟩ := Proposer.sawFreshProgress_iff.1 hf
    exact ⟨⟨⟨t, ht, hid⟩, hans⟩, nd, hnd, a, ha, ⟨⟨hwired, hd⟩, hseen nd a hnd ha⟩, hlt⟩

/-- an attempt that does not look back has seen an answer when it defers -/
theorem Attentive.answered (h : Attentive i f) (hlook : looksBack i f op = false) (hdefers : defers f.world i op = true) :
    f.episode.answered = true := by
  obtain ⟨t, nd, a, ht, hid, hnd, ha, hd, hf⟩ := defers_iff.1 hdefers
  obtain ⟨hwired, hlt, hfresh⟩ := Proposer.sawFreshProgress_iff.1 hf
  cases hans : f.episode.answered with
  | true => rfl
  | false =>
    have hseen : a.proposer.lastSeenProgress = none := by
      by_contra hsome
      exact hfresh ((h nd a hnd ha).seen hans hsome)
    have hback : looksBack i f op = true := by
      refine looksBack_iff.2 ⟨hdefers, hans, fun nd' a' hnd' ha' => ?_⟩
      obtain rfl := Option.some.inj (hnd.symm.trans hnd')
      obtain rfl := Option.some.inj (ha.symm.trans ha')
      exact hseen
    exact absurd (hlook.symm.trans hback) (by simp)

theorem Attentive.earned (h : Attentive i f) (hlook : looksBack i f op = false) : Earned i f op := by
  intro hdefers nd a hnd ha
  have hans := h.answered hlook hdefers
  obtain ⟨t, nd', a', -, -, hnd', ha', -, hf⟩ := defers_iff.1 hdefers
  obtain rfl := Option.some.inj (hnd.symm.trans hnd')
  obtain rfl := Option.some.inj (ha.symm.trans ha')
  obtain ⟨-, hlt, -⟩ := Proposer.sawFreshProgress_iff.1 hf
  exact ⟨hans, hlt.trans_eq ((h nd a hnd ha).cell (.inl hans))⟩

/-- an earned deferral is no look back -/
theorem Earned.looksBack (h : Earned i f op) : looksBack i f op = false := by
  cases hlook : Smr.looksBack i f op with
  | false => rfl
  | true =>
    obtain ⟨hdefers, hans, -⟩ := looksBack_iff.1 hlook
    obtain ⟨t, nd, a, -, -, hnd, ha, -, -⟩ := defers_iff.1 hdefers
    exact absurd (hans.symm.trans (h hdefers nd a hnd ha).1) (by simp)

/-- only the hedge timer makes an attempt defer -/
theorem Own.defers {w w' : Smr} {x : Stimulus SmrMsg} {rng : NodeId → Draw} {left : List PendingTimer}
    {nd nd' : SmrNode} {fx : List (Effect SmrMsg)} (hown : Own w i op x rng left nd nd' fx w') :
    defers w i op = true ↔ x = .timer .hedge ∧ ∃ a, nd.currentAttempt = some a ∧ a.proposer.decided = none ∧
      a.proposer.sawFreshProgress nd.localStep = true := by
  rw [defers_iff]
  constructor
  · rintro ⟨t, nd₀, a, ht, hid, hnd, ha, hd, hf⟩
    obtain rfl := Option.some.inj (hown.callback.node.symm.trans hnd)
    rcases hown.fired with ⟨hnot, -⟩ | ⟨t', ht', hx, -⟩
    · exact absurd (hnot.symm.trans ht) (by simp)
    · obtain rfl := Option.some.inj (ht'.symm.trans ht)
      exact ⟨by rw [hx, hid], a, ha, hd, hf⟩
  · rintro ⟨hx, a, ha, hd, hf⟩
    rcases hown.fired with ⟨-, hnot⟩ | ⟨t, ht, hxt, -⟩
    · exact absurd hx (hnot _)
    · rw [hx] at hxt
      exact ⟨t, nd, a, ht, (Stimulus.timer.inj hxt).symm, hown.callback.node, ha, hd, hf⟩

/-- the recorder of the slot that a request names moves to the step it answers, no other does -/
theorem recorder_insert (d : Durable) (k slot : ℕ) (r : Recorder Command) :
    Durable.recorder { d with recorders := d.recorders.insert k r } slot = if slot = k then r else d.recorder slot := by
  unfold Durable.recorder
  by_cases hk : slot = k
  · subst hk
    simp [AList.lookup_insert]
  · simp [hk, AList.lookup_insert_ne hk]

/-- **Step lemma.** Where no attempt looks back, the cell is the recorder's step from the first answer on. -/
theorem attentive_step (h : Attentive i f) (hlook : looksBack i f op = false) :
    Attentive i (f.step i op) := by
  rcases step_replica f.world i op with ⟨haside, hfired⟩ | ⟨x, rng, left, nd, nd', fx, hown⟩
  · have hnote : (f.step i op).episode = f.episode := haside.note hfired
    intro nd' a hnd' ha
    obtain ⟨nd, queue, hnd, rfl⟩ := haside.node nd' hnd'
    rw [hnote]
    exact ⟨(h nd a hnd ha).cell, (h nd a hnd ha).seen⟩
  · intro nd₁ a hnd₁ ha
    obtain rfl : nd' = nd₁ := Option.some.inj (hown.node.symm.trans hnd₁)
    have hattends := fun a₀ => h nd a₀ hown.callback.node
    -- a fresh attempt has seen nothing
    have hlaunch : ∀ {nd₁ sh₁ sh₂ fx₂}, SmrNode.Launches ⟨i, f.world.now, rng⟩ nd₁ sh₁ nd' sh₂ fx₂ →
        nd'.inFlight ≠ nd.inFlight → Attends nd' (f.step i op).episode a := by
      intro nd₁ sh₁ sh₂ fx₂ hl hkey
      have hnote : (f.step i op).episode = _ := hown.note_launched ha hkey
      have hseen : a.proposer.lastSeenProgress = none := by
        obtain ⟨origin, command, leader, delay, counted, more, hb, -⟩ := hl.attempt
        obtain rfl := Option.some.inj (hb.symm.trans ha)
        refine (Proposer.start_seen _ _).trans ?_
        cases delay with
        | none => rfl
        | some d => rfl
      rw [hnote]
      refine ⟨fun hor => ?_, fun _ hsome => absurd hseen hsome⟩
      rcases hor with hans | hsome
      · exact absurd hans (by simp)
      · exact absurd hseen hsome
    -- an attempt that goes on without deferring
    have hstay : ∀ a₀, nd.currentAttempt = some a₀ → nd'.inFlight = nd.inFlight → nd'.localStep = nd.localStep →
        nd'.durable = nd.durable → a.slot = a₀.slot → a.proposer.lastSeenProgress = a₀.proposer.lastSeenProgress →
        defers f.world i op = false →
        ((sendsOf i fx).map Envelope.payload).any (ConcreteMsg.answers a.slot) = false →
        Attends nd' (f.step i op).episode a := by
      intro a₀ ha₀ hkey hcell hdur hslot hseen hdef hmute
      have hnote : (f.step i op).episode = _ := hown.note_kept ha hkey
      have hold := hattends a₀ ha₀
      rw [hnote, hdef, hmute]
      refine ⟨fun hor => ?_, fun hans hsome => ?_⟩
      · rw [hcell, hdur, hslot]
        refine hold.cell ?_
        rcases hor with hans | hsome
        · exact .inl (by simpa using hans)
        · exact .inr (by rwa [hseen] at hsome)
      · rw [hseen, hcell]
        exact hold.seen (by simpa using hans) (by rwa [hseen] at hsome)
    have hcourse := hown.course
    generalize (step f.world op).shared = sh' at hcourse
    cases hcourse with
    | @serves src req =>
      have hcur : nd.currentAttempt = some a := ha
      have hold := hattends a hcur
      have hdef : defers f.world i op = false := by
        refine Bool.eq_false_iff.2 fun hdef => ?_
        exact absurd (hown.defers.1 hdef).1 (by simp)
      have hnote : (f.step i op).episode = _ := hown.note_kept ha rfl
      rw [hnote, hdef]
      by_cases hslot : a.slot = req.slot
      · -- the cell and the recorder move together
        refine ⟨fun _ => ?_, fun hans => ?_⟩
        · rw [recorder_insert, if_pos hslot]
          dsimp only
          rw [hcur, if_pos (by simp [hslot])]
          rfl
        · refine absurd hans ?_
          simp [sendsOf, ConcreteMsg.answers, Recorder.handle, hslot]
      · have hcell : ¬ (nd.currentAttempt.any fun a => a.slot == req.slot) = true := by simp [hcur, hslot]
        have hmute : ((sendsOf i [Effect.send src (ConcreteMsg.response
            ((nd.durable.recorder req.slot).handle req).2)]).map Envelope.payload).any
              (ConcreteMsg.answers a.slot) = false := by
          have hother : ((nd.durable.recorder req.slot).handle req).2.slot = req.slot := rfl
          simp [sendsOf, ConcreteMsg.answers, hother, Ne.symm hslot]
        rw [hmute]
        refine ⟨fun hor => ?_, fun hans hsome => ?_⟩
        · rw [recorder_insert, if_neg hslot]
          dsimp only
          rw [if_neg hcell]
          exact hold.cell (hor.imp_left fun hans => by simpa using hans)
        · dsimp only
          rw [if_neg hcell]
          exact hold.seen (by simpa using hans) hsome
    | ignores hreq hrestart htimer =>
      refine hstay a ha rfl rfl rfl rfl rfl (Bool.eq_false_iff.2 fun hdef => ?_) rfl
      rcases htimer .hedge a (hown.defers.1 hdef).1 ha with hid | hid
      · exact absurd hid (by simp)
      · exact absurd hid (by simp)
    | @drives x a₀ p fx ha₀ hc =>
      obtain ⟨b, hb⟩ := SmrNode.withAttempt_drives nd { a₀ with proposer := p }
      obtain rfl := Option.some.inj (hb.symm.trans ha)
      have hkey : (nd.withAttempt { a₀ with proposer := p }).inFlight = nd.inFlight := by
        rw [SmrNode.withAttempt_inFlight]
        unfold SmrNode.inFlight
        rw [ha₀]
        rfl
      cases hc with
      | reply _ hc _ =>
        refine hstay a₀ ha₀ hkey rfl rfl rfl (Proposer.onResponse_seen hc) (Bool.eq_false_iff.2 fun hdef => ?_)
          (Proposer.onResponse_requests hc i).mute
        exact absurd (hown.defers.1 hdef).1 (by simp)
      | @timer id p fx hk hw hc =>
        have hseen := Proposer.onTimer_seen hc hk
        cases hdef : defers f.world i op with
        | true =>
          -- it remembers the cell until the next answer
          obtain ⟨hx, a₁, ha₁, hd, hf⟩ := hown.defers.1 hdef
          obtain rfl := Option.some.inj (ha₀.symm.trans ha₁)
          rw [if_pos ⟨Stimulus.timer.inj hx, hd, hf⟩] at hseen
          have hnote : (f.step i op).episode = _ := hown.note_kept hb hkey
          rw [hnote, hdef]
          exact ⟨fun _ => (hattends a₀ ha₀).cell (.inl (h.answered hlook hdef)), fun _ _ => hseen⟩
        | false =>
          rw [if_neg] at hseen
          · exact hstay a₀ ha₀ hkey rfl rfl rfl hseen hdef (Proposer.onTimer_requests hc).mute
          · rintro ⟨rfl, hd, hf⟩
            exact absurd (hdef.symm.trans (hown.defers.2 ⟨rfl, a₀, ha₀, hd, hf⟩)) (by simp)
    | begins hidle hl => exact hlaunch hl (hl.inFlight_moved (by simp [hidle]))
    | reissues _ _ _ _ hl hcu => exact hlaunch hl (hl.inFlight_ne hcu rfl)
    | rejoins hl hcu => exact hlaunch hl (hl.inFlight_ne hcu rfl)
    | @finishes src resp a₀ p fx₁ decided queue sh₂ nd' sh' fx₂ ha₀ hslot hfront hr hd hnext =>
      rcases hnext with ⟨rfl, -⟩ | hl
      · exact absurd ha (by simp [SmrNode.applied])
      · refine hlaunch hl (hl.inFlight_moved fun a' ha' => ?_)
        obtain rfl : a₀ = a' := Option.some.inj (ha₀.symm.trans ha')
        rw [hfront]
        exact (Nat.succ_ne_self _).symm

theorem attentive_of (s : Setup) (i : NodeId) : Attentive i (.of s.cluster) := by
  intro nd a hnd ha
  rw [cluster_idle hnd] at ha
  cases ha

/-- **An attempt defers on fresh progress of its own slot** at every step of a run, if and only if no attempt of the run
looks back at a step that the cell holds from before it. -/
theorem defers_on_own_slot (s : Setup) (i : NodeId) (ops : List SmrOp) :
    Runs.Along (Followed.step i) (Earned i) (.of s.cluster) ops ↔
      Runs.Along (Followed.step i) (fun f op => looksBack i f op = false) (.of s.cluster) ops := by
  constructor
  · exact fun h => h.imp fun f op hearned => hearned.looksBack
  · exact fun h => Runs.along_of_invariant (I := Attentive i) (fun f op hi hlook => attentive_step hi hlook)
      (fun f op hi hlook => hi.earned hlook) (attentive_of s i) h

/-! ## A cell left over from an earlier slot -/

/-- replica 1, hedged by 50 ticks, decides the first of its two operations in three phases, and proposes the second at
slot 1 -/
def twoSlots : List SmrOp :=
  [.submit 1 (.get 2 1 7), .submit 1 (.get 2 2 7), wait 1, fire 0 1, wait 50, fire 0 1] ++
    (List.replicate 3 [deliver 0 1, deliver 0 1, .env (.drop 0), deliver 0 1, deliver 0 1]).flatten ++
    [wait 20, fire 0 1, fire 0 1, fire 0 1, wait 30]

/-- **The step of slot 0 delays the attempt at slot 1**: its hedge timer finds the cell at step 6, although no request for
slot 1 was ever sent, and it defers. -/
theorem defers_on_another_slot :
    ¬ Runs.Along (Followed.step 1) (Earned 1) (.of (newWithTuning 2 1000 50)) (twoSlots ++ [fire 0 1]) := by
  intro h
  have hlast : Earned 1 (Runs.run (Followed.step 1) (.of (newWithTuning 2 1000 50)) twoSlots) (fire 0 1) :=
    (Runs.along_append.1 h).2.1
  generalize hf : Runs.run (Followed.step 1) (.of (newWithTuning 2 1000 50)) twoSlots = f at hlast
  have hdefers : defers f.world 1 (fire 0 1) = true := by rw [← hf]; decide +kernel
  have hans : f.episode.answered = false := by rw [← hf]; decide +kernel
  obtain ⟨t, nd, a, -, -, hnd, ha, -, -⟩ := defers_iff.1 hdefers
  exact absurd (hans.symm.trans (hlast hdefers nd a hnd ha).1) (by simp)

end Smr

end Queso
