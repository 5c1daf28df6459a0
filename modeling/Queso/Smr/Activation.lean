/-
What an attempt does before it activates.

A hedged attempt is started at step 4 like any other, but sends nothing until its delay is over. Meanwhile it takes every
reply to step 4 of its slot, and every hedge timer, also those meant for an attempt before it: replies and timers name
neither the attempt nor its incarnation. Retry timers are told apart by `activated`; these two are not.

`Fair` is what a replica keeps about its counters and its attempt where no such reply or timer disturbs it.
-/
import Queso.Smr.Agreement
import Queso.Smr.Episode
import Queso.Smr.Unparked

namespace Queso

/-! ## Calls on a proposer that has not activated -/

theorem sendsOf_nil {M : Type} {i j : NodeId} {fx : List (Effect M)} (h : sendsOf i fx = []) : sendsOf j fx = [] := by
  refine List.filterMap_eq_nil_iff.2 fun f hf => ?_
  have hi := List.filterMap_eq_nil_iff.1 h f hf
  cases f with
  | send dst payload => exact absurd hi (by simp)
  | timer d id => rfl

namespace Proposer

variable {V : Type} {p p' : Proposer V} {draw : NodeId → Draw} {fx : List (Effect (ConcreteMsg V))}

/-- the reply completes a quorum for the proposer's step -/
def completes (p : Proposer V) (src : NodeId) (resp : RecordResponse V) : Bool :=
  p.decided.isNone && decide (resp.slot = p.slot ∧ resp.reqStep = p.step ∧ (p.noted src resp).Quorate)

/-- the replies collected let the proposer decide on the fast path -/
def fastQuorum [LinearOrder V] (p : Proposer V) : Bool := decide p.Level && (fastPathValue p.replies).isSome

/-- a call on a proposer that sends for it as soon as it activates, and not before -/
structure Acts (p : Proposer V) (i : NodeId) (p' : Proposer V) (fx : List (Effect (ConcreteMsg V))) : Prop where
  slot : p'.slot = p.slot
  total : p'.totalReplicas = p.totalReplicas
  delay : p'.activationDelay = p.activationDelay
  step : p.step ≤ p'.step
  stays : p.activated = true → p'.activated = true
  passive : p'.activated = false → p'.step = p.step ∧ sendsOf i fx = []
  speaks : 0 < p.totalReplicas → p.activated = false → p'.activated = true →
    ((sendsOf i fx).map Envelope.payload).any (ConcreteMsg.asks p.slot) = true

theorem Acts.before {i : NodeId} (h : p.Acts i p' fx) (hact : p'.activated = false) : p.activated = false := by
  cases h0 : p.activated with
  | true => exact absurd ((h.stays h0).symm.trans hact) (by simp)
  | false => rfl

theorem asks_beginStep (p : Proposer V) (draw : NodeId → Draw) (i : NodeId) (h : 0 < p.totalReplicas) :
    ((sendsOf i (p.beginStep draw).2).map Envelope.payload).any (ConcreteMsg.asks p.slot) = true := by
  refine List.any_eq_true.2 ⟨_, List.mem_map.2 ⟨_, (mem_sendsOf_beginStep p draw).2 ⟨0, h, rfl⟩, rfl⟩, ?_⟩
  simp [ConcreteMsg.asks]

theorem acts_beginStep (p : Proposer V) (draw : NodeId → Draw) (i : NodeId) {s : ℕ} {q : Proposal V} (hs : p.step ≤ s) :
    p.Acts i ((p.movedTo s q).beginStep draw).1 ((p.movedTo s q).beginStep draw).2 where
  slot := rfl
  total := rfl
  delay := rfl
  step := hs
  stays := fun _ => rfl
  passive := fun h => absurd h (by simp)
  speaks := fun htotal _ _ => asks_beginStep (p.movedTo s q) draw i htotal

theorem acts_silent {i : NodeId} (hslot : p'.slot = p.slot) (htotal : p'.totalReplicas = p.totalReplicas)
    (hdelay : p'.activationDelay = p.activationDelay) (hstep : p'.step = p.step) (hact : p'.activated = p.activated)
    (hfx : p'.activated = false → sendsOf i fx = []) : p.Acts i p' fx where
  slot := hslot
  total := htotal
  delay := hdelay
  step := hstep.ge
  stays := fun h => hact.trans h
  passive := fun h => ⟨hstep, hfx h⟩
  speaks := fun _ hp hp' => absurd (hp.symm.trans (hact.symm.trans hp')) (by simp)

theorem onTimer_acts {id : TimerId} {localStep : ℕ} (h : p.onTimer id localStep draw = .ok (p', fx))
    (hid : id ≠ .kickoff) (i : NodeId) : p.Acts i p' fx := by
  cases onTimer_moves h with
  | quiet hfx => exact acts_silent rfl rfl rfl rfl rfl fun _ => sendsOf_nil hfx
  | restarts => exact absurd rfl hid
  | rewinds => exact absurd rfl hid
  | activates => exact acts_beginStep p draw i (q := p.proposal) le_rfl
  | resends _ ha => exact acts_silent rfl rfl rfl rfl rfl fun hnot => absurd (ha.symm.trans hnot) (by simp)

/-- only the hedge timer activates a proposer, and only then is a hedge timer armed -/
theorem onTimer_hedge {id : TimerId} {localStep : ℕ} (h : p.onTimer id localStep draw = .ok (p', fx))
    (hid : id ≠ .kickoff) :
    (p.activated = false → p'.activated = true → id = .hedge) ∧ ∀ d, .timer d .hedge ∈ fx → id = .hedge := by
  cases onTimer_moves h with
  | quiet _ hh => exact ⟨fun hp hp' => absurd (hp.symm.trans hp') (by simp), fun d hd => (hh d _ hd).2⟩
  | restarts => exact absurd rfl hid
  | rewinds => exact absurd rfl hid
  | activates => exact ⟨fun _ _ => rfl, fun _ _ => rfl⟩
  | resends _ ha _ hh =>
    refine ⟨fun hp => absurd (ha.symm.trans hp) (by simp), fun d hd => ?_⟩
    obtain ⟨s, hs⟩ := hh d _ hd
    exact absurd hs (by simp)

theorem onTimer_decided {id : TimerId} {localStep : ℕ} (h : p.onTimer id localStep draw = .ok (p', fx)) :
    p'.decided = p.decided := by
  cases onTimer_moves h with
  | quiet => rfl
  | restarts => rfl
  | rewinds => rfl
  | activates => rfl
  | resends => rfl

/-- a fresh proposer without a delay sends as it is started; one with a delay arms the hedge timer alone -/
theorem start_acts (hd : p.decided = none) (ha : p.activated = false) (ht : 0 < p.totalReplicas) (draw : NodeId → Draw)
    (i : NodeId) :
    (p.start draw).1.totalReplicas = p.totalReplicas ∧ (p.start draw).1.activationDelay = p.activationDelay ∧
      (p.start draw).1.decided = none ∧
      ((p.start draw).1.activated = true ∧ p.activationDelay = 0 ∧
          ((sendsOf i (p.start draw).2).map Envelope.payload).any (ConcreteMsg.asks p.slot) = true ∨
        (p.start draw).1.activated = false ∧ (p.start draw).2 = [.timer p.activationDelay .hedge]) := by
  have hnot : ¬ p.decided.isSome = true := by simp [hd]
  unfold start
  rw [if_neg hnot]
  dsimp only
  by_cases hdelay : p.activationDelay = 0
  · rw [if_pos hdelay]
    exact ⟨rfl, rfl, hd, .inl ⟨rfl, hdelay, asks_beginStep (p.movedTo FIRST_ROUND_STEP p.proposal) draw i ht⟩⟩
  · rw [if_neg hdelay]
    exact ⟨rfl, rfl, hd, .inr ⟨ha, rfl⟩⟩

section Ordered

variable [LinearOrder V] {src : NodeId} {resp : RecordResponse V}

theorem onResponse_acts (h : p.onResponse src resp draw = .ok (p', fx)) (i : NodeId) : p.Acts i p' fx := by
  rcases onResponse_moves h with ⟨rfl, rfl⟩ | ⟨-, -, -, hans⟩
  · exact acts_silent rfl rfl rfl rfl rfl fun _ => rfl
  · cases hans with
    | waits => exact acts_silent rfl rfl rfl rfl rfl fun _ => rfl
    | decides => exact acts_silent rfl rfl rfl rfl rfl fun _ => rfl
    | advances => exact { acts_beginStep (p.noted src resp) draw i (Nat.le_succ _) with }
    | jumps _ hlt _ => exact { acts_beginStep (p.noted src resp) draw i hlt.le with }

/-- a reply that completes no quorum is only noted -/
theorem onResponse_incomplete (h : p.onResponse src resp draw = .ok (p', fx)) (hq : p.completes src resp = false) :
    (p' = p ∨ p' = p.noted src resp) ∧ fx = [] := by
  rcases onResponse_ok h with ⟨rfl, rfl⟩ | ⟨hd, hslot, hreq, ⟨hfull, -⟩ | ⟨-, rfl, rfl⟩⟩
  · exact ⟨.inl rfl, rfl⟩
  · exact absurd hq (by simp [completes, hd, hslot, hreq, hfull])
  · exact ⟨.inr rfl, rfl⟩

/-- a reply that makes a proposer decide sends nothing; at step 4 it completes a quorum for the fast path -/
theorem onResponse_decides (h : p.onResponse src resp draw = .ok (p', fx)) (hd : p.decided = none)
    (hd' : p'.decided ≠ none) :
    fx = [] ∧ p'.activated = p.activated ∧ p'.step = p.step ∧
      (p.step = FIRST_ROUND_STEP → p.completes src resp = true ∧ (p.noted src resp).fastQuorum = true) := by
  rcases onResponse_moves h with ⟨rfl, -⟩ | ⟨-, hslot, hreq, hans⟩
  · exact absurd hd hd'
  · cases hans with
    | waits => exact absurd hd hd'
    | advances => exact absurd hd hd'
    | jumps => exact absurd hd hd'
    | decides hq hl hv =>
      refine ⟨rfl, rfl, rfl, fun hfour => ⟨by simp [completes, hd, hslot, hreq, hq], ?_⟩⟩
      have hstep : (p.noted src resp).step = FIRST_ROUND_STEP := hfour
      cases hv with
      | fast _ hv => simp [fastQuorum, hl, hv]
      | slow hphase => rw [hstep] at hphase; exact absurd hphase (by decide)

end Ordered

end Proposer

/-! ## The counters -/

/-- the attempt stands as a live attempt does -/
structure CurrentAttempt.Stands (a : CurrentAttempt) : Prop where
  slot : a.proposer.slot = a.slot
  total : 0 < a.proposer.totalReplicas
  four : FIRST_ROUND_STEP ≤ a.proposer.step
  undecided : a.proposer.decided = none
  counted : a.activatedCounted = a.proposer.activated
  first : a.proposer.activated = false → a.proposer.step = FIRST_ROUND_STEP

namespace SmrNode

/-- the activation of the attempt in flight, which its decision has not used up -/
def spare (nd : SmrNode) : ℕ := if nd.currentAttempt.any fun a => a.proposer.activated then 1 else 0

/-- every decision was of an attempt that activated, in a round from 1 on; with `spare` activations to come -/
structure Tallies (m : NodeMetrics) (spare : ℕ) : Prop where
  fast : m.fastPathDecisions ≤ m.decisions
  rounds : m.decisions ≤ m.roundsTotal
  activations : m.decisions + spare ≤ m.proposerActivations

/-- what a replica keeps about its counters and its attempt, with its episode `e` and its pending hedge timers -/
structure Fair (nd : SmrNode) (e : Episode) (hedges : List PendingTimer) : Prop where
  total : 0 < nd.totalReplicas
  tallies : Tallies nd.metrics nd.spare
  stands : ∀ a, nd.currentAttempt = some a → a.Stands
  spoke : ∀ a, nd.currentAttempt = some a → a.proposer.activated = e.spokeAt.isSome
  timely : ∀ a t, nd.currentAttempt = some a → e.spokeAt = some t → e.startedAt + a.proposer.activationDelay ≤ t
  hedged : ∀ a, nd.currentAttempt = some a → a.proposer.activated = false →
    ∀ t ∈ hedges, e.startedAt + a.proposer.activationDelay ≤ t.fireAt ∨ t ∈ e.leftover

theorem Tallies.default : Tallies .default 0 := ⟨le_rfl, le_rfl, le_rfl⟩

theorem Tallies.le {m : NodeMetrics} {k l : ℕ} (h : Tallies m k) (hl : l ≤ k) : Tallies m l where
  fast := h.fast
  rounds := h.rounds
  activations := (Nat.add_le_add_left hl _).trans h.activations

/-- an attempt whose activation is counted when it happens -/
theorem withAttempt_counts (nd : SmrNode) {a : CurrentAttempt}
    (h : a.activatedCounted = true → a.proposer.activated = true) :
    (nd.withAttempt a).currentAttempt = some { a with activatedCounted := a.proposer.activated } ∧
      (nd.withAttempt a).metrics =
        { nd.metrics with
          proposerActivations := nd.metrics.proposerActivations +
            if a.activatedCounted = false ∧ a.proposer.activated = true then 1 else 0 } := by
  unfold withAttempt CurrentAttempt.noteActivation
  by_cases hc : a.activatedCounted = false ∧ a.proposer.activated = true
  · rw [if_pos hc]
    exact ⟨by simp [hc.2], by simp [hc]⟩
  · rw [if_neg hc, if_neg hc]
    refine ⟨?_, rfl⟩
    cases hcount : a.activatedCounted with
    | true => simp [h hcount, ← hcount]
    | false =>
      have hact : a.proposer.activated = false := by simpa [hcount] using hc
      simp [hact, ← hcount]

/-- the attempt goes on -/
theorem Fair.drives {nd : SmrNode} {e : Episode} {hedges hedges' : List PendingTimer} {a : CurrentAttempt}
    {p : Proposer Command} {i : NodeId} {fx : List (Effect SmrMsg)} {now : ℕ} {b : Bool} (h : nd.Fair e hedges)
    (ha : nd.currentAttempt = some a) (hacts : a.proposer.Acts i p fx) (hd : p.decided = none)
    (hwakes : a.proposer.activated = false → p.activated = true →
      e.startedAt + a.proposer.activationDelay ≤ now)
    (hedged : a.proposer.activated = false → ∀ t ∈ hedges',
      t ∈ hedges ∨ e.startedAt + a.proposer.activationDelay ≤ t.fireAt) :
    (nd.withAttempt { a with proposer := p }).Fair
      { e with
        spokeAt := e.spokeAt <|>
          if ((sendsOf i fx).map Envelope.payload).any (ConcreteMsg.asks a.slot) then some now else none
        answered := b } hedges' := by
  have hst := h.stands a ha
  have hspoke := h.spoke a ha
  obtain ⟨hcur, hmet⟩ := withAttempt_counts nd (a := { a with proposer := p }) (fun hc =>
    hacts.stays (hst.counted.symm.trans hc))
  have hspare : nd.spare = if a.proposer.activated = true then 1 else 0 := by
    unfold spare
    rw [ha]
    rfl
  have hspare' : (nd.withAttempt { a with proposer := p }).spare = if p.activated = true then 1 else 0 := by
    unfold spare
    rw [hcur]
    rfl
  have hall : ∀ {a' : CurrentAttempt}, (nd.withAttempt { a with proposer := p }).currentAttempt = some a' →
      a' = { a with proposer := p, activatedCounted := p.activated } := fun ha' =>
    (Option.some.inj (hcur.symm.trans ha')).symm
  -- when the attempt first spoke
  have hspoken : ((e.spokeAt <|>
      if ((sendsOf i fx).map Envelope.payload).any (ConcreteMsg.asks a.slot) then some now else none).isSome =
        p.activated) ∧
      ∀ t, (e.spokeAt <|>
        if ((sendsOf i fx).map Envelope.payload).any (ConcreteMsg.asks a.slot) then some now else none) = some t →
        e.startedAt + a.proposer.activationDelay ≤ t := by
    cases hact : a.proposer.activated with
    | true =>
      rw [hact] at hspoke
      obtain ⟨t₀, ht₀⟩ := Option.isSome_iff_exists.1 hspoke.symm
      rw [ht₀]
      exact ⟨(hacts.stays hact).symm, fun t ht => h.timely a t ha (ht₀.trans ht)⟩
    | false =>
      rw [hact] at hspoke
      have hnone : e.spokeAt = none := by simpa using hspoke.symm
      rw [hnone]
      cases hact' : p.activated with
      | true =>
        have hasks := hacts.speaks hst.total hact hact'
        rw [hst.slot] at hasks
        rw [if_pos hasks]
        refine ⟨rfl, fun t ht => ?_⟩
        rw [← Option.some.inj ht]
        exact hwakes hact hact'
      | false =>
        rw [(hacts.passive hact').2]
        exact ⟨rfl, fun t ht => absurd ht (by simp)⟩
  exact
    { total := h.total
      tallies := by
        rw [hmet, hspare']
        have ht := h.tallies
        rw [hspare] at ht
        refine ⟨ht.fast, ht.rounds, ?_⟩
        have hle := ht.activations
        show nd.metrics.decisions + _ ≤ nd.metrics.proposerActivations + _
        have hcount : a.activatedCounted = a.proposer.activated := hst.counted
        cases hact : a.proposer.activated with
        | true =>
          rw [hact] at hle
          rw [hacts.stays hact]
          exact hle.trans (Nat.le_add_right _ _)
        | false =>
          rw [hact] at hle
          dsimp only
          rw [hcount, hact]
          cases p.activated with
          | true => simpa using hle
          | false => simpa using hle
      stands := fun a' ha' => by
        obtain rfl := hall ha'
        exact
          { slot := hacts.slot.trans hst.slot
            total := hst.total.trans_eq hacts.total.symm
            four := hst.four.trans hacts.step
            undecided := hd
            counted := rfl
            first := fun hact => (hacts.passive hact).1.trans (hst.first (hacts.before hact)) }
      spoke := fun a' ha' => by
        obtain rfl := hall ha'
        exact hspoken.1.symm
      timely := fun a' t ha' ht => by
        obtain rfl := hall ha'
        show e.startedAt + p.activationDelay ≤ t
        rw [hacts.delay]
        exact hspoken.2 t ht
      hedged := fun a' ha' hact t ht => by
        obtain rfl := hall ha'
        have hpassive := hacts.before hact
        show e.startedAt + p.activationDelay ≤ t.fireAt ∨ t ∈ e.leftover
        rw [hacts.delay]
        rcases hedged hpassive t ht with hold | hnew
        · exact h.hedged a ha hpassive t hold
        · exact .inl hnew }

/-- an attempt is started, with `more` armed beside its own timers -/
theorem fair_withAttempt {nd : SmrNode} {kept hedges : List PendingTimer} {p : Proposer Command} {i : NodeId}
    {now slot : ℕ} {draw : NodeId → Draw} {fx more : List (Effect SmrMsg)} {origin : AttemptOrigin} {command : Command}
    (htotal : 0 < nd.totalReplicas) (ht : Tallies nd.metrics 0) (hslot : p.slot = slot)
    (hp : 0 < p.totalReplicas) (hd : p.decided = none) (ha : p.activated = false)
    (hfx : fx = (p.start draw).2 ++ more) (hmore : ∀ f ∈ more, ∃ d, f = .timer d .catchUpWatchdog)
    (hkept : ∀ t ∈ kept, t ∈ hedges) :
    (nd.withAttempt ⟨origin, command, slot, (p.start draw).1, false⟩).Fair
      { startedAt := now
        spokeAt := if ((sendsOf i fx).map Envelope.payload).any (ConcreteMsg.asks slot) then some now else none
        answered := false
        leftover := hedges.filter fun t => decide (t.fireAt < now + (p.start draw).1.activationDelay) }
      (kept ++ (timersOf i now fx).filter fun t => decide (t.id = .hedge)) := by
  obtain ⟨hcur, hmet⟩ := withAttempt_counts nd (a := ⟨origin, command, slot, (p.start draw).1, false⟩) (by simp)
  obtain ⟨hslot', hstep⟩ := Proposer.start_step hd draw
  obtain ⟨htot, hdelay, hdec, hact⟩ := Proposer.start_acts hd ha hp draw i
  have hall : ∀ {a : CurrentAttempt},
      (nd.withAttempt ⟨origin, command, slot, (p.start draw).1, false⟩).currentAttempt = some a →
      a = ⟨origin, command, slot, (p.start draw).1, (p.start draw).1.activated⟩ := fun ha =>
    (Option.some.inj (hcur.symm.trans ha)).symm
  have hspare : (nd.withAttempt ⟨origin, command, slot, (p.start draw).1, false⟩).spare =
      if (p.start draw).1.activated = true then 1 else 0 := by
    unfold spare
    rw [hcur]
    rfl
  have hsends : sendsOf i fx = sendsOf i (p.start draw).2 := by
    have hnone : sendsOf i more = [] := List.filterMap_eq_nil_iff.2 fun f hf => by
      obtain ⟨d, rfl⟩ := hmore f hf
      rfl
    rw [hfx, sendsOf, List.filterMap_append]
    exact (congrArg _ hnone).trans (List.append_nil _)
  exact
    { total := htotal
      tallies := by
        rw [hmet, hspare]
        refine ⟨ht.fast, ht.rounds, ?_⟩
        have hle := ht.activations
        show nd.metrics.decisions + _ ≤ nd.metrics.proposerActivations + _
        cases (p.start draw).1.activated with
        | true => simpa using hle
        | false => simpa using hle
      stands := fun a ha => by
        obtain rfl := hall ha
        exact
          { slot := hslot'.trans hslot
            total := hp.trans_eq htot.symm
            four := hstep.ge
            undecided := hdec
            counted := rfl
            first := fun _ => hstep }
      spoke := fun a ha => by
        obtain rfl := hall ha
        rw [hsends]
        rcases hact with ⟨hact, -, hasks⟩ | ⟨hact, hfx'⟩
        · rw [hslot] at hasks
          simp only [hact, hasks, if_true, Option.isSome_some]
        · rw [hfx']
          exact hact
      timely := fun a t ha ht => by
        obtain rfl := hall ha
        rw [hsends] at ht
        show now + (p.start draw).1.activationDelay ≤ t
        rcases hact with ⟨-, hzero, hasks⟩ | ⟨-, hfx'⟩
        · rw [hslot] at hasks
          rw [if_pos hasks] at ht
          rw [hdelay, hzero, ← Option.some.inj ht]
          exact le_rfl
        · rw [hfx'] at ht
          exact absurd ht (by simp [sendsOf])
      hedged := fun a ha hpassive t ht => by
        obtain rfl := hall ha
        show now + (p.start draw).1.activationDelay ≤ t.fireAt ∨ _
        rcases List.mem_append.1 ht with hold | hnew
        · rcases Nat.lt_or_ge t.fireAt (now + (p.start draw).1.activationDelay) with hlt | hge
          · exact .inr (List.mem_filter.2 ⟨hkept t hold, by simpa using hlt⟩)
          · exact .inl hge
        · obtain ⟨hmem, hid⟩ := List.mem_filter.1 hnew
          obtain ⟨d, id, hf, rfl⟩ := World.mem_timersOf.1 hmem
          obtain rfl : id = .hedge := by simpa using hid
          rw [hfx] at hf
          rcases List.mem_append.1 hf with hf | hf
          · rcases hact with ⟨hact, -, -⟩ | ⟨-, hfx'⟩
            · exact absurd (hact.symm.trans hpassive) (by simp)
            · rw [hfx', List.mem_singleton, Effect.timer.injEq] at hf
              rw [hdelay, hf.1]
              exact .inl (Nat.add_le_add_left (le_max_left _ _) _)
          · obtain ⟨d', heq⟩ := hmore _ hf
            exact absurd heq (by simp) }

/-- an idle replica launches an attempt -/
theorem Launches.fair {ctx : SmrCtx} {nd nd' : SmrNode} {sh sh' : Shared} {fx : List (Effect SmrMsg)}
    {kept hedges : List PendingTimer} (h : Launches ctx nd sh nd' sh' fx) (htotal : 0 < nd.totalReplicas)
    (ht : Tallies nd.metrics 0) (hkept : ∀ t ∈ kept, t ∈ hedges) (i : NodeId) :
    ∃ a, nd'.currentAttempt = some a ∧ nd'.Fair
      { startedAt := ctx.now
        spokeAt := if ((sendsOf i fx).map Envelope.payload).any (ConcreteMsg.asks a.slot) then some ctx.now else none
        answered := false
        leftover := hedges.filter fun t => decide (t.fireAt < ctx.now + a.proposer.activationDelay) }
      (kept ++ (timersOf i ctx.now fx).filter fun t => decide (t.id = .hedge)) := by
  cases h with
  | @op o queue leader delay hq hl hd =>
    obtain ⟨hact, hdec, -⟩ := Smr.proposerFor_idle { nd with queue := queue } ctx.selfId o.command leader delay
    have hfresh := Smr.proposerFor_fresh { nd with queue := queue } ctx.selfId o.command leader delay rfl
    have hslot := Smr.proposerFor_slot { nd with queue := queue } ctx.selfId o.command leader delay
    obtain ⟨b, hb⟩ := launch_drives ctx { nd with queue := queue } (.op o.opId) o.command leader delay
    exact ⟨_, hb, fair_withAttempt htotal ht hslot (htotal.trans_eq hfresh.total.symm) hdec hact
      (List.append_nil _).symm (by simp) hkept⟩
  | @probe delay hd =>
    obtain ⟨hact, hdec, -⟩ := Smr.proposerFor_idle nd ctx.selfId (catchUpProbe nd.durable.nextSlot) none delay
    have hfresh := Smr.proposerFor_fresh nd ctx.selfId (catchUpProbe nd.durable.nextSlot) none delay rfl
    have hslot := Smr.proposerFor_slot nd ctx.selfId (catchUpProbe nd.durable.nextSlot) none delay
    obtain ⟨b, hb⟩ := launch_drives ctx nd .catchUp (catchUpProbe nd.durable.nextSlot) none delay
    exact ⟨_, hb, { fair_withAttempt htotal ht hslot (htotal.trans_eq hfresh.total.symm) hdec hact rfl
      (fun f hf => ⟨_, List.mem_singleton.1 hf⟩) hkept with }⟩

/-- a replica whose attempt and counters stay as they are -/
theorem Fair.same {nd nd' : SmrNode} {e e' : Episode} {hedges hedges' : List PendingTimer} (h : nd.Fair e hedges)
    (hcur : nd'.currentAttempt = nd.currentAttempt) (hmet : nd'.metrics = nd.metrics)
    (htotal : nd'.totalReplicas = nd.totalReplicas)
    (he : ∀ a, nd.currentAttempt = some a →
      e'.startedAt = e.startedAt ∧ e'.spokeAt = e.spokeAt ∧ e'.leftover = e.leftover)
    (hsub : ∀ t ∈ hedges', t ∈ hedges) : nd'.Fair e' hedges' where
  total := h.total.trans_eq htotal.symm
  tallies := by
    have hspare : nd'.spare = nd.spare := by
      unfold spare
      rw [hcur]
    rw [hmet, hspare]
    exact h.tallies
  stands := fun a ha => h.stands a (hcur.symm.trans ha)
  spoke := fun a ha => by
    rw [(he a (hcur.symm.trans ha)).2.1]
    exact h.spoke a (hcur.symm.trans ha)
  timely := fun a t ha ht => by
    obtain ⟨hstart, hspoke, -⟩ := he a (hcur.symm.trans ha)
    rw [hstart]
    exact h.timely a t (hcur.symm.trans ha) (hspoke.symm.trans ht)
  hedged := fun a ha hact t ht => by
    obtain ⟨hstart, -, hleft⟩ := he a (hcur.symm.trans ha)
    rw [hstart, hleft]
    exact h.hedged a (hcur.symm.trans ha) hact t (hsub t ht)

theorem Fair.idle {nd : SmrNode} {e : Episode} {hedges : List PendingTimer} (htotal : 0 < nd.totalReplicas)
    (ht : Tallies nd.metrics 0) (hidle : nd.currentAttempt = none) : nd.Fair e hedges := by
  have hnot : ∀ a, nd.currentAttempt ≠ some a := by simp [hidle]
  have hspare : nd.spare = 0 := by
    unfold spare
    rw [hidle]
    rfl
  exact ⟨htotal, by rw [hspare]; exact ht, fun a ha => absurd ha (hnot a), fun a ha => absurd ha (hnot a),
    fun a _ ha => absurd ha (hnot a), fun a ha => absurd ha (hnot a)⟩

/-- the attempt decides after it activated: its activation is used up -/
theorem Fair.applied {nd : SmrNode} {e : Episode} {hedges : List PendingTimer} {a : CurrentAttempt}
    {p : Proposer Command} (h : nd.Fair e hedges) (ha : nd.currentAttempt = some a) (hact : a.proposer.activated = true)
    (hact' : p.activated = true) (hstep : a.proposer.step ≤ p.step) (decided : Command) :
    Tallies ((nd.withAttempt { a with proposer := p }).applied { a with proposer := p } decided).metrics 0 := by
  have hst := h.stands a ha
  have hcount : a.activatedCounted = true := hst.counted.trans hact
  obtain ⟨-, hmet⟩ := withAttempt_counts nd (a := { a with proposer := p }) (fun _ => hact')
  have hsame : (nd.withAttempt { a with proposer := p }).metrics = nd.metrics := by
    rw [hmet]
    simp [hcount]
  have hspare : nd.spare = 1 := by
    unfold spare
    rw [ha]
    simp [hact]
  have ht := h.tallies
  rw [hspare] at ht
  have hround : 1 ≤ p.step / 4 := by
    have hfour := hst.four.trans hstep
    unfold FIRST_ROUND_STEP at hfour
    omega
  unfold SmrNode.applied
  rw [hsame]
  refine ⟨?_, ?_, ?_⟩
  · show nd.metrics.fastPathDecisions + (if _ then 1 else 0) ≤ nd.metrics.decisions + 1
    have hle := ht.fast
    split_ifs <;> omega
  · show nd.metrics.decisions + 1 ≤ nd.metrics.roundsTotal + p.step / 4
    exact Nat.add_le_add ht.rounds hround
  · exact ht.activations

end SmrNode

/-! ## Over a run -/

namespace Smr

/-- the attempt of replica `i`, while it has not activated -/
def passive (w : Smr) (i : NodeId) : Option CurrentAttempt :=
  (w.nodes i).bind fun nd => nd.currentAttempt.filter fun a => !a.proposer.activated

/-- a hedge timer left over from an earlier attempt fires at an attempt that has not activated -/
def wakesEarly (i : NodeId) (f : Followed) (op : SmrOp) : Bool :=
  (passive f.world i).isSome && (fired f.world i op).any fun t => decide (t ∈ f.episode.leftover)

/-- a reply completes a quorum of an attempt that has not activated, before the attempt's delay is over or so that it
decides -/
def answersPassive (i : NodeId) (f : Followed) (op : SmrOp) : Bool :=
  (passive f.world i).any fun a => (delivered f.world i op).any fun m =>
    match m.2 with
    | .request _ => false
    | .response resp => a.proposer.completes m.1 resp &&
        (decide (f.world.now < f.episode.startedAt + a.proposer.activationDelay) ||
          (a.proposer.noted m.1 resp).fastQuorum)

/-- nothing meant for an earlier attempt disturbs one that has not activated -/
def Undisturbed (i : NodeId) (f : Followed) (op : SmrOp) : Prop :=
  wakesEarly i f op = false ∧ answersPassive i f op = false

instance (i : NodeId) (f : Followed) (op : SmrOp) : Decidable (Undisturbed i f op) := by
  unfold Undisturbed; infer_instance

/-- the counters of replica `i` are in order -/
def Tallied (i : NodeId) (w : Smr) : Prop :=
  ∀ nd, w.nodes i = some nd → nd.metrics.fastPathDecisions ≤ nd.metrics.decisions ∧
    nd.metrics.decisions ≤ nd.metrics.proposerActivations ∧ nd.metrics.decisions ≤ nd.metrics.roundsTotal

/-- the attempt of replica `i` sent its first request when its delay was over, or has not sent one -/
def Timely (i : NodeId) (f : Followed) : Prop :=
  ∀ nd a t, f.world.nodes i = some nd → nd.currentAttempt = some a → f.episode.spokeAt = some t →
    f.episode.startedAt + a.proposer.activationDelay ≤ t

/-- an attempt of replica `i` that decides in this step has sent a request -/
def Spoken (i : NodeId) (f : Followed) (op : SmrOp) : Prop :=
  ∀ nd nd', f.world.nodes i = some nd → (step f.world op).nodes i = some nd' →
    nd.durable.nextSlot < nd'.durable.nextSlot → f.episode.spokeAt.isSome = true

/-- what replica `i` keeps -/
def Fairly (i : NodeId) (f : Followed) : Prop :=
  ∀ nd, f.world.nodes i = some nd → nd.Fair f.episode (ownTimers f.world i .hedge)

variable {i : NodeId} {f : Followed} {op : SmrOp}

/-- a hedge timer that fires at a passive attempt is not before the end of its delay -/
theorem hedge_due {x : Stimulus SmrMsg} {rng : NodeId → Draw} {left : List PendingTimer} {nd nd' : SmrNode}
    {fx : List (Effect SmrMsg)} {w' : Smr} {a : CurrentAttempt} (h : Fairly i f) (hcalm : wakesEarly i f op = false)
    (hown : Own f.world i op x rng left nd nd' fx w') (hx : x = .timer .hedge) (ha : nd.currentAttempt = some a)
    (hact : a.proposer.activated = false) : f.episode.startedAt + a.proposer.activationDelay ≤ f.world.now := by
  rcases hown.fired with ⟨-, hnot⟩ | ⟨t, hfired, hxt, hmem, hdue⟩
  · exact absurd hx (hnot _)
  · have hid : t.id = .hedge := by
      rw [hx] at hxt
      exact (Stimulus.timer.inj hxt).symm
    rw [hid] at hmem
    rcases (h nd hown.callback.node).hedged a ha hact t hmem with hlate | hleft
    · exact hlate.trans hdue
    · exact absurd hcalm (by simp [wakesEarly, passive, hown.callback.node, ha, hact, hfired, hleft])

/-- a reply that activates a passive attempt, or makes it decide, completes a quorum of it -/
theorem Undisturbed.reply {rng : NodeId → Draw} {left : List PendingTimer} {nd nd' : SmrNode}
    {fx fx₁ : List (Effect SmrMsg)} {w' : Smr} {a : CurrentAttempt} {src : NodeId} {resp : RecordResponse Command}
    {p : Proposer Command} (hcalm : Undisturbed i f op)
    (hown : Own f.world i op (.message src (.response resp)) rng left nd nd' fx w') (ha : nd.currentAttempt = some a)
    (hst : a.Stands) (hact : a.proposer.activated = false)
    (hc : a.proposer.onResponse src resp rng = .ok (p, fx₁)) :
    p.decided = none ∧
      (p.activated = true → f.episode.startedAt + a.proposer.activationDelay ≤ f.world.now) := by
  have hquiet := hcalm.2
  unfold answersPassive passive at hquiet
  rw [hown.callback.node, hown.delivered rfl] at hquiet
  simp only [Option.bind_some, ha, Option.filter_some, hact, Bool.not_false, if_true, Option.any_some,
    Bool.and_eq_false_imp, Bool.or_eq_false_iff, decide_eq_false_iff_not, not_lt] at hquiet
  cases hq : a.proposer.completes src resp with
  | false =>
    obtain ⟨hp, -⟩ := Proposer.onResponse_incomplete hc hq
    rcases hp with rfl | rfl
    · exact ⟨hst.undecided, fun h => absurd (hact.symm.trans h) (by simp)⟩
    · exact ⟨hst.undecided, fun h => absurd (hact.symm.trans h) (by simp)⟩
  | true =>
    obtain ⟨hlate, hslow⟩ := hquiet hq
    refine ⟨?_, fun _ => hlate⟩
    by_contra hd
    have hfast := ((Proposer.onResponse_decides hc hst.undecided hd).2.2.2 (hst.first hact)).2
    exact absurd (hslow.symm.trans hfast) (by simp)

/-- **Step lemma.** Where nothing meant for an earlier attempt disturbs a passive one, every decision is counted after an
activation, and is of an attempt that has sent a request. -/
theorem fairly_step (h : Fairly i f) (hdup : ∀ k, op ≠ .env (.dupTimer k)) (hcalm : Undisturbed i f op) :
    Fairly i (f.step i op) ∧ Spoken i f op := by
  rcases step_replica f.world i op with ⟨haside, hfired⟩ | ⟨x, rng, left, nd, nd', fx, hown⟩
  · have hnote : (f.step i op).episode = f.episode := haside.note hfired
    refine ⟨fun nd' hnd' => ?_, fun nd₀ nd' hnd₀ hnd' hlt => ?_⟩
    · obtain ⟨nd, queue, hnd, rfl⟩ := haside.node nd' hnd'
      rw [hnote]
      exact (h nd hnd).same rfl rfl rfl (fun _ _ => ⟨rfl, rfl, rfl⟩) (haside.timers hdup .hedge (by simp)).subset
    · obtain ⟨nd, queue, hnd, rfl⟩ := haside.node nd' hnd'
      obtain rfl : nd₀ = nd := Option.some.inj (hnd₀.symm.trans hnd)
      exact absurd hlt (lt_irrefl _)
  · have hfair := h nd hown.callback.node
    obtain ⟨kept, htimers, hkept, -⟩ := hown.ownTimers .hedge
    suffices hself : nd'.Fair (f.step i op).episode (ownTimers (f.step i op).world i .hedge) ∧
        (nd.durable.nextSlot < nd'.durable.nextSlot → f.episode.spokeAt.isSome = true) by
      refine ⟨fun nd₁ hnd₁ => ?_, fun nd₀ nd₁ hnd₀ hnd₁ hlt => ?_⟩
      · obtain rfl : nd' = nd₁ := Option.some.inj (hown.node.symm.trans hnd₁)
        exact hself.1
      · obtain rfl : nd = nd₀ := Option.some.inj (hown.callback.node.symm.trans hnd₀)
        obtain rfl : nd' = nd₁ := Option.some.inj (hown.node.symm.trans hnd₁)
        exact hself.2 hlt
    have hpending : ownTimers (f.step i op).world i .hedge =
        kept ++ (timersOf i f.world.now fx).filter fun t => decide (t.id = .hedge) := htimers
    rw [hpending]
    -- an attempt that stays, with nothing sent for it
    have hstay : nd'.currentAttempt = nd.currentAttempt → nd'.inFlight = nd.inFlight → nd'.metrics = nd.metrics →
        nd'.totalReplicas = nd.totalReplicas → (∀ d, .timer d .hedge ∉ fx) →
        (∀ k, ((sendsOf i fx).map Envelope.payload).any (ConcreteMsg.asks k) = false) →
        nd'.Fair (f.step i op).episode (kept ++ (timersOf i f.world.now fx).filter fun t => decide (t.id = .hedge)) := by
      intro hcur hkey hmet htotal hnone hmute
      refine hfair.same hcur hmet htotal (fun a ha => ?_) fun t ht => ?_
      · have hnote : (f.step i op).episode = _ := hown.note_kept (hcur.trans ha) hkey
        rw [hnote, hmute]
        exact ⟨rfl, by simp, rfl⟩
      · rw [World.timersOf_unarmed hnone, List.append_nil] at ht
        exact hkept.subset ht
    -- an attempt that is launched
    have hlaunch : ∀ {nd₁ sh₁ sh₂}, SmrNode.Launches ⟨i, f.world.now, rng⟩ nd₁ sh₁ nd' sh₂ fx →
        nd'.inFlight ≠ nd.inFlight → 0 < nd₁.totalReplicas → SmrNode.Tallies nd₁.metrics 0 →
        nd'.Fair (f.step i op).episode (kept ++ (timersOf i f.world.now fx).filter fun t => decide (t.id = .hedge)) := by
      intro nd₁ sh₁ sh₂ hl hkey htotal htally
      obtain ⟨a, ha, hnew⟩ := hl.fair htotal htally (fun t ht => hkept.subset ht) i
      have hnote : (f.step i op).episode = _ := hown.note_launched ha hkey
      rw [hnote]
      exact hnew
    have htally := hfair.tallies.le (Nat.zero_le _)
    have hcourse := hown.course
    generalize (step f.world op).shared = sh' at hcourse
    cases hcourse with
    | serves =>
      refine ⟨hstay rfl rfl rfl rfl (by simp) (fun k => by simp [sendsOf, ConcreteMsg.asks]), fun hlt => ?_⟩
      exact absurd hlt (lt_irrefl _)
    | ignores =>
      refine ⟨hstay rfl rfl rfl rfl (by simp) (fun k => by simp [sendsOf]), fun hlt => ?_⟩
      exact absurd hlt (lt_irrefl _)
    | @drives x a p fx ha hc =>
      have hst := hfair.stands a ha
      obtain ⟨b, hb⟩ := SmrNode.withAttempt_drives nd { a with proposer := p }
      have hkey : (nd.withAttempt { a with proposer := p }).inFlight = nd.inFlight := by
        rw [SmrNode.withAttempt_inFlight]
        unfold SmrNode.inFlight
        rw [ha]
        rfl
      have hnote : (f.step i op).episode = _ := hown.note_kept hb hkey
      rw [hnote]
      refine ⟨?_, fun hlt => absurd hlt (lt_irrefl _)⟩
      cases hc with
      | reply hs hc hd =>
        refine hfair.drives ha (Proposer.onResponse_acts hc i) hd (fun hact hact' => ?_) fun _ t ht => ?_
        · exact (hcalm.reply hown ha hst hact hc).2 hact'
        · rw [World.timersOf_unarmed, List.append_nil] at ht
          · exact .inl (hkept.subset ht)
          · intro d hd
            obtain ⟨s, hs⟩ := Proposer.onResponse_armed hc hd
            exact absurd hs (by simp)
      | @timer id p fx hk hw hc =>
        obtain ⟨hwakes, harms⟩ := Proposer.onTimer_hedge hc hk
        refine hfair.drives ha (Proposer.onTimer_acts hc hk i) ((Proposer.onTimer_decided hc).trans hst.undecided)
          (fun hact hact' => ?_) fun hact t ht => ?_
        · exact hedge_due h hcalm.1 hown (by rw [hwakes hact hact']) ha hact
        · rcases List.mem_append.1 ht with hold | hnew
          · exact .inl (hkept.subset hold)
          · obtain ⟨hmem, hid⟩ := List.mem_filter.1 hnew
            obtain ⟨d, id', hf, rfl⟩ := World.mem_timersOf.1 hmem
            obtain rfl : id' = .hedge := by simpa using hid
            exact .inr ((hedge_due h hcalm.1 hown (by rw [harms d hf]) ha hact).trans (Nat.le_add_right _ _))
    | begins hidle hl hop =>
      refine ⟨hlaunch hl (hl.inFlight_moved (by simp [hidle])) hfair.total htally, fun hlt => ?_⟩
      rw [hl.durable] at hlt
      exact absurd hlt (lt_irrefl _)
    | reissues ha ho hw hg hl hcu =>
      refine ⟨hlaunch hl (hl.inFlight_ne hcu rfl) hfair.total htally, fun hlt => ?_⟩
      rw [hl.durable] at hlt
      exact absurd hlt (lt_irrefl _)
    | rejoins hl hcu =>
      refine ⟨hlaunch hl (hl.inFlight_ne hcu rfl) hfair.total .default, fun hlt => ?_⟩
      rw [hl.durable] at hlt
      exact absurd hlt (lt_irrefl _)
    | @finishes src resp a p fx₁ decided queue sh₂ nd' sh' fx₂ ha hslot hfront hr hd hnext =>
      have hst := hfair.stands a ha
      have hdec : p.decided ≠ none := by rw [hd]; simp
      have hact : a.proposer.activated = true := by
        cases hact : a.proposer.activated with
        | true => rfl
        | false => exact absurd (hcalm.reply hown ha hst hact hr).1 hdec
      obtain ⟨rfl, hsame, -, -⟩ := Proposer.onResponse_decides hr hst.undecided hdec
      have hused := hfair.applied ha hact (hsame.trans hact) (Proposer.onResponse_acts hr i).step decided
      refine ⟨?_, fun _ => (hfair.spoke a ha).symm.trans hact⟩
      rcases hnext with ⟨rfl, rfl⟩ | hl
      · exact .idle hfair.total hused rfl
      · refine hlaunch hl (hl.inFlight_moved fun a' ha' => ?_) hfair.total hused
        obtain rfl : a = a' := Option.some.inj (ha.symm.trans ha')
        rw [hfront]
        exact (Nat.succ_ne_self _).symm

theorem fairly_of (s : Setup) (i : NodeId) : Fairly i (.of s.cluster) := by
  have hfresh : ∀ n policy nd, (build n policy).nodes i = some nd →
      nd.Fair ⟨0, none, false, []⟩ (ownTimers (build n policy) i .hedge) := by
    intro n policy nd hnd
    have hi : i < n := by
      unfold build at hnd
      dsimp only at hnd
      split_ifs at hnd with hi
      exact hi
    obtain rfl := build_node hnd
    exact .idle ((Nat.zero_le i).trans_lt hi) .default rfl
  cases s with
  | leader n l => exact hfresh n _
  | tuning n l d => exact hfresh (n + 1) _

/-- **Every decision implies an activation**, along every run in which nothing meant for an earlier attempt of replica `i`
disturbs one that has not activated: its counters are in order in every state, an attempt that decides has sent a request,
and sent the first one no earlier than its delay after it was started. -/
theorem decided_after_activation (s : Setup) (i : NodeId) (ops : List SmrOp) (hdup : ∀ k, .env (.dupTimer k) ∉ ops)
    (hcalm : Runs.Along (Followed.step i) (Undisturbed i) (.of s.cluster) ops) :
    Runs.Along (Followed.step i) (Spoken i) (.of s.cluster) ops ∧
    ∀ l m, ops = l ++ m → Tallied i (s.cluster.run l) ∧ Timely i (Runs.run (Followed.step i) (.of s.cluster) l) := by
  let P : Followed → SmrOp → Prop := fun f op => (∀ k, op ≠ .env (.dupTimer k)) ∧ Undisturbed i f op
  have hmem : Runs.Along (Followed.step i) (fun _ op => op ∈ ops) (.of s.cluster) ops := Runs.along_mem _ _ ops
  have halong : Runs.Along (Followed.step i) P (.of s.cluster) ops :=
    (hmem.imp fun f op hop k hk => hdup k (by rw [← hk]; exact hop)).and hcalm
  refine ⟨Runs.along_of_invariant (I := Fairly i) (fun f op hf hp => (fairly_step hf hp.1 hp.2).1)
    (fun f op hf hp => (fairly_step hf hp.1 hp.2).2) (fairly_of s i) halong, ?_⟩
  rintro l m rfl
  have hl : Fairly i (Runs.run (Followed.step i) (.of s.cluster) l) :=
    Runs.run_invariant (I := Fairly i) (fun f op hf hp => (fairly_step hf hp.1 hp.2).1) (fairly_of s i)
      (Runs.along_append.1 halong).1
  refine ⟨fun nd hnd => ?_, fun nd a t hnd ha ht => (hl nd hnd).timely a t ha ht⟩
  have hfollowed : (Runs.run (Followed.step i) (.of s.cluster) l).world.nodes i = some nd := by
    rw [Followed.run_world]
    exact hnd
  have htally := (hl nd hfollowed).tallies
  exact ⟨htally.fast, (Nat.le_add_right _ _).trans htally.activations, htally.rounds⟩

/-! ## Runs of three replicas that are hedged by 50 ticks -/

/-- leader 0 decides slot 0 with recorders 0 and 2; hedged replica 1 activates and sends its requests of step 4 -/
def hedgesIn : List SmrOp :=
  [.submit 0 (.get 1 1 7), .submit 1 (.get 2 1 7), wait 1, fire 0 1, fire 0 1, deliver 0 1, deliver 1 1, .env (.drop 0),
    deliver 0 1, deliver 0 1, wait 20, fire 0 1, wait 30, fire 0 1, deliver 0 1, deliver 1 1]

/-- replica 1 decides on the replies to its own requests -/
theorem decided_after_activation_hedged :
    Runs.Along (Followed.step 1) (Spoken 1) (.of (newWithTuning 2 1000 50)) (hedgesIn ++ [deliver 1 1, deliver 1 1]) ∧
    Tallied 1 ((newWithTuning 2 1000 50).run (hedgesIn ++ [deliver 1 1, deliver 1 1])) ∧
    Timely 1 (Runs.run (Followed.step 1) (.of (newWithTuning 2 1000 50)) (hedgesIn ++ [deliver 1 1, deliver 1 1])) := by
  have hdup : ∀ k, SmrOp.env (.dupTimer k) ∉ hedgesIn ++ [deliver 1 1, deliver 1 1] := by
    simp [hedgesIn, wait, fire, deliver]
  have h := decided_after_activation (.tuning 2 1000 50) 1 _ hdup (by decide +kernel)
  exact ⟨h.1, h.2 _ [] (List.append_nil _).symm⟩

/-- replica 1 crashes and restarts; its probe, which has sent nothing, takes the replies to the requests of the attempt
before it -/
def takesOver : List SmrOp := [crash 1, restart 1 1, deliver 1 1, deliver 1 1]

/-- replica 1 restarts ten ticks before the hedge timer of its first attempt is due -/
def hedgeLeftOver : List SmrOp := [.submit 1 (.get 2 1 7), wait 1, fire 0 1, wait 40, restart 1 1, wait 10, fire 0 1]

/-- **Leftover replies decide an attempt that never activated**, and a leftover hedge timer makes one send ten ticks after
it was started, hedged by fifty. -/
theorem decided_without_activation :
    ¬ Tallied 1 ((newWithTuning 2 1000 50).run (hedgesIn ++ takesOver)) ∧
    ¬ Runs.Along (Followed.step 1) (Spoken 1) (.of (newWithTuning 2 1000 50)) (hedgesIn ++ takesOver) ∧
    ¬ Timely 1 (Runs.run (Followed.step 1) (.of (newWithTuning 2 1000 50)) hedgeLeftOver) := by
  refine ⟨fun h => ?_, fun h => ?_, fun h => ?_⟩
  · have hrun : (((newWithTuning 2 1000 50).run (hedgesIn ++ takesOver)).nodes 1).map
        (fun nd => (nd.metrics.decisions, nd.metrics.proposerActivations)) = some (1, 0) := by decide +kernel
    obtain ⟨nd, hnd, heq⟩ := Option.map_eq_some_iff.1 hrun
    simp only [Prod.mk.injEq] at heq
    have hle := (h nd hnd).2.1
    omega
  · have hlast : Spoken 1 (Runs.run (Followed.step 1) (.of (newWithTuning 2 1000 50))
        (hedgesIn ++ [crash 1, restart 1 1, deliver 1 1])) (deliver 1 1) := by
      rw [show hedgesIn ++ takesOver = hedgesIn ++ [crash 1, restart 1 1, deliver 1 1] ++ [deliver 1 1] from rfl] at h
      exact (Runs.along_append.1 h).2.1
    generalize hf : Runs.run (Followed.step 1) (.of (newWithTuning 2 1000 50))
      (hedgesIn ++ [crash 1, restart 1 1, deliver 1 1]) = f at hlast
    have hbefore : (f.world.nodes 1).map (fun nd => nd.durable.nextSlot) = some 0 := by rw [← hf]; decide +kernel
    have hafter : ((step f.world (deliver 1 1)).nodes 1).map (fun nd => nd.durable.nextSlot) = some 1 := by
      rw [← hf]; decide +kernel
    have hmute : f.episode.spokeAt = none := by rw [← hf]; decide +kernel
    obtain ⟨nd, hnd, hslot⟩ := Option.map_eq_some_iff.1 hbefore
    obtain ⟨nd', hnd', hslot'⟩ := Option.map_eq_some_iff.1 hafter
    have hspoke := hlast nd nd' hnd hnd' (by omega)
    rw [hmute] at hspoke
    exact absurd hspoke (by simp)
  · generalize hf : Runs.run (Followed.step 1) (.of (newWithTuning 2 1000 50)) hedgeLeftOver = f at h
    have hrun : (f.world.nodes 1).bind (fun nd => nd.currentAttempt.map fun a => a.proposer.activationDelay) =
        some 50 := by rw [← hf]; decide +kernel
    have htimes : (f.episode.startedAt, f.episode.spokeAt) = (41, some 51) := by rw [← hf]; decide +kernel
    obtain ⟨nd, hnd, hrun⟩ := Option.bind_eq_some_iff.1 hrun
    obtain ⟨a, ha, hdelay⟩ := Option.map_eq_some_iff.1 hrun
    simp only [Prod.mk.injEq] at htimes
    have hlate := h nd a 51 hnd ha htimes.2
    rw [htimes.1, hdelay] at hlate
    exact absurd hlate (by decide)

end Smr

end Queso
