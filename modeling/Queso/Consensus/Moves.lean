/-
What one call can do to a proposer.

`onResponse_moves` and `onTimer_moves` invert the two entry points once and for all: every invariant of a cluster is
proved from them, and none unfolds the proposer again. A call that does not leave the proposer quiet either begins a
step (`beginStep` at a step and with a working proposal that the constructor names), resends what was prepared, decides,
or rewinds a hedged proposer to round 1.
-/
import Queso.Consensus.Proposer
import Queso.Sim.World

namespace Queso

variable {V : Type}

namespace Proposer

/-- the proposer with a reply of `src` folded in; the first reply of a recorder stays -/
def noted (p : Proposer V) (src : NodeId) (resp : RecordResponse V) : Proposer V :=
  { p with responses := if src ∈ p.responses then p.responses else p.responses.insert src resp }

/-- the proposer at another step with another working proposal -/
def movedTo (p : Proposer V) (s : ℕ) (q : Proposal V) : Proposer V := { p with step := s, proposal := q }

/-- the reply of recorder `j` is among those collected for the current step -/
def Counted (p : Proposer V) (j : NodeId) (r : RecordResponse V) : Prop := p.responses.lookup j = some r

/-- the replies collected form a quorum -/
def Quorate (p : Proposer V) : Prop := p.quorumThreshold ≤ p.responses.keys.length

/-- every reply collected is at the proposer's own step -/
def Level (p : Proposer V) : Prop := ∀ r ∈ p.replies, r.step = p.step

theorem counted_noted {p : Proposer V} {src j : NodeId} {resp r : RecordResponse V}
    (h : (p.noted src resp).Counted j r) : p.Counted j r ∨ j = src ∧ r = resp := by
  unfold Counted noted at h
  dsimp only at h
  split_ifs at h with hs
  · exact .inl h
  · by_cases hj : j = src
    · subst hj
      rw [AList.lookup_insert] at h
      exact .inr ⟨rfl, (Option.some.inj h).symm⟩
    · rw [AList.lookup_insert_ne hj] at h
      exact .inl h

theorem mem_replies {p : Proposer V} {r : RecordResponse V} : r ∈ p.replies ↔ ∃ j, p.Counted j r := by
  unfold replies Counted
  rw [List.mem_map]
  constructor
  · rintro ⟨⟨j, r'⟩, hmem, rfl⟩
    exact ⟨j, AList.mem_lookup_iff.2 hmem⟩
  · rintro ⟨j, hj⟩
    exact ⟨⟨j, r⟩, AList.mem_lookup_iff.1 hj, rfl⟩

theorem Level.step_eq {p : Proposer V} (h : p.Level) {j : NodeId} {r : RecordResponse V} (hr : p.Counted j r) :
    r.step = p.step := h r (mem_replies.2 ⟨j, hr⟩)

theorem counted_iff {p : Proposer V} {j : NodeId} {r : RecordResponse V} :
    p.Counted j r ↔ ⟨j, r⟩ ∈ p.responses.entries := AList.mem_lookup_iff

instance (p : Proposer V) : Decidable p.Quorate := by unfold Quorate; infer_instance

instance (p : Proposer V) : Decidable p.Level := by unfold Level; infer_instance

theorem mem_keys_counted {p : Proposer V} {j : NodeId} (h : j ∈ p.responses.keys) : ∃ r, p.Counted j r :=
  Option.isSome_iff_exists.1 (AList.lookup_isSome.2 (AList.mem_keys.2 h))

/-! ## Beginning a step -/

section BeginStep

variable (p : Proposer V) (draw : NodeId → Draw)

@[simp] theorem beginStep_selfId : (p.beginStep draw).1.selfId = p.selfId := rfl
@[simp] theorem beginStep_slot : (p.beginStep draw).1.slot = p.slot := rfl
@[simp] theorem beginStep_totalReplicas : (p.beginStep draw).1.totalReplicas = p.totalReplicas := rfl
@[simp] theorem beginStep_leader : (p.beginStep draw).1.leader = p.leader := rfl
@[simp] theorem beginStep_step : (p.beginStep draw).1.step = p.step := rfl
@[simp] theorem beginStep_proposal : (p.beginStep draw).1.proposal = p.proposal := rfl
@[simp] theorem beginStep_decided : (p.beginStep draw).1.decided = p.decided := rfl
@[simp] theorem beginStep_responses : (p.beginStep draw).1.responses = ∅ := rfl
@[simp] theorem beginStep_activated : (p.beginStep draw).1.activated = true := rfl
@[simp] theorem beginStep_activationDelay : (p.beginStep draw).1.activationDelay = p.activationDelay := rfl

theorem foldl_insert_lookup (f : NodeId → Proposal V) (l : List NodeId) (m : ByRecorder (Proposal V)) (r : NodeId) :
    (l.foldl (fun m r => m.insert r (f r)) m).lookup r = if r ∈ l then some (f r) else m.lookup r := by
  induction l generalizing m with
  | nil => simp
  | cons a l ih =>
    rw [List.foldl_cons, ih]
    by_cases hr : r ∈ l
    · simp [hr]
    · by_cases ha : r = a
      · subst ha; simp [hr, AList.lookup_insert]
      · simp [hr, ha, AList.lookup_insert_ne ha]

/-- after beginning a step, what was prepared for a recorder is what `prepare` says -/
theorem beginStep_sent (r : NodeId) :
    (p.beginStep draw).1.sent.lookup r = if r < p.totalReplicas then some (p.prepare draw r) else none := by
  refine (foldl_insert_lookup (p.prepare draw) p.allRecorders ∅ r).trans ?_
  rw [show (∅ : ByRecorder (Proposal V)).lookup r = none from rfl]
  simp [allRecorders]

/-- beginning a step sends every recorder what was prepared for it, and nothing else -/
theorem mem_sendsOf_beginStep {i : NodeId} {e : Envelope (ConcreteMsg V)} :
    e ∈ sendsOf i (p.beginStep draw).2 ↔
      ∃ r < p.totalReplicas, e = ⟨i, r, .request ⟨p.slot, p.step, p.prepare draw r⟩⟩ := by
  simp only [sendsOf, beginStep, allRecorders, List.filterMap_append, List.mem_append, List.mem_filterMap,
    List.mem_map, List.mem_range, List.mem_singleton]
  constructor
  · rintro (⟨_, ⟨r, hr, rfl⟩, he⟩ | ⟨_, rfl, he⟩)
    · exact ⟨r, hr, (Option.some.inj he).symm⟩
    · exact absurd he (by simp)
  · rintro ⟨r, hr, rfl⟩
    exact .inl ⟨_, ⟨r, hr, rfl⟩, rfl⟩

/-- beginning a step arms its retry timer -/
theorem beginStep_armed {d : ℕ} {x : TimerId} (h : .timer d x ∈ (p.beginStep draw).2) : ∃ s, x = .retry s := by
  simp only [beginStep, sendRequest, List.mem_append, List.mem_map, List.mem_singleton, Effect.timer.injEq] at h
  rcases h with ⟨r, -, hr⟩ | ⟨-, rfl⟩
  · exact absurd hr (by simp)
  · exact ⟨p.step, rfl⟩

end BeginStep

/-! ## What `prepare` prepares -/

theorem prepare_value (p : Proposer V) (draw : NodeId → Draw) (r : NodeId) :
    (p.prepare draw r).value = p.proposal.value := by
  unfold prepare
  split_ifs <;> rfl

/-- in phases 1 to 3 the working proposal itself is sent -/
theorem prepare_later {p : Proposer V} (h : p.step % 4 ≠ 0) (draw : NodeId → Draw) (r : NodeId) :
    p.prepare draw r = p.proposal := by
  unfold prepare
  rw [if_neg (by tauto), if_neg h]

/-- in every phase 0 past round 1 the priority is drawn below `H` -/
theorem prepare_drawn {p : Proposer V} (h : p.step % 4 = 0) (h4 : p.step ≠ FIRST_ROUND_STEP) (draw : NodeId → Draw)
    (r : NodeId) : (p.prepare draw r).priority < H := by
  unfold prepare
  rw [if_neg (by tauto), if_pos h]
  exact (draw r).lt

/-- at step 4, `H` is what the leader attaches, to one and the same proposal for all recorders -/
theorem prepare_first {p : Proposer V} (h : p.step = FIRST_ROUND_STEP) (draw : NodeId → Draw) (r : NodeId) :
    (p.prepare draw r).priority < H ∨
      p.leader = some p.selfId ∧ p.prepare draw r = ⟨p.proposal.value, H, p.selfId⟩ := by
  have h0 : p.step % 4 = 0 := by rw [h]; rfl
  unfold prepare
  by_cases hl : p.isLeader = true
  · rw [if_pos ⟨h0, h, hl⟩]
    exact .inr ⟨by simpa [isLeader] using hl, rfl⟩
  · rw [if_neg (by tauto), if_pos h0]
    exact .inl (draw r).lt

/-! ## A reply -/

section Ordered

variable [LinearOrder V]

/-- the working proposal that a quorum at the proposer's own step leaves it with -/
inductive Yields (p : Proposer V) : Proposal V → Prop where
  | first {q} (h : p.step % 4 = 0) (hq : bestOf (p.replies.map (·.first)) = some q) : Yields p q
  | kept (h : p.step % 4 = 1 ∨ p.step % 4 = 2) : Yields p p.proposal
  | prior {q} (h : p.step % 4 = 3) (hq : bestOf (p.replies.map (·.priorAgg)) = some q) : Yields p q

/-- how a quorum at the proposer's own step makes it decide -/
inductive Settles (p : Proposer V) : V → Prop where
  | fast {v} (h : p.step % 4 = 0) (hv : fastPathValue p.replies = some v) : Settles p v
  | slow (h : p.step % 4 = 2) (hq : bestOf (p.replies.map (·.priorAgg)) = some p.proposal) :
      Settles p p.proposal.value

/-- all that processing a newly noted reply can do -/
inductive Answered (p : Proposer V) (draw : NodeId → Draw) : Proposer V → List (Effect (ConcreteMsg V)) → Prop where
  | waits : Answered p draw p []
  | advances {q} (hq : p.Quorate) (hl : p.Level) (hy : p.Yields q) :
      Answered p draw ((p.movedTo (p.step + 1) q).beginStep draw).1 ((p.movedTo (p.step + 1) q).beginStep draw).2
  | jumps {j r q} (hr : p.Counted j r) (hlt : p.step < r.step) (hf : r.first = some q) :
      Answered p draw ((p.movedTo r.step q).beginStep draw).1 ((p.movedTo r.step q).beginStep draw).2
  | decides {v} (hq : p.Quorate) (hl : p.Level) (hv : p.Settles v) : Answered p draw { p with decided := some v } []

omit [LinearOrder V] in
theorem level_iff {p : Proposer V} : (p.replies.all fun r => r.step == p.step) = true ↔ p.Level := by
  simp only [Level, List.all_eq_true, beq_iff_eq]

/-- a completed phase decides, or leaves a working proposal -/
theorem processPhase_moves {p p' : Proposer V} (h : p.processPhase = .ok p') :
    (∃ q, p.Yields q ∧ p' = { p with proposal := q }) ∨ ∃ v, p.Settles v ∧ p' = { p with decided := some v } := by
  unfold processPhase at h
  have hmod : p.step % 4 < 4 := Nat.mod_lt _ (by decide)
  rcases hs : p.step % 4 with _ | _ | _ | _ | k
  · rw [hs] at h
    cases hf : fastPathValue p.replies with
    | some v =>
      rw [hf] at h
      exact .inr ⟨v, .fast hs hf, (Except.ok.inj h).symm⟩
    | none =>
      rw [hf] at h
      dsimp only at h
      cases hb : bestOf (p.replies.map (·.first)) with
      | none => rw [hb] at h; exact absurd h (by simp)
      | some q =>
        rw [hb] at h
        exact .inl ⟨q, .first hs hb, (Except.ok.inj h).symm⟩
  · rw [hs] at h
    exact .inl ⟨p.proposal, .kept (.inl hs), (Except.ok.inj h).symm⟩
  · rw [hs] at h
    split_ifs at h with hb
    · exact .inr ⟨_, .slow hs hb, (Except.ok.inj h).symm⟩
    · exact .inl ⟨p.proposal, .kept (.inr hs), (Except.ok.inj h).symm⟩
  · rw [hs] at h
    cases hb : bestOf (p.replies.map (·.priorAgg)) with
    | none => rw [hb] at h; exact absurd h (by simp)
    | some q =>
      rw [hb] at h
      exact .inl ⟨q, .prior hs hb, (Except.ok.inj h).symm⟩
  · omega

omit [LinearOrder V] in
theorem furthestReply_counted {p : Proposer V} {r : RecordResponse V} (h : p.furthestReply = some r) :
    ∃ j, p.Counted j r ∧ p.step < r.step := by
  unfold furthestReply at h
  obtain ⟨⟨j, r'⟩, hmax, rfl⟩ := Option.map_eq_some_iff.1 h
  have hmem := List.argmax_mem hmax
  rw [List.mem_filter] at hmem
  exact ⟨j, AList.mem_lookup_iff.2 hmem.1, by simpa using hmem.2⟩

/-- replies that all are at the proposer's step take it through a phase; else it joins the one that is furthest ahead -/
theorem processQuorum_ok {p p' : Proposer V} {draw : NodeId → Draw} {fx : List (Effect (ConcreteMsg V))}
    (h : p.processQuorum draw = .ok (p', fx)) :
    (∃ p₁, p.Level ∧ p.processPhase = .ok p₁ ∧
      (p₁.decided = none ∧ ({ p₁ with step := p₁.step + 1 }.beginStep draw) = (p', fx) ∨
        p₁.decided ≠ none ∧ p' = p₁ ∧ fx = [])) ∨
      ∃ best q, p.furthestReply = some best ∧ best.first = some q ∧
        ({ p with step := best.step, proposal := q }.beginStep draw) = (p', fx) := by
  unfold processQuorum at h
  split_ifs at h with hl
  · rw [level_iff] at hl
    cases hp : p.processPhase with
    | error e => rw [hp] at h; exact absurd h (by simp)
    | ok p₁ =>
      rw [hp] at h
      dsimp only at h
      refine .inl ⟨p₁, hl, rfl, ?_⟩
      split_ifs at h with hd
      · exact .inl ⟨by simpa using hd, Except.ok.inj h⟩
      · simp only [Except.ok.injEq, Prod.mk.injEq] at h
        exact .inr ⟨by simpa using hd, h.1.symm, h.2.symm⟩
  · cases hf : p.furthestReply with
    | none => rw [hf] at h; exact absurd h (by simp)
    | some best =>
      rw [hf] at h
      dsimp only at h
      cases hb : best.first with
      | none => rw [hb] at h; exact absurd h (by simp)
      | some q =>
        rw [hb] at h
        exact .inr ⟨best, q, rfl, hb, Except.ok.inj h⟩

theorem processQuorum_moves {p p' : Proposer V} {draw : NodeId → Draw} {fx : List (Effect (ConcreteMsg V))}
    (hd : p.decided = none) (hq : p.Quorate) (h : p.processQuorum draw = .ok (p', fx)) : p.Answered draw p' fx := by
  rcases processQuorum_ok h with ⟨p₁, hl, hp, hnext⟩ | ⟨best, q, hf, hb, hbegin⟩
  · rcases processPhase_moves hp with ⟨q, hy, rfl⟩ | ⟨v, hv, rfl⟩
    · rcases hnext with ⟨-, hbegin⟩ | ⟨hdec, -⟩
      · have hadv : p.Answered draw _ _ := .advances hq hl hy
        rw [show ((p.movedTo (p.step + 1) q).beginStep draw) = (p', fx) from hbegin] at hadv
        exact hadv
      · exact absurd hd hdec
    · rcases hnext with ⟨hnone, -⟩ | ⟨-, rfl, rfl⟩
      · cases hnone
      · exact .decides hq hl hv
  · obtain ⟨j, hj, hlt⟩ := furthestReply_counted hf
    have hjump : p.Answered draw _ _ := .jumps hj hlt hb
    rw [show ((p.movedTo best.step q).beginStep draw) = (p', fx) from hbegin] at hjump
    exact hjump

theorem onResponse_eq (p : Proposer V) (src : NodeId) (resp : RecordResponse V) (draw : NodeId → Draw) :
    p.onResponse src resp draw =
      if p.decided.isSome then .ok (p, [])
      else if resp.slot ≠ p.slot ∨ resp.reqStep ≠ p.step then .ok (p, [])
      else if p.quorumThreshold ≤ (p.noted src resp).responses.keys.length then (p.noted src resp).processQuorum draw
      else .ok (p.noted src resp, []) := rfl

/-- a reply is ignored, or it is noted, and processed with the others once they are a quorum -/
theorem onResponse_ok {p p' : Proposer V} {src : NodeId} {resp : RecordResponse V} {draw : NodeId → Draw}
    {fx : List (Effect (ConcreteMsg V))} (h : p.onResponse src resp draw = .ok (p', fx)) :
    (p' = p ∧ fx = []) ∨
      p.decided = none ∧ resp.slot = p.slot ∧ resp.reqStep = p.step ∧
        ((p.noted src resp).Quorate ∧ (p.noted src resp).processQuorum draw = .ok (p', fx) ∨
          ¬ (p.noted src resp).Quorate ∧ p' = p.noted src resp ∧ fx = []) := by
  rw [onResponse_eq] at h
  split_ifs at h with hd hm hq
  · simp only [Except.ok.injEq, Prod.mk.injEq] at h
    exact .inl ⟨h.1.symm, h.2.symm⟩
  · simp only [Except.ok.injEq, Prod.mk.injEq] at h
    exact .inl ⟨h.1.symm, h.2.symm⟩
  all_goals
    have hnone : p.decided = none := by simpa using hd
    push Not at hm
    refine .inr ⟨hnone, hm.1, hm.2, ?_⟩
  · exact .inl ⟨hq, h⟩
  · simp only [Except.ok.injEq, Prod.mk.injEq] at h
    exact .inr ⟨hq, h.1.symm, h.2.symm⟩

/-- **All a reply can do**: nothing, or it is noted and answered -/
theorem onResponse_moves {p p' : Proposer V} {src : NodeId} {resp : RecordResponse V} {draw : NodeId → Draw}
    {fx : List (Effect (ConcreteMsg V))} (h : p.onResponse src resp draw = .ok (p', fx)) :
    (p' = p ∧ fx = []) ∨
      (p.decided = none ∧ resp.slot = p.slot ∧ resp.reqStep = p.step ∧ (p.noted src resp).Answered draw p' fx) := by
  rcases onResponse_ok h with hsame | ⟨hd, hslot, hreq, ⟨hq, hprocess⟩ | ⟨-, rfl, rfl⟩⟩
  · exact .inl hsame
  · exact .inr ⟨hd, hslot, hreq, processQuorum_moves (p := p.noted src resp) hd hq hprocess⟩
  · exact .inr ⟨hd, hslot, hreq, .waits⟩

/-- a reply arms retries only -/
theorem onResponse_armed {p p' : Proposer V} {src : NodeId} {resp : RecordResponse V} {draw : NodeId → Draw}
    {fx : List (Effect (ConcreteMsg V))} (h : p.onResponse src resp draw = .ok (p', fx)) {d : ℕ} {x : TimerId}
    (hx : .timer d x ∈ fx) : ∃ s, x = .retry s := by
  rcases onResponse_moves h with ⟨-, rfl⟩ | ⟨-, -, -, hans⟩
  · exact absurd hx (by simp)
  · cases hans with
    | waits => exact absurd hx (by simp)
    | decides => exact absurd hx (by simp)
    | advances => exact beginStep_armed _ draw hx
    | jumps => exact beginStep_armed _ draw hx

/-! ## A timer -/

omit [LinearOrder V]

/-- all that a timer can do -/
inductive Timed (p : Proposer V) (localStep : ℕ) (draw : NodeId → Draw) :
    TimerId → Proposer V → List (Effect (ConcreteMsg V)) → Prop where
  /-- no request goes out; at most the hedge's memory of progress changes -/
  | quiet {id x fx} (hfx : sendsOf p.selfId fx = []) (hh : ∀ d x, .timer d x ∈ fx → x = .hedge ∧ id = .hedge) :
      Timed p localStep draw id { p with lastSeenProgress := x } fx
  /-- a kickoff without hedging restarts round 1 -/
  | restarts (hd : p.decided = none) (ha : p.activationDelay = 0) :
      Timed p localStep draw .kickoff ((p.movedTo FIRST_ROUND_STEP p.proposal).beginStep draw).1
        ((p.movedTo FIRST_ROUND_STEP p.proposal).beginStep draw).2
  /-- a hedged kickoff goes back to step 4 and keeps everything else -/
  | rewinds (hd : p.decided = none) (ha : p.activationDelay ≠ 0) :
      Timed p localStep draw .kickoff (p.movedTo FIRST_ROUND_STEP p.proposal) [.timer p.activationDelay .hedge]
  /-- the hedge timer begins the current step (again) -/
  | activates (hd : p.decided = none) (hf : p.sawFreshProgress localStep = false) :
      Timed p localStep draw .hedge (p.beginStep draw).1 (p.beginStep draw).2
  /-- a retry repeats what was prepared -/
  | resends {fx} (hd : p.decided = none) (ha : p.activated = true)
      (hfx : ∀ i, ∀ e ∈ sendsOf i fx, ∃ r q, p.sent.lookup r = some q ∧ e = ⟨i, r, .request ⟨p.slot, p.step, q⟩⟩)
      (hh : ∀ d x, .timer d x ∈ fx → ∃ s, x = .retry s) :
      Timed p localStep draw (.retry p.step) { p with retriesThisStep := p.retriesThisStep + 1 } fx

/-- a timer arms a retry; or the hedge timer, after a hedged kickoff or when it fires itself -/
theorem Timed.armed {p p' : Proposer V} {localStep : ℕ} {draw : NodeId → Draw} {id : TimerId} {fx : List (Effect (ConcreteMsg V))}
    (h : p.Timed localStep draw id p' fx) {d : ℕ} {x : TimerId} (hx : .timer d x ∈ fx) :
    (∃ s, x = .retry s) ∨ x = .hedge ∧ (id = .hedge ∨ p'.step = FIRST_ROUND_STEP) := by
  cases h with
  | quiet hfx hh => exact .inr ⟨(hh d x hx).1, .inl (hh d x hx).2⟩
  | restarts => exact .inl (beginStep_armed _ draw hx)
  | rewinds =>
    simp only [List.mem_singleton, Effect.timer.injEq] at hx
    exact .inr ⟨hx.2, .inr rfl⟩
  | activates => exact .inl (beginStep_armed _ draw hx)
  | resends _ _ _ hh => exact .inl (hh d x hx)

theorem resend_armed {p : Proposer V} {rs : List NodeId} {fx : List (Effect (ConcreteMsg V))}
    (h : p.resend rs = .ok fx) (d : ℕ) (x : TimerId) : .timer d x ∉ fx := by
  induction rs generalizing fx with
  | nil =>
    simp only [resend, Except.ok.injEq] at h
    subst h
    simp
  | cons r rs ih =>
    unfold resend at h
    cases hl : p.sent.lookup r with
    | none => rw [hl] at h; exact absurd h (by simp)
    | some q =>
      rw [hl] at h
      dsimp only at h
      cases hr : p.resend rs with
      | error e => rw [hr] at h; exact absurd h (by simp)
      | ok fx' =>
        rw [hr] at h
        simp only [Except.ok.injEq] at h
        subst h
        simpa [sendRequest] using ih hr

theorem mem_sendsOf_resend {p : Proposer V} {rs : List NodeId} {fx : List (Effect (ConcreteMsg V))}
    (h : p.resend rs = .ok fx) {i : NodeId} {e : Envelope (ConcreteMsg V)} (he : e ∈ sendsOf i fx) :
    ∃ r q, p.sent.lookup r = some q ∧ e = ⟨i, r, .request ⟨p.slot, p.step, q⟩⟩ := by
  induction rs generalizing fx with
  | nil =>
    simp only [resend, Except.ok.injEq] at h
    subst h
    simp [sendsOf] at he
  | cons r rs ih =>
    unfold resend at h
    cases hl : p.sent.lookup r with
    | none => rw [hl] at h; exact absurd h (by simp)
    | some q =>
      rw [hl] at h
      dsimp only at h
      cases hr : p.resend rs with
      | error e => rw [hr] at h; exact absurd h (by simp)
      | ok fx' =>
        rw [hr] at h
        simp only [Except.ok.injEq] at h
        subst h
        simp only [sendsOf, sendRequest, List.filterMap_cons, List.mem_cons] at he
        rcases he with rfl | he
        · exact ⟨r, q, hl, rfl⟩
        · exact ih hr he

theorem start_moves (p : Proposer V) (localStep : ℕ) (draw : NodeId → Draw) :
    p.Timed localStep draw .kickoff (p.start draw).1 (p.start draw).2 := by
  unfold start
  by_cases hd : p.decided.isSome = true
  · rw [if_pos hd]
    exact .quiet (x := p.lastSeenProgress) rfl (by simp)
  · have hnone : p.decided = none := by simpa using hd
    rw [if_neg hd]
    dsimp only
    by_cases ha : p.activationDelay = 0
    · rw [if_pos ha]
      exact .restarts hnone ha
    · rw [if_neg ha]
      exact .rewinds hnone ha

theorem maybeActivateAfterHedge_moves (p : Proposer V) (localStep : ℕ) (draw : NodeId → Draw) :
    p.Timed localStep draw .hedge (p.maybeActivateAfterHedge localStep draw).1 (p.maybeActivateAfterHedge localStep draw).2 := by
  unfold maybeActivateAfterHedge
  by_cases hd : p.decided.isSome = true
  · rw [if_pos hd]
    exact .quiet (x := p.lastSeenProgress) rfl (by simp)
  · have hnone : p.decided = none := by simpa using hd
    rw [if_neg hd]
    by_cases hf : p.sawFreshProgress localStep = true
    · rw [if_pos hf]
      exact .quiet rfl (by simp)
    · rw [if_neg hf]
      exact .activates hnone (by simpa using hf)

/-- a timer that makes the proposer begin round 1, at step 4 -/
def Reopens (p : Proposer V) (id : TimerId) (localStep : ℕ) : Prop :=
  p.decided = none ∧ (id = .kickoff ∧ p.activationDelay = 0 ∨
    id = .hedge ∧ p.step = FIRST_ROUND_STEP ∧ p.sawFreshProgress localStep = false)

instance (p : Proposer V) (id : TimerId) (localStep : ℕ) : Decidable (p.Reopens id localStep) := by
  unfold Reopens; infer_instance

theorem onTimer_reopens {p : Proposer V} {id : TimerId} {localStep : ℕ} (h : p.Reopens id localStep)
    (draw : NodeId → Draw) : p.onTimer id localStep draw = .ok ((p.movedTo FIRST_ROUND_STEP p.proposal).beginStep draw) := by
  obtain ⟨hd, ⟨rfl, ha⟩ | ⟨rfl, h4, hf⟩⟩ := h
  · have hd' : ¬ p.decided.isSome = true := by simp [hd]
    unfold onTimer start
    rw [if_neg hd', if_pos ha]
    rfl
  · have hd' : ¬ p.decided.isSome = true := by simp [hd]
    have hp : p.movedTo FIRST_ROUND_STEP p.proposal = p := by
      unfold movedTo
      rw [← h4]
    unfold onTimer maybeActivateAfterHedge
    rw [if_neg hd', if_neg (by simp [hf]), hp]

/-- **All a timer can do** -/
theorem onTimer_moves {p p' : Proposer V} {id : TimerId} {localStep : ℕ} {draw : NodeId → Draw}
    {fx : List (Effect (ConcreteMsg V))} (h : p.onTimer id localStep draw = .ok (p', fx)) : p.Timed localStep draw id p' fx := by
  have hquiet : ∀ {id}, (p, ([] : List (Effect (ConcreteMsg V)))) = (p', fx) → p.Timed localStep draw id p' fx := by
    intro id h
    simp only [Prod.mk.injEq] at h
    obtain ⟨rfl, rfl⟩ := h
    exact .quiet (x := p.lastSeenProgress) rfl (by simp)
  unfold onTimer at h
  cases id with
  | kickoff =>
    have := p.start_moves localStep draw
    rwa [Except.ok.inj h] at this
  | hedge =>
    have := p.maybeActivateAfterHedge_moves localStep draw
    rwa [Except.ok.inj h] at this
  | catchUpWatchdog => exact hquiet (Except.ok.inj h)
  | retry s =>
    dsimp only at h
    split_ifs at h with hstale hq
    · exact hquiet (Except.ok.inj h)
    · exact hquiet (Except.ok.inj h)
    · push Not at hstale
      obtain ⟨hd, ha, rfl⟩ := hstale
      have hnone : p.decided = none := by simpa using hd
      have hact : p.activated = true := by simpa using ha
      cases hr : p.resend (p.allRecorders.filter fun r => r ∉ p.responses) with
      | error e => rw [hr] at h; exact absurd h (by simp)
      | ok fx' =>
        rw [hr] at h
        simp only [Except.ok.injEq, Prod.mk.injEq] at h
        obtain ⟨rfl, rfl⟩ := h
        refine .resends hnone hact (fun i e he => ?_) (fun d x hx => ?_)
        · rw [sendsOf, List.filterMap_append, List.mem_append] at he
          rcases he with he | he
          · exact mem_sendsOf_resend hr he
          · simp at he
        · rcases List.mem_append.1 hx with hx | hx
          · exact absurd hx (resend_armed hr d x)
          · simp only [List.mem_singleton, Effect.timer.injEq] at hx
            exact ⟨p.step, hx.2⟩

end Ordered

/-! ## Whom a call sends for -/

/-- every message among the effects of node `i` is a request for slot `k` -/
def Requests (i : NodeId) (k : ℕ) (fx : List (Effect (ConcreteMsg V))) : Prop :=
  ∀ e ∈ sendsOf i fx, ∃ r s x, e = ⟨i, r, .request ⟨k, s, x⟩⟩

theorem requests_beginStep (p : Proposer V) (draw : NodeId → Draw) (i : NodeId) :
    Requests i p.slot (p.beginStep draw).2 := by
  intro e he
  obtain ⟨r, -, rfl⟩ := (mem_sendsOf_beginStep p draw).1 he
  exact ⟨r, _, _, rfl⟩

theorem onTimer_requests {p p' : Proposer V} {id : TimerId} {localStep : ℕ} {draw : NodeId → Draw}
    {fx : List (Effect (ConcreteMsg V))} (h : p.onTimer id localStep draw = .ok (p', fx)) :
    Requests p.selfId p.slot fx := by
  cases onTimer_moves h with
  | quiet hfx =>
    intro e he
    rw [hfx] at he
    exact absurd he (by simp)
  | restarts => exact requests_beginStep (p.movedTo FIRST_ROUND_STEP p.proposal) draw _
  | rewinds => exact fun e he => absurd he (by simp [sendsOf])
  | activates => exact requests_beginStep p draw _
  | resends _ _ hfx =>
    intro e he
    obtain ⟨r, q, -, rfl⟩ := hfx _ e he
    exact ⟨r, _, _, rfl⟩

theorem onResponse_requests [LinearOrder V] {p p' : Proposer V} {src : NodeId} {resp : RecordResponse V}
    {draw : NodeId → Draw} {fx : List (Effect (ConcreteMsg V))} (h : p.onResponse src resp draw = .ok (p', fx))
    (i : NodeId) : Requests i p.slot fx := by
  rcases onResponse_moves h with ⟨-, rfl⟩ | ⟨-, -, -, hans⟩
  · exact fun e he => absurd he (by simp [sendsOf])
  · cases hans with
    | waits => exact fun e he => absurd he (by simp [sendsOf])
    | decides => exact fun e he => absurd he (by simp [sendsOf])
    | advances => exact requests_beginStep _ draw i
    | jumps => exact requests_beginStep _ draw i

/-! ## Slot and step -/

theorem onResponse_rises [LinearOrder V] {p p' : Proposer V} {src : NodeId} {resp : RecordResponse V}
    {draw : NodeId → Draw} {fx : List (Effect (ConcreteMsg V))} (h : p.onResponse src resp draw = .ok (p', fx)) :
    p'.slot = p.slot ∧ p.step ≤ p'.step := by
  rcases onResponse_moves h with ⟨rfl, -⟩ | ⟨-, -, -, hans⟩
  · exact ⟨rfl, le_rfl⟩
  · cases hans with
    | waits => exact ⟨rfl, le_rfl⟩
    | decides => exact ⟨rfl, le_rfl⟩
    | advances => exact ⟨rfl, Nat.le_succ _⟩
    | jumps _ hlt _ => exact ⟨rfl, hlt.le⟩

theorem onTimer_rises {p p' : Proposer V} {id : TimerId} {localStep : ℕ} {draw : NodeId → Draw}
    {fx : List (Effect (ConcreteMsg V))} (h : p.onTimer id localStep draw = .ok (p', fx)) (hid : id ≠ .kickoff) :
    p'.slot = p.slot ∧ p.step ≤ p'.step := by
  cases onTimer_moves h with
  | quiet => exact ⟨rfl, le_rfl⟩
  | restarts => exact absurd rfl hid
  | rewinds => exact absurd rfl hid
  | activates => exact ⟨rfl, le_rfl⟩
  | resends => exact ⟨rfl, le_rfl⟩

/-- an undecided proposer is started at the first step of round 1 -/
theorem start_step {p : Proposer V} (hd : p.decided = none) (draw : NodeId → Draw) :
    (p.start draw).1.slot = p.slot ∧ (p.start draw).1.step = FIRST_ROUND_STEP := by
  have hnot : ¬ p.decided.isSome = true := by simp [hd]
  unfold start
  rw [if_neg hnot]
  dsimp only
  split_ifs
  · exact ⟨rfl, rfl⟩
  · exact ⟨rfl, rfl⟩

end Proposer

end Queso
