/-
What a recorder and a proposer pass on.

Fix for each slot the proposals that may be around, among them every proposal below `H` (`Lenient`). A recorder and a
proposer whose state is made of such proposals, told of such proposals only, send no other. The one exception is the
`H` proposal that a led proposer opens round 1 with (`Proposer.Own`).

- `Isr.Stays.record`: one call on a recorder.
- `onResponse_relays`, `onTimer_relays`, `start_relays`: one call on a proposer.
-/
import Queso.Consensus.Moves

namespace Queso

variable {V : Type}

/-- every proposal that a register holds is in `P` -/
structure Isr.Stays (P : Proposal V → Prop) (s : Isr V) : Prop where
  first : ∀ x, s.first = some x → P x
  currentAgg : ∀ x, s.currentAgg = some x → P x
  priorAgg : ∀ x, s.priorAgg = some x → P x

/-- every proposal that a reply reports is in `P` -/
structure RecordResponse.Stays (P : Proposal V → Prop) (r : RecordResponse V) : Prop where
  first : ∀ x, r.first = some x → P x
  priorAgg : ∀ x, r.priorAgg = some x → P x

/-- every proposal of a message may be around for its slot -/
def ConcreteMsg.Stays (Ok : ℕ → Proposal V → Prop) : ConcreteMsg V → Prop
  | .request req => Ok req.slot req.proposal
  | .response resp => resp.Stays (Ok resp.slot)

/-- nothing is asked of proposals below `H` -/
def Lenient (P : Proposal V → Prop) : Prop := ∀ x, x.priority < H → P x

theorem Isr.Stays.mono {P Q : Proposal V → Prop} {s : Isr V} (h : s.Stays P) (hpq : ∀ x, P x → Q x) : s.Stays Q :=
  ⟨fun x hx => hpq x (h.first x hx), fun x hx => hpq x (h.currentAgg x hx), fun x hx => hpq x (h.priorAgg x hx)⟩

theorem RecordResponse.Stays.mono {P Q : Proposal V → Prop} {r : RecordResponse V} (h : r.Stays P)
    (hpq : ∀ x, P x → Q x) : r.Stays Q :=
  ⟨fun x hx => hpq x (h.first x hx), fun x hx => hpq x (h.priorAgg x hx)⟩

theorem ConcreteMsg.Stays.mono {Ok Ok' : ℕ → Proposal V → Prop} {m : ConcreteMsg V} (h : m.Stays Ok)
    (hle : ∀ k x, Ok k x → Ok' k x) : m.Stays Ok' := by
  cases m with
  | request req => exact hle _ _ h
  | response resp => exact RecordResponse.Stays.mono h (hle _)

theorem Isr.stays_new (P : Proposal V → Prop) : (Isr.new (V := V)).Stays P :=
  ⟨fun _ hx => absurd hx (by simp [Isr.new]), fun _ hx => absurd hx (by simp [Isr.new]),
    fun _ hx => absurd hx (by simp [Isr.new])⟩

section Ordered

variable [LinearOrder V] {P : Proposal V → Prop}

theorem maxOption_eq {x y : Proposal V} {a : Option (Proposal V)} (h : maxOption a (some y) = some x) :
    a = some x ∨ x = y := by
  cases a with
  | none => exact .inr (Option.some.inj h).symm
  | some z =>
    simp only [maxOption, Option.some.injEq] at h
    split_ifs at h
    · exact .inl (congrArg some h)
    · exact .inr h.symm

/-- **One call on a register** leaves it with the proposals it had and the one it was told of -/
theorem Isr.Stays.recorded {s : Isr V} (h : s.Stays P) {y : Proposal V} (hy : P y) (t : ℕ) :
    (s.recorded t y).Stays P := by
  unfold Isr.recorded
  split_ifs with hlt heq hnext
  · exact h
  · refine ⟨h.first, fun x hx => ?_, h.priorAgg⟩
    rcases maxOption_eq hx with hx | rfl
    · exact h.currentAgg x hx
    · exact hy
  · exact ⟨fun x hx => Option.some.inj hx ▸ hy, fun x hx => Option.some.inj hx ▸ hy, h.currentAgg⟩
  · exact ⟨fun x hx => Option.some.inj hx ▸ hy, fun x hx => Option.some.inj hx ▸ hy,
      fun x hx => absurd hx (by simp)⟩

theorem Recorder.handle_stays {r : Recorder V} {req : RecordRequest V} (h : r.isr.Stays P) (hy : P req.proposal) :
    (r.handle req).1.isr.Stays P ∧ (r.handle req).2.Stays P := by
  have hnext := h.recorded hy req.reqStep
  exact ⟨hnext, ⟨hnext.first, hnext.priorAgg⟩⟩

end Ordered

namespace Proposer

/-- the `H` proposal that a led proposer opens round 1 with -/
def Own (p : Proposer V) (x : Proposal V) : Prop :=
  p.leader = some p.selfId ∧ p.step = FIRST_ROUND_STEP ∧ x = ⟨p.proposal.value, H, p.selfId⟩

/-- a started proposer whose proposals are in `P`, except its own -/
structure Relays (P : Proposal V → Prop) (p : Proposer V) : Prop where
  started : FIRST_ROUND_STEP ≤ p.step
  replies : ∀ j r, p.Counted j r → r.Stays P
  works : FIRST_ROUND_STEP < p.step → P p.proposal
  sent : ∀ j x, p.sent.lookup j = some x → P x ∨ p.Own x

/-- what a proposer never changes -/
structure Same (p p' : Proposer V) : Prop where
  selfId : p'.selfId = p.selfId
  slot : p'.slot = p.slot
  leader : p'.leader = p.leader

/-- every request that is sent repeats a proposal of `P`, or opens the round of `p` -/
def Emits (P : Proposal V → Prop) (p : Proposer V) (fx : List (Effect (ConcreteMsg V))) : Prop :=
  ∀ i, ∀ e ∈ sendsOf i fx, ∃ s x, e.payload = .request ⟨p.slot, s, x⟩ ∧ (P x ∨ p.Own x)

variable {P : Proposal V → Prop} {p p' : Proposer V} {draw : NodeId → Draw} {fx : List (Effect (ConcreteMsg V))}

theorem Relays.mono {Q : Proposal V → Prop} (h : p.Relays P) (hpq : ∀ x, P x → Q x) : p.Relays Q where
  started := h.started
  replies := fun j r hr => (h.replies j r hr).mono hpq
  works := fun h5 => hpq _ (h.works h5)
  sent := fun j x hx => (h.sent j x hx).imp_left (hpq x)

/-- what a step is begun with -/
theorem prepare_relays (hP : Lenient P) (h4 : FIRST_ROUND_STEP ≤ p.step) (hw : FIRST_ROUND_STEP < p.step → P p.proposal)
    (draw : NodeId → Draw) (r : NodeId) : P (p.prepare draw r) ∨ p.Own (p.prepare draw r) := by
  rcases h4.eq_or_lt with h4 | h5
  · rcases prepare_first h4.symm draw r with hlt | ⟨hl, hx⟩
    · exact .inl (hP _ hlt)
    · exact .inr ⟨hl, h4.symm, hx⟩
  · left
    by_cases h0 : p.step % 4 = 0
    · exact hP _ (prepare_drawn h0 h5.ne' draw r)
    · rw [prepare_later h0]
      exact hw h5

theorem beginStep_relays (hP : Lenient P) (h4 : FIRST_ROUND_STEP ≤ p.step)
    (hw : FIRST_ROUND_STEP < p.step → P p.proposal) (draw : NodeId → Draw) :
    (p.beginStep draw).1.Relays P ∧ p.Emits P (p.beginStep draw).2 := by
  refine ⟨⟨h4, fun j r hr => absurd hr (by simp [Counted]), hw, fun j x hx => ?_⟩, fun i e he => ?_⟩
  · rw [beginStep_sent] at hx
    split_ifs at hx
    obtain rfl := Option.some.inj hx
    exact prepare_relays hP h4 hw draw j
  · obtain ⟨r, -, rfl⟩ := (mem_sendsOf_beginStep p draw).1 he
    exact ⟨_, _, rfl, prepare_relays hP h4 hw draw r⟩

theorem start_relays (hP : Lenient P) (hd : p.decided = none) (hr : p.responses = ∅) (hs : p.sent = ∅)
    (draw : NodeId → Draw) :
    (p.start draw).1.Relays P ∧ (p.movedTo FIRST_ROUND_STEP p.proposal).Emits P (p.start draw).2 ∧
      p.Same (p.start draw).1 ∧ (p.start draw).1.step = FIRST_ROUND_STEP ∧ (p.start draw).1.proposal = p.proposal := by
  unfold start
  rw [if_neg (by simp [hd])]
  dsimp only
  split_ifs with ha
  · obtain ⟨hrel, hem⟩ := beginStep_relays (p := p.movedTo FIRST_ROUND_STEP p.proposal) hP (le_refl _)
      (fun h => absurd h (lt_irrefl _)) draw
    exact ⟨hrel, hem, ⟨rfl, rfl, rfl⟩, rfl, rfl⟩
  · refine ⟨⟨le_refl _, fun j r hj => ?_, fun h => absurd h (lt_irrefl _), fun j x hx => ?_⟩,
      fun _ _ he => absurd he (by simp [sendsOf]), ⟨rfl, rfl, rfl⟩, rfl, rfl⟩
    · unfold Counted at hj
      exact absurd hj (by simp [hr])
    · exact absurd hx (by simp [hs])

theorem onTimer_relays {id : TimerId} {localStep : ℕ} (hP : Lenient P) (h : p.Relays P) (hk : id ≠ .kickoff)
    (hcall : p.onTimer id localStep draw = .ok (p', fx)) :
    p'.Relays P ∧ p.Emits P fx ∧ p.Same p' ∧ ∀ x, p'.Own x → p.Own x := by
  cases onTimer_moves hcall with
  | @quiet _ x _ hfx _ =>
    refine ⟨⟨h.started, h.replies, h.works, h.sent⟩, fun i e he => ?_, ⟨rfl, rfl, rfl⟩, fun _ hx => hx⟩
    have hmem : e.payload ∈ (sendsOf i fx).map Envelope.payload := List.mem_map_of_mem he
    have hnone : (sendsOf i fx).map Envelope.payload = (sendsOf p.selfId fx).map Envelope.payload := by
      unfold sendsOf
      rw [List.map_filterMap, List.map_filterMap]
      exact List.filterMap_congr fun f _ => by cases f <;> rfl
    rw [hnone, hfx] at hmem
    exact absurd hmem List.not_mem_nil
  | restarts => exact absurd rfl hk
  | rewinds => exact absurd rfl hk
  | activates =>
    obtain ⟨hrel, hem⟩ := beginStep_relays hP h.started h.works draw
    exact ⟨hrel, hem, ⟨rfl, rfl, rfl⟩, fun _ hx => hx⟩
  | resends _ _ hfx _ =>
    refine ⟨⟨h.started, h.replies, h.works, h.sent⟩, fun i e he => ?_, ⟨rfl, rfl, rfl⟩, fun _ hx => hx⟩
    obtain ⟨r, q, hq, rfl⟩ := hfx i e he
    exact ⟨_, q, rfl, h.sent r q hq⟩

/-- past round 1 a proposer has nothing of its own -/
theorem Emits.stays {k : ℕ} (h : p.Emits P fx) (h5 : FIRST_ROUND_STEP < p.step) (hslot : p.slot = k) (i : NodeId) :
    ∀ e ∈ sendsOf i fx, ∃ s x, e.payload = .request ⟨k, s, x⟩ ∧ P x := by
  intro e he
  obtain ⟨s, x, hx, hP | hown⟩ := h i e he
  · exact ⟨s, x, hslot ▸ hx, hP⟩
  · exact absurd hown.2.1 h5.ne'

theorem onResponse_relays [LinearOrder V] {src : NodeId} {resp : RecordResponse V} (hP : Lenient P) (h : p.Relays P)
    (hresp : resp.Stays P) (hcall : p.onResponse src resp draw = .ok (p', fx)) :
    p'.Relays P ∧ (∀ i, ∀ e ∈ sendsOf i fx, ∃ s x, e.payload = .request ⟨p.slot, s, x⟩ ∧ P x) ∧ p.Same p' ∧
      ∀ x, p'.Own x → p.Own x := by
  rcases onResponse_moves hcall with ⟨rfl, rfl⟩ | ⟨-, -, -, hans⟩
  · exact ⟨h, fun _ _ he => absurd he (by simp [sendsOf]), ⟨rfl, rfl, rfl⟩, fun _ hx => hx⟩
  have hnoted : (p.noted src resp).Relays P := by
    refine ⟨h.started, fun j r hr => ?_, h.works, h.sent⟩
    rcases counted_noted hr with hr | ⟨-, rfl⟩
    · exact h.replies j r hr
    · exact hresp
  -- a proposal that the replies agree on
  have hbest : ∀ {f : RecordResponse V → Option (Proposal V)} {q}, (∀ r x, r.Stays P → f r = some x → P x) →
      bestOf ((p.noted src resp).replies.map f) = some q → P q := by
    intro f q hf hq
    obtain ⟨r, hr, hx⟩ := List.mem_map.1 (bestOf_eq_some.1 hq).1
    obtain ⟨j, hj⟩ := mem_replies.1 hr
    exact hf r q (hnoted.replies j r hj) hx
  -- a later step is begun with a proposal that was reported
  have hlater : ∀ {s : ℕ} {q}, FIRST_ROUND_STEP < s → P q →
      ((((p.noted src resp).movedTo s q).beginStep draw).1.Relays P ∧
        (∀ i, ∀ e ∈ sendsOf i (((p.noted src resp).movedTo s q).beginStep draw).2,
          ∃ t x, e.payload = .request ⟨p.slot, t, x⟩ ∧ P x) ∧
        p.Same (((p.noted src resp).movedTo s q).beginStep draw).1 ∧
        ∀ x, (((p.noted src resp).movedTo s q).beginStep draw).1.Own x → p.Own x) := by
    intro s q h5 hq
    obtain ⟨hrel, hem⟩ := beginStep_relays (p := (p.noted src resp).movedTo s q) hP h5.le (fun _ => hq) draw
    exact ⟨hrel, hem.stays h5 rfl, ⟨rfl, rfl, rfl⟩, fun x hx => absurd hx.2.1 h5.ne'⟩
  cases hans with
  | waits => exact ⟨hnoted, fun _ _ he => absurd he (by simp [sendsOf]), ⟨rfl, rfl, rfl⟩, fun _ hx => hx⟩
  | decides =>
    exact ⟨⟨hnoted.started, hnoted.replies, hnoted.works, hnoted.sent⟩, fun _ _ he => absurd he (by simp [sendsOf]),
      ⟨rfl, rfl, rfl⟩, fun _ hx => hx⟩
  | @advances q hq hl hy =>
    refine hlater (Nat.lt_succ_of_le h.started) ?_
    cases hy with
    | first _ hq => exact hbest (fun r x hr => hr.first x) hq
    | kept hmod =>
      refine hnoted.works (lt_of_le_of_ne h.started fun h4 => ?_)
      have hstep : (p.noted src resp).step = FIRST_ROUND_STEP := h4.symm
      rw [hstep] at hmod
      exact absurd hmod (by decide)
    | prior _ hq => exact hbest (fun r x hr => hr.priorAgg x) hq
  | @jumps j r q hr hlt hf => exact hlater (lt_of_le_of_lt h.started hlt) ((hnoted.replies j r hr).first q hf)

end Proposer

end Queso
