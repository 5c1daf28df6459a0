/-
No panic of a proposer can be reached.

Each `expect` of the proposer rests on a fact about what its recorders hold, or about what it prepared:
- a reply is never behind its request (`Told.le`), so replies at different steps have one that is ahead;
- a recorder at a step recorded a first value there (`Told.heard`);
- phase 3: some recorder of the quorum served the step before, since every quorum of this step meets one of that step;
- an activated proposer prepared something for every recorder (`Stocked`).

`Seat.onResponse_ok` and `Stocked.onTimer_ok` are the two entry points, and `Concrete.unbroken_run` is the single-slot
cluster.
-/
import Queso.Consensus.Turns

namespace Queso

open Register Quorum

variable {V : Type}

/-- the panics that the proposer and `finish_attempt` guard themselves with -/
def Panic.Internal : Panic → Prop
  | .noReplyAhead | .aheadWithoutFirst | .quorumWithoutFirst | .quorumWithoutPriorAgg | .nothingSent => True
  | .noAttempt | .offFrontier => True
  | .reservedClient | .unknownReplica | .epochNotOpened | .epochOutOfOrder => False

namespace Proposer

/-! ## What a retry resends -/

/-- once activated, the proposer has prepared something for every recorder -/
def Stocked (p : Proposer V) : Prop := p.activated = true → ∀ r < p.totalReplicas, p.sent.lookup r ≠ none

theorem stocked_beginStep (p : Proposer V) (draw : NodeId → Draw) : (p.beginStep draw).1.Stocked := by
  intro _ r hr
  rw [beginStep_sent, if_pos (by simpa using hr)]
  simp

theorem stocked_idle {p : Proposer V} (h : p.activated = false) : p.Stocked := by
  intro ha
  rw [h] at ha
  exact absurd ha (by simp)

theorem resend_ok {p : Proposer V} {rs : List NodeId} (h : ∀ r ∈ rs, p.sent.lookup r ≠ none) :
    ∃ fx, p.resend rs = .ok fx := by
  induction rs with
  | nil => exact ⟨[], rfl⟩
  | cons r rs ih =>
    obtain ⟨q, hq⟩ := Option.ne_none_iff_exists'.1 (h r (List.mem_cons_self ..))
    obtain ⟨fx, hfx⟩ := ih fun x hx => h x (List.mem_cons_of_mem r hx)
    exact ⟨p.sendRequest r q :: fx, by unfold resend; rw [hq, hfx]⟩

/-- **No timer panics** at a stocked proposer -/
theorem Stocked.onTimer_ok {p : Proposer V} (h : p.Stocked) (id : TimerId) (localStep : ℕ) (draw : NodeId → Draw) :
    ∃ r, p.onTimer id localStep draw = .ok r := by
  unfold onTimer
  cases id with
  | kickoff => exact ⟨_, rfl⟩
  | hedge => exact ⟨_, rfl⟩
  | catchUpWatchdog => exact ⟨_, rfl⟩
  | retry s =>
    dsimp only
    split_ifs with hstale hq
    · exact ⟨_, rfl⟩
    · exact ⟨_, rfl⟩
    · push Not at hstale
      have hact : p.activated = true := by simpa using hstale.2.1
      have hsent : ∀ r ∈ p.allRecorders.filter fun r => r ∉ p.responses, p.sent.lookup r ≠ none := by
        intro r hr
        refine h hact r ?_
        simpa [allRecorders] using (List.mem_filter.1 hr).1
      obtain ⟨fx, hfx⟩ := resend_ok hsent
      rw [hfx]
      exact ⟨_, rfl⟩

theorem onTimer_stocked {p p' : Proposer V} {id : TimerId} {localStep : ℕ} {draw : NodeId → Draw}
    {fx : List (Effect (ConcreteMsg V))} (h : p.Stocked) (hcall : p.onTimer id localStep draw = .ok (p', fx)) :
    p'.Stocked := by
  cases onTimer_moves hcall with
  | quiet => exact h
  | restarts => exact stocked_beginStep _ draw
  | rewinds => exact h
  | activates => exact stocked_beginStep _ draw
  | resends => exact h

theorem start_stocked {p : Proposer V} (h : p.Stocked) (draw : NodeId → Draw) : (p.start draw).1.Stocked := by
  have hcall : p.onTimer .kickoff 0 draw = .ok ((p.start draw).1, (p.start draw).2) := rfl
  exact onTimer_stocked h hcall

/-! ## What a quorum reports -/

variable [LinearOrder V]

theorem onResponse_stocked {p p' : Proposer V} {src : NodeId} {resp : RecordResponse V} {draw : NodeId → Draw}
    {fx : List (Effect (ConcreteMsg V))} (h : p.Stocked) (hcall : p.onResponse src resp draw = .ok (p', fx)) :
    p'.Stocked := by
  rcases onResponse_moves hcall with ⟨rfl, -⟩ | ⟨-, -, -, hans⟩
  · exact h
  · cases hans with
    | waits => exact h
    | advances => exact stocked_beginStep _ draw
    | jumps => exact stocked_beginStep _ draw
    | decides => exact h

/-- some reply reports a value, so there is a best one -/
theorem best_of_some {p : Proposer V} {f : RecordResponse V → Option (Proposal V)} {j : NodeId}
    {r : RecordResponse V} (hr : p.Counted j r) {q : Proposal V} (hq : f r = some q) :
    ∃ best, bestOf (p.replies.map f) = some best := by
  refine Option.ne_none_iff_exists'.1 fun hnone => ?_
  exact bestOf_eq_none hnone q (List.mem_map.2 ⟨r, mem_replies.2 ⟨j, hr⟩, hq⟩)

omit [LinearOrder V] in
/-- a reply ahead of the proposer is there to catch up to -/
theorem furthest_of_ahead {p : Proposer V} {j : NodeId} {r : RecordResponse V} (hr : p.Counted j r)
    (hlt : p.step < r.step) : ∃ best, p.furthestReply = some best := by
  have hmem : (⟨j, r⟩ : Sigma fun _ : NodeId => RecordResponse V) ∈
      p.responses.entries.filter fun e => p.step < e.2.step :=
    List.mem_filter.2 ⟨counted_iff.1 hr, by simpa using hlt⟩
  unfold furthestReply
  cases hmax : (p.responses.entries.filter fun e => p.step < e.2.step).argmax fun e => toLex (e.2.step, e.1) with
  | some e => exact ⟨e.2, rfl⟩
  | none =>
    rw [List.argmax_eq_none] at hmax
    rw [hmax] at hmem
    exact absurd hmem (by simp)

end Proposer

namespace Arena

variable [LinearOrder V] {n : ℕ} {a : Arena V} {i : NodeId} {p : Proposer V}

/-- a recorder that answers has recorded a first value at the step it reports -/
theorem Told.heard {j : NodeId} {r : RecordResponse V} (h : Told n a j i r) : ∃ q, r.first = some q := by
  have h4 := h.four
  have hle := h.le
  rw [h.first]
  exact h.visited.firstOf (by omega)

/-- **Phase 3.** A quorum that stands at this step meets a quorum that stood at the step before: some of its recorders
report what was aggregated there. -/
theorem Seat.carries_prior (h : Inv n a) (hp : Seat n a i p) (h5 : 5 ≤ p.step) (hq : p.Quorate) (hl : p.Level) :
    ∃ j r q, p.Counted j r ∧ r.priorAgg = some q := by
  obtain ⟨q', htemplate, -, -⟩ := hp.works h5
  obtain ⟨Q, hQ⟩ := htemplate.gathered
  have hnow := hp.gathered h hq hl
  obtain ⟨j, hjQ, hjnow⟩ := quorum_inter hQ.1 hnow.1
  obtain ⟨r, hr⟩ := Proposer.mem_keys_counted (List.mem_toFinset.1 hjnow)
  obtain ⟨htold, hslot, hstep, -⟩ := hp.reports h hl hr
  obtain ⟨x, hx⟩ := hQ.2 j hjQ
  obtain ⟨m, hm, -⟩ := le_aggOf hx
  refine ⟨j, r, m, hr, ?_⟩
  rw [htold.prior, hslot, hstep, ← hm]
  show priorOf (a.calls p.slot j) p.step = aggOf (a.calls p.slot j) (p.step - 1)
  obtain ⟨t, ht⟩ : ∃ t, p.step = t + 1 := ⟨p.step - 1, by omega⟩
  rw [ht]
  rfl

/-- a level quorum always completes its phase -/
theorem Seat.processPhase_ok (h : Inv n a) (hp : Seat n a i p) (h4 : 4 ≤ p.step) (hq : p.Quorate) (hl : p.Level) :
    ∃ p', p.processPhase = .ok p' := by
  have hmod : p.step % 4 < 4 := Nat.mod_lt _ (by decide)
  unfold Proposer.processPhase
  rcases hs : p.step % 4 with _ | _ | _ | _ | k
  · obtain ⟨j, hj⟩ := (hp.gathered h hq hl).1.nonempty
    obtain ⟨r, hr⟩ := Proposer.mem_keys_counted (List.mem_toFinset.1 hj)
    obtain ⟨q, hfirst⟩ := (hp.reports h hl hr).1.heard
    obtain ⟨best, hbest⟩ := Proposer.best_of_some (f := (·.first)) hr hfirst
    cases Proposer.fastPathValue p.replies with
    | some v => exact ⟨_, rfl⟩
    | none =>
      rw [hbest]
      exact ⟨_, rfl⟩
  · exact ⟨_, rfl⟩
  · split_ifs
    · exact ⟨_, rfl⟩
    · exact ⟨_, rfl⟩
  · obtain ⟨j, r, q, hr, hprior⟩ := hp.carries_prior h (by omega) hq hl
    obtain ⟨best, hbest⟩ := Proposer.best_of_some (f := (·.priorAgg)) hr hprior
    rw [hbest]
    exact ⟨_, rfl⟩
  · omega

/-- replies that are not all at the proposer's step have one that is ahead, with a first value -/
theorem Seat.ahead (h : Inv n a) (hp : Seat n a i p) (hl : ¬ p.Level) :
    ∃ best q, p.furthestReply = some best ∧ best.first = some q := by
  unfold Proposer.Level at hl
  push Not at hl
  obtain ⟨r, hmem, hne⟩ := hl
  obtain ⟨j, hr⟩ := Proposer.mem_replies.1 hmem
  obtain ⟨hsent, -, hreq⟩ := hp.counted j r hr
  have hle := (h.told i j r hsent).le
  obtain ⟨best, hbest⟩ := Proposer.furthest_of_ahead hr (by omega)
  obtain ⟨j', hr', -⟩ := Proposer.furthestReply_counted hbest
  obtain ⟨q, hq⟩ := (h.told i j' best (hp.counted j' best hr').1).heard
  exact ⟨best, q, hbest, hq⟩

theorem Seat.processQuorum_ok (h : Inv n a) (hp : Seat n a i p) (h4 : 4 ≤ p.step) (hq : p.Quorate)
    (draw : NodeId → Draw) : ∃ r, p.processQuorum draw = .ok r := by
  unfold Proposer.processQuorum
  by_cases hl : p.Level
  · rw [if_pos (Proposer.level_iff.2 hl)]
    obtain ⟨p', hp'⟩ := hp.processPhase_ok h h4 hq hl
    rw [hp']
    dsimp only
    split_ifs
    · exact ⟨_, rfl⟩
    · exact ⟨_, rfl⟩
  · rw [if_neg fun hall => hl (Proposer.level_iff.1 hall)]
    obtain ⟨best, q, hbest, hfirst⟩ := hp.ahead h hl
    rw [hbest]
    dsimp only
    rw [hfirst]
    exact ⟨_, rfl⟩

/-- **No reply panics** at a proposer that stands on what was sent and served -/
theorem Seat.onResponse_ok (h : Inv n a) (hp : Seat n a i p) {src : NodeId} {resp : RecordResponse V}
    (hresp : ⟨src, i, .response resp⟩ ∈ a.sends) (draw : NodeId → Draw) :
    ∃ r, p.onResponse src resp draw = .ok r := by
  rw [Proposer.onResponse_eq]
  split_ifs with hd hm hq
  · exact ⟨_, rfl⟩
  · exact ⟨_, rfl⟩
  · push Not at hm
    have hnone : p.decided = none := by simpa using hd
    have hnoted : Seat n a i (p.noted src resp) := hp.noted hnone hresp hm.1 hm.2
    have h4 : 4 ≤ (p.noted src resp).step := h.four_of_reply hresp hm.2
    exact hnoted.processQuorum_ok h h4 hq draw
  · exact ⟨_, rfl⟩

end Arena

namespace Concrete

variable [LinearOrder V] {n : ℕ} {w : Concrete V}

/-- every replica's proposer can repeat what it sent, and nothing has panicked -/
structure Unbroken (w : Concrete V) : Prop where
  stocked : ∀ i nd, w.nodes i = some nd → nd.proposer.Stocked
  panicked : w.panicked = none

/-- **Step lemma.** -/
theorem unbroken_step (h : Sane n w) (hu : Unbroken w) (op : ClusterOp) : Unbroken (step w op) := by
  have hok : (step w op).panicked = none := by
    refine Option.eq_none_iff_forall_ne_some.2 fun e he => ?_
    obtain ⟨i, nd, rng, hnd, ⟨src, resp, hmem, hc⟩ | ⟨id, hc⟩⟩ := step_panicked hu.panicked he
    · have hseat := h.arena.seat i nd.proposer (by simp [view, arenaOf, hnd])
      obtain ⟨r, hr⟩ := hseat.onResponse_ok h.arena (h.net _ hmem) rng
      exact absurd (hc.symm.trans hr) (by simp)
    · obtain ⟨r, hr⟩ := (hu.stocked i nd hnd).onTimer_ok id nd.localStep rng
      exact absurd (hc.symm.trans hr) (by simp)
  refine ⟨fun j nd₁ hnd₁ => ?_, hok⟩
  rcases step_turns hok with ⟨eop, -, hquiet⟩ | ⟨i, -, hsame | hkick⟩ |
    ⟨eop, i, x, rng, left, nd, nd', fx, -, -, hcb, htook⟩
  · rw [hquiet.nodes] at hnd₁
    exact hu.stocked j nd₁ hnd₁
  · rw [hsame] at hnd₁
    exact hu.stocked j nd₁ hnd₁
  · rw [hkick] at hnd₁
    exact hu.stocked j nd₁ hnd₁
  · rcases callback_node hcb hnd₁ with ⟨rfl, rfl⟩ | ⟨-, hold⟩
    · have hst := hu.stocked j nd hcb.node
      cases htook with
      | records => exact hst
      | reply hc => exact Proposer.onResponse_stocked hst hc
      | timer hc => exact Proposer.onTimer_stocked hst hc
      | restart => exact hst
    · exact hu.stocked j nd₁ hold

omit [LinearOrder V] in
theorem unbroken_build (cfg : NodeId → Option (ReplicaCfg V)) : Unbroken (build n cfg) where
  stocked := fun i nd hnd => by
    obtain ⟨c, -, rfl⟩ : ∃ c, cfg i = some c ∧ ReplicaNode.new n i c = nd := by simpa [build] using hnd
    refine Proposer.stocked_idle ?_
    cases hh : c.hedge with
    | none => simp [ReplicaNode.new, hh, Proposer.new]
    | some d => simp [ReplicaNode.new, hh, Proposer.new, Proposer.withHedging]
  panicked := rfl

/-- **No run of the single-slot cluster panics.** -/
theorem unbroken_run (cfg : NodeId → Option (ReplicaCfg V)) (ops : List ClusterOp) :
    Unbroken ((build n cfg).run ops) := by
  let I : Concrete V → Prop := fun w => Sane n w ∧ Unbroken w
  have hI : I ((build n cfg).run ops) :=
    Runs.run_invariant (I := I) (fun _ op hi _ => ⟨sane_step hi.1 op, unbroken_step hi.1 hi.2 op⟩)
      ⟨sane_build cfg, unbroken_build cfg⟩ (Runs.along_true _ _ ops)
  exact hI.2

end Concrete

end Queso
