/-
What a restarted replica has learned when its catch-up ends.

A catch-up ends when a slot decides the replica's own probe, which the code takes to mean that nobody had decided the
slot before. The probe of a slot is the same command for every replica and every incarnation, so the slot may have been
won long ago by another replica's probe, with slots decided past it.

- `learner_step`: a catch-up goes on until its slot decides the slot's probe;
- `catch_up_complete_iff`: along covered steps, a catch-up that ends has reached all that was applied before the restart
  exactly when no replica had then applied the probe of a slot that the restarted one still missed, and gone on;
- `catch_up_falls_short`: a run in which it has not.
-/
import Queso.Smr.Agreement

namespace Queso

namespace Smr

variable {n : ℕ} {w : Smr} {op : SmrOp} {i : NodeId}

/-- replica `i` is catching up -/
def catchingUp (w : Smr) (i : NodeId) : Bool :=
  match w.nodes i with
  | none => false
  | some nd => nd.isCatchingUp

/-! ## A step of a learner -/

theorem learner_live (h : Sane n w) {nd : SmrNode} {a : CurrentAttempt} (hnd : w.nodes i = some nd)
    (ha : nd.currentAttempt = some a) (hc : nd.isCatchingUp = true) :
    a.origin = .catchUp ∧ a.command = catchUpProbe nd.durable.nextSlot := by
  have ho := (isCatchingUp_iff ha).1 hc
  exact ⟨ho, (h.live i nd a hnd ha).probe ho⟩

theorem Turn.learner (h : Sane n w) {nd nd' : SmrNode} {sh' : Shared} {fx : List (Effect SmrMsg)}
    {ev : List (TraceEvent SmrMsg)} (hnd : w.nodes i = some nd) (ht : Turn w i nd op nd' sh' fx ev)
    (hc : nd.isCatchingUp = true) :
    nd'.isCatchingUp = true ∧ nd'.durable.appliedLog = nd.durable.appliedLog ∧
        nd'.durable.nextSlot = nd.durable.nextSlot ∨
      ∃ c, Grows nd nd' c ∧ (nd'.isCatchingUp = true ↔ c ≠ catchUpProbe nd.durable.nextSlot) := by
  cases ht with
  | request _ hcall =>
    simp only [SmrNode.onRequest, Except.ok.injEq, Prod.mk.injEq] at hcall
    rw [← hcall.1]
    exact .inl ⟨hc, rfl, rfl⟩
  | reply _ _ hcall =>
    rcases SmrNode.onReply_moves hcall with ⟨rfl, -, -⟩ | ⟨attempt, p, fx₁, nd₁, ha, -, -, hdrv,
      ⟨-, rfl, -, -⟩ | ⟨decided, ended, nd₂, sh₂, fx₂, -, hend, hended, hres, -, hlearn⟩⟩
    · exact .inl ⟨hc, rfl, rfl⟩
    · exact .inl ⟨by rw [Driven.isCatchingUp ha hdrv]; exact hc, by rw [hdrv.keeps.durable], by rw [hdrv.keeps.durable]⟩
    · -- the attempt that ends is the probe of the frontier
      obtain ⟨ho, hcmd⟩ := learner_live h hnd ha hc
      obtain ⟨b, hb⟩ := hdrv.drives
      obtain rfl := Option.some.inj (hb.symm.trans hend)
      have hbefore : nd₁.durable = nd.durable := hdrv.keeps.durable
      have hdur : nd'.durable = (nd₁.applied _ decided).durable := (Resumes.durable hres).trans hended.durable
      refine .inr ⟨decided, ⟨?_, ?_, ?_⟩, ?_⟩
      · rw [hdur, ← hbefore]; rfl
      · rw [hdur, ← hbefore]; rfl
      · rw [hdur, ← hbefore]; rfl
      · rw [hlearn, ← hcmd]
        exact ⟨fun hl => hl.2, fun hne => ⟨ho, hne⟩⟩
  | timer hcall =>
    rcases SmrNode.onTimer_moves hcall with ⟨rfl, -, -⟩ | ⟨hidle, -, -⟩ | ⟨-, hst⟩ | ⟨attempt, _, ha, -, -, hdrv, -⟩
    · exact .inl ⟨hc, rfl, rfl⟩
    · unfold SmrNode.isCatchingUp at hc
      rw [hidle] at hc
      exact absurd hc (by decide)
    · exact .inl ⟨hst.isCatchingUp, by rw [hst.keeps.durable], by rw [hst.keeps.durable]⟩
    · exact .inl ⟨by rw [Driven.isCatchingUp ha hdrv]; exact hc, by rw [hdrv.keeps.durable], by rw [hdrv.keeps.durable]⟩
  | restart hcall =>
    have hst := SmrNode.onRestart_moves hcall
    exact .inl ⟨hst.isCatchingUp, by rw [hst.keeps.durable], by rw [hst.keeps.durable]⟩

/-- **A learner learns on** until its slot decides the slot's probe -/
theorem learner_step (h : Sane n w) (op : SmrOp) (hc : w.catchingUp i = true) :
    (step w op).catchingUp i = true ∧ (step w op).appliedLog i = w.appliedLog i ∧
        (step w op).nextSlot i = w.nextSlot i ∨
      ∃ c, (step w op).appliedLog i = w.appliedLog i ++ [c] ∧ (step w op).nextSlot i = w.nextSlot i + 1 ∧
        ((step w op).catchingUp i = true ↔ c ≠ catchUpProbe (w.nextSlot i)) := by
  unfold catchingUp at hc
  cases hnd : w.nodes i with
  | none => rw [hnd] at hc; exact absurd hc (by decide)
  | some nd =>
    rw [hnd] at hc
    obtain ⟨nd', hnd'⟩ := node_stays hnd op
    have hnode : nd'.isCatchingUp = true ∧ nd'.durable.appliedLog = nd.durable.appliedLog ∧
        nd'.durable.nextSlot = nd.durable.nextSlot ∨
        ∃ c, Grows nd nd' c ∧ (nd'.isCatchingUp = true ↔ c ≠ catchUpProbe nd.durable.nextSlot) := by
      rcases node_cases hnd' with hsame | ⟨nd₀, o, hnd₀, -, rfl⟩ | ⟨nd₀, sh', fx, ev, hnd₀, hturn, -⟩
      · obtain rfl := Option.some.inj (hnd.symm.trans hsame)
        exact .inl ⟨hc, rfl, rfl⟩
      · obtain rfl := Option.some.inj (hnd.symm.trans hnd₀)
        exact .inl ⟨hc, rfl, rfl⟩
      · obtain rfl := Option.some.inj (hnd.symm.trans hnd₀)
        exact Turn.learner h hnd hturn hc
    simp only [catchingUp, appliedLog, nextSlot, hnd, hnd']
    rcases hnode with hsame | ⟨c, hgrow, hiff⟩
    · exact .inl hsame
    · exact .inr ⟨c, hgrow.log, hgrow.next, hiff⟩

/-- only a restart makes a replica catch up -/
theorem not_learner_step (hop : restarted op ≠ some i) (hc : w.catchingUp i = false) :
    (step w op).catchingUp i = false := by
  unfold catchingUp
  cases hnd' : (step w op).nodes i with
  | none => rfl
  | some nd' =>
    have hback : ∀ nd, w.nodes i = some nd → nd.isCatchingUp = false := by
      intro nd hnd
      unfold catchingUp at hc
      rw [hnd] at hc
      exact hc
    rcases node_cases hnd' with hsame | ⟨nd, o, hnd, -, rfl⟩ | ⟨nd, sh', fx, ev, hnd, hturn, -⟩
    · exact hback nd' hsame
    · exact hback nd hnd
    · exact Turn.learned hturn hop (hback nd hnd)

/-! ## A whole catch-up -/

/-- what holds of replica `i` since it was restarted in the state `u` -/
structure Since (u w : Smr) (i : NodeId) : Prop where
  length_eq : ∀ j, (u.appliedLog j).length = u.nextSlot j
  applied : ∀ j, u.nextSlot j ≤ w.nextSlot j ∧ u.appliedLog j <+: w.appliedLog j
  learns : w.catchingUp i = true →
    ∀ k, u.nextSlot i ≤ k → k < w.nextSlot i → (w.appliedLog i)[k]? ≠ some (catchUpProbe k)

theorem Since.trans_applied {u : Smr} (h : Sane n w) (hs : Since u w i) (op : SmrOp) (j : NodeId) :
    u.nextSlot j ≤ (step w op).nextSlot j ∧ u.appliedLog j <+: (step w op).appliedLog j :=
  ⟨(hs.applied j).1.trans (applied_step h op j).1, (hs.applied j).2.trans (applied_step h op j).2⟩

/-- a restart applies nothing -/
theorem restart_next (w : Smr) (i : NodeId) (rng : NodeId → Draw) :
    (step w (.env (.restart i rng))).nextSlot i = w.nextSlot i := by
  cases hnd' : (step w (.env (.restart i rng))).nodes i with
  | none =>
    cases hnd : w.nodes i with
    | none => unfold nextSlot; rw [hnd, hnd']
    | some nd =>
      obtain ⟨_, hstay⟩ := node_stays hnd (.env (.restart i rng))
      rw [hnd'] at hstay
      exact absurd hstay (by simp)
  | some nd' =>
    rw [nextSlot_eq hnd']
    rcases node_cases hnd' with hsame | ⟨nd, o, hnd, -, rfl⟩ | ⟨nd, sh', fx, ev, hnd, hturn, -⟩
    · rw [nextSlot_eq hsame]
    · rw [nextSlot_eq hnd]
    · rw [nextSlot_eq hnd]
      cases hturn with
      | restart hcall => rw [(SmrNode.onRestart_moves hcall).keeps.durable]

theorem since_restart {u : Smr} (h : Sane n u) (rng : NodeId → Draw) :
    Since u (step u (.env (.restart i rng))) i where
  length_eq := h.length_eq
  applied := applied_step h _
  learns := fun _ k hk hlt => by
    rw [restart_next] at hlt
    omega

theorem since_step {u : Smr} (h : Sane n w) (hs : Since u w i) (hop : restarted op ≠ some i) :
    Since u (step w op) i where
  length_eq := hs.length_eq
  applied := hs.trans_applied h op
  learns := fun hc' k hk hlt => by
    cases hc : w.catchingUp i with
    | false =>
      rw [not_learner_step hop hc] at hc'
      exact absurd hc' (by decide)
    | true =>
      rcases learner_step h op hc with ⟨-, hlog, hnext⟩ | ⟨c, hlog, hnext, hiff⟩
      · rw [hlog]
        exact hs.learns hc k hk (by omega)
      · have hlen := h.length_eq i
        rw [hlog]
        rcases Nat.lt_or_ge k (w.nextSlot i) with hold | hnew
        · rw [List.getElem?_append_left (by omega)]
          exact hs.learns hc k hk hold
        · obtain rfl : k = w.nextSlot i := by omega
          rw [← hlen, List.getElem?_concat_length, hlen]
          exact fun heq => hiff.1 hc' (Option.some.inj heq)

/-- **Restart catch-up, exactly.** Along covered steps, let replica `i` be restarted after the run `pre`, not be restarted
in `mid`, and end its catch-up with `op`. It is then past every slot that any replica had applied before the restart
exactly when, at the restart, no replica was past the probe of a slot that `i` still missed. -/
theorem catch_up_complete_iff (s : Setup) (pre mid : List SmrOp) (i : NodeId) (rng : NodeId → Draw) (op : SmrOp)
    (hcov : Runs.Along step CoveredStep s.cluster (pre ++ .env (.restart i rng) :: (mid ++ [op])))
    (hmid : ∀ op' ∈ mid, restarted op' ≠ some i)
    (hbefore : (s.cluster.run (pre ++ .env (.restart i rng) :: mid)).catchingUp i = true)
    (hafter : (s.cluster.run (pre ++ .env (.restart i rng) :: (mid ++ [op]))).catchingUp i = false) :
    (∀ j k, k < (s.cluster.run pre).nextSlot j →
      k < (s.cluster.run (pre ++ .env (.restart i rng) :: (mid ++ [op]))).nextSlot i) ↔
    ∀ j k, (s.cluster.run pre).nextSlot i ≤ k → k + 1 < (s.cluster.run pre).nextSlot j →
      ((s.cluster.run pre).appliedLog j)[k]? ≠ some (catchUpProbe k) := by
  have hspread := spread_run s hcov
  have hrun : s.cluster.run (pre ++ .env (.restart i rng) :: (mid ++ [op])) =
      step (s.cluster.run (pre ++ .env (.restart i rng) :: mid)) op := by
    rw [← List.cons_append, ← List.append_assoc]
    exact Runs.run_snoc ..
  rw [hrun] at hafter hspread ⊢
  have hsane := sane_run s (pre ++ .env (.restart i rng) :: mid)
  -- from the restart to the end of the catch-up
  have hsince : Since (s.cluster.run pre) (s.cluster.run (pre ++ .env (.restart i rng) :: mid)) i := by
    let I : Smr → Prop := fun w => Sane s.size w ∧ Since (s.cluster.run pre) w i
    have hstart : I (step (s.cluster.run pre) (.env (.restart i rng))) :=
      ⟨sane_step (sane_run s pre) _, since_restart (sane_run s pre) rng⟩
    have hend : I (Runs.run step (step (s.cluster.run pre) (.env (.restart i rng))) mid) :=
      Runs.run_invariant (I := I) (fun w op ⟨h, hs⟩ hop => ⟨sane_step h op, since_step h hs (hmid op hop)⟩) hstart
        (Runs.along_mem step _ mid)
    have heq : s.cluster.run (pre ++ .env (.restart i rng) :: mid) =
        Runs.run step (step (s.cluster.run pre) (.env (.restart i rng))) mid := Runs.run_append ..
    rw [heq]
    exact hend.2
  generalize s.cluster.run (pre ++ .env (.restart i rng) :: mid) = w at *
  generalize s.cluster.run pre = u at *
  obtain ⟨c, hlog, hnext, hiff⟩ := (learner_step hsane op hbefore).resolve_left fun hon => by
    rw [hon.1] at hafter
    exact absurd hafter (by decide)
  have hprobe : c = catchUpProbe (w.nextSlot i) := by
    by_contra hne
    rw [hiff.2 hne] at hafter
    exact absurd hafter (by decide)
  have hlen := hsane.length_eq i
  -- what a replica had applied before the restart it still holds at the end
  have hkept : ∀ j k, k < u.nextSlot j → k < (step w op).nextSlot i →
      (u.appliedLog j)[k]? = ((step w op).appliedLog i)[k]? := by
    intro j k hj hi
    obtain ⟨hle, hpre⟩ := hsince.trans_applied hsane op j
    rw [(sane_step hsane op).logs_agree hspread hi (hj.trans_le hle)]
    have hlt : k < (u.appliedLog j).length := by rw [hsince.length_eq]; exact hj
    obtain ⟨t, ht⟩ := hpre
    rw [← ht, List.getElem?_append_left hlt]
  constructor
  · intro hpast j k hk hj
    have hlast := hpast j (k + 1) hj
    rw [hkept j k (by omega) (by omega), hlog, List.getElem?_append_left (by omega)]
    exact hsince.learns hbefore k hk (by omega)
  · intro hfresh j k hk
    by_contra hgt
    have hmiss := hfresh j (w.nextSlot i) (hsince.applied i).1 (by omega)
    rw [hkept j (w.nextSlot i) (by omega) (by omega), hlog, ← hlen, List.getElem?_concat_length, hlen] at hmiss
    exact hmiss (by rw [hprobe])

/-! ## Runs -/

/-- leader 0 decides its client's operation; replica 1 crashes, restarts, learns it, and wins slot 1 with its probe -/
def beforeLearning : List SmrOp :=
  [.submit 0 (.put 0 1 0 10), wait 1, fire 0 1, deliver 0 1, deliver 0 1, deliver 1 1, deliver 1 1, crash 1]

def learning : List SmrOp :=
  [deliver 1 1, deliver 1 1, deliver 2 1, deliver 2 1, deliver 2 1, deliver 2 1, deliver 3 1, deliver 3 1, deliver 3 1,
    deliver 3 1, deliver 4 1, deliver 4 1, deliver 4 1, deliver 4 1, deliver 5 1]

theorem catch_up_complete_learning :
    ((Setup.leader 3 (some 0)).cluster.run
      (beforeLearning ++ .env (.restart 1 (drawing 1)) :: (learning ++ [deliver 5 1]))).catchingUp 1 = false ∧
    ∀ j k, k < ((Setup.leader 3 (some 0)).cluster.run beforeLearning).nextSlot j →
      k < ((Setup.leader 3 (some 0)).cluster.run
        (beforeLearning ++ .env (.restart 1 (drawing 1)) :: (learning ++ [deliver 5 1]))).nextSlot 1 := by
  have hcov : Runs.Along step CoveredStep (Setup.leader 3 (some 0)).cluster
      (beforeLearning ++ .env (.restart 1 (drawing 1)) :: (learning ++ [deliver 5 1])) := by decide +kernel
  have hbefore : ((Setup.leader 3 (some 0)).cluster.run
      (beforeLearning ++ .env (.restart 1 (drawing 1)) :: learning)).catchingUp 1 = true := by decide +kernel
  have hafter : ((Setup.leader 3 (some 0)).cluster.run
      (beforeLearning ++ .env (.restart 1 (drawing 1)) :: (learning ++ [deliver 5 1]))).catchingUp 1 = false := by
    decide +kernel
  have hmid : ∀ op ∈ learning, restarted op ≠ some 1 := by decide +kernel
  refine ⟨hafter, (catch_up_complete_iff (.leader 3 (some 0)) beforeLearning learning 1 (drawing 1) (deliver 5 1) hcov hmid
    hbefore hafter).2 fun j k _ hj => ?_⟩
  -- no replica is past slot 0
  exfalso
  cases hnd : ((Setup.leader 3 (some 0)).cluster.run beforeLearning).nodes j with
  | none =>
    unfold nextSlot at hj
    rw [hnd] at hj
    exact absurd hj (Nat.not_lt_zero _)
  | some nd =>
    have hlt : j < 3 := node_lt _ _ hnd
    have hle : ∀ j < 3, ((Setup.leader 3 (some 0)).cluster.run beforeLearning).nextSlot j ≤ 1 := by decide +kernel
    have hj' := hle j hlt
    omega

/-- replica 0 restarts and wins slot 0 with its probe, then decides its client's operation at slot 1 -/
def beforeRejoining : List SmrOp :=
  [crash 0, restart 0 1, deliver 0 1, deliver 0 1, deliver 1 1, deliver 1 1, deliver 1 1, deliver 1 1, deliver 2 1,
    deliver 2 1, deliver 2 1, deliver 2 1, deliver 3 1, deliver 3 1, .submit 0 (.put 0 1 0 10), wait 1, fire 4 1,
    deliver 3 1, deliver 3 1, deliver 4 1, deliver 4 1, crash 2]

/-- replica 2 restarts and learns slot 0, which its own probe seems to have won -/
def rejoining : List SmrOp :=
  [deliver 4 1, deliver 4 1, deliver 5 1, deliver 5 1, deliver 5 1, deliver 5 1, deliver 6 1]

/-- **A catch-up that falls short.** Replica 2 stops catching up after slot 0, though replica 0 had applied slot 1 before
replica 2 was restarted. Every step is covered. -/
theorem catch_up_falls_short :
    Runs.Along step CoveredStep (newWithLeader 3 (some 0))
      (beforeRejoining ++ restart 2 1 :: (rejoining ++ [deliver 6 1])) ∧
    ((newWithLeader 3 (some 0)).run (beforeRejoining ++ restart 2 1 :: rejoining)).catchingUp 2 = true ∧
    ((newWithLeader 3 (some 0)).run (beforeRejoining ++ restart 2 1 :: (rejoining ++ [deliver 6 1]))).catchingUp 2 =
      false ∧
    ((newWithLeader 3 (some 0)).run beforeRejoining).nextSlot 0 = 2 ∧
    ((newWithLeader 3 (some 0)).run (beforeRejoining ++ restart 2 1 :: (rejoining ++ [deliver 6 1]))).nextSlot 2 = 1 := by
  decide +kernel

end Smr

end Queso
