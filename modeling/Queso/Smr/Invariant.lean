/-
Every step keeps the cluster sane.

`Turn.log` says what a callback does to the replica's log: it stays, or the decision of the attempt's proposer joins it.
`sane_step` assembles the invariant from one lemma for each of its fields, and `sane_run` is the run lemma.
-/
import Queso.Smr.Refine

namespace Queso

open Register

namespace Smr

variable {n : ℕ} {w w' : Smr} {op : SmrOp}

/-! ## What a callback does to a replica -/

section Turns

variable {i : NodeId} {nd nd' : SmrNode} {sh' : Shared} {fx : List (Effect SmrMsg)} {ev : List (TraceEvent SmrMsg)}

/-- the log and the frontier stay, and no attempt is dropped without another -/
structure Stays (nd nd' : SmrNode) : Prop where
  log : nd'.durable.appliedLog = nd.durable.appliedLog
  next : nd'.durable.nextSlot = nd.durable.nextSlot
  kv : nd'.durable.kv = nd.durable.kv
  busy : nd.currentAttempt.isSome = true → nd'.currentAttempt.isSome = true

/-- the decision `c` is applied at the frontier -/
structure Grows (nd nd' : SmrNode) (c : Command) : Prop where
  log : nd'.durable.appliedLog = nd.durable.appliedLog ++ [c]
  next : nd'.durable.nextSlot = nd.durable.nextSlot + 1
  kv : nd'.durable.kv = (nd.durable.kv.apply c).1

/-- the reply that made the proposer of node `i` decide `c` at slot `k` -/
structure Decided (n : ℕ) (w : Smr) (op : SmrOp) (i : NodeId) (k : ℕ) (c : Command) : Prop where
  act : ∃ src resp rng p, Ruled n w op (view w) (.reply src i resp rng) ∧
    ((view w).step (.reply src i resp rng)).props i = some p ∧ p.slot = k ∧ p.decided = some c ∧
    ((view w).step (.reply src i resp rng)).Le (view (step w op))

theorem stays_refl (nd : SmrNode) : Stays nd nd := ⟨rfl, rfl, rfl, fun h => h⟩

theorem Keeps.stays (h : nd.Keeps nd') (hsome : nd'.currentAttempt.isSome = true) : Stays nd nd' :=
  ⟨by rw [h.durable], by rw [h.durable], by rw [h.durable], fun _ => hsome⟩

theorem Started.busy {ctx : SmrCtx} {sh sh' : Shared} {origin : AttemptOrigin} {command : Command}
    {leader : Option NodeId} (h : SmrNode.Started ctx nd sh origin command leader nd' sh' fx) :
    nd'.currentAttempt.isSome = true := by
  obtain ⟨_, ⟨b, hb⟩, -⟩ := h.drives
  rw [hb]; rfl

/-- **What a callback does to the log**: it stays, or what the attempt's proposer decided joins it. -/
theorem Turn.log (h : Sane n w) (hnd : w.nodes i = some nd) (ht : Turn w i nd op nd' sh' fx ev)
    (htd : Turned w (step w op) i nd' sh' fx ev) :
    Stays nd nd' ∨ ∃ c, Grows nd nd' c ∧ Decided n w op i nd.durable.nextSlot c := by
  cases ht with
  | request _ hcall =>
    simp only [SmrNode.onRequest, Except.ok.injEq, Prod.mk.injEq] at hcall
    obtain ⟨rfl, -, -⟩ := hcall
    exact .inl ⟨rfl, rfl, rfl, fun h => h⟩
  | @reply k rng src resp now _ _ _ hk hup hcall =>
    have hview := view_turned htd (.inr ⟨src, i, resp, rfl⟩)
    rcases SmrNode.onReply_moves hcall with ⟨rfl, -, -⟩ | ⟨attempt, p, fx₁, nd₁, ha, -, hresp, hdrv,
      ⟨-, rfl, -, -⟩ | ⟨decided, ended, nd₂, sh₂, fx₂, hdec, hend, hended, hres, rfl, -⟩⟩
    · exact .inl (stays_refl _)
    · obtain ⟨b, hb⟩ := hdrv.drives
      exact .inl (Keeps.stays hdrv.keeps (by rw [hb]; rfl))
    · have hdur := Resumes.durable hres
      have hbefore : nd₁.durable = nd.durable := hdrv.keeps.durable
      refine .inr ⟨decided, ⟨?_, ?_, ?_⟩, ⟨src, resp, rng, p, h.reply_ruled hnd hk hup, ?_, ?_, hdec, ?_⟩⟩
      · rw [hdur, hended.durable, ← hbefore]; rfl
      · rw [hdur, hended.durable, ← hbefore]; rfl
      · rw [hdur, hended.durable, ← hbefore]; rfl
      · rw [reply_acts hnd ha hresp]; simp [Arena.swap]
      · rw [(Proposer.onResponse_rises hresp).1]; exact (h.live i nd attempt hnd ha).slot
      · have hsplit : sendsOf i (fx₁ ++ fx₂) = sendsOf i fx₁ ++ sendsOf i fx₂ := by simp [sendsOf]
        rw [reply_acts hnd ha hresp, hview, hsplit, ← Arena.swap_swap]
        exact Arena.le_swap _ _ _ _
  | timer hcall =>
    rcases SmrNode.onTimer_moves hcall with ⟨rfl, -, -⟩ | ⟨hidle, hres, -⟩ | ⟨-, hst⟩ | ⟨_, _, -, -, -, hdrv, -⟩
    · exact .inl (stays_refl _)
    · have hdur := Resumes.durable hres
      exact .inl ⟨by rw [hdur], by rw [hdur], by rw [hdur], fun hs => by rw [hidle] at hs; exact absurd hs (by simp)⟩
    · exact .inl ⟨by rw [hst.keeps.durable], by rw [hst.keeps.durable], by rw [hst.keeps.durable],
        fun _ => Started.busy hst⟩
    · obtain ⟨b, hb⟩ := hdrv.drives
      exact .inl (Keeps.stays hdrv.keeps (by rw [hb]; rfl))
  | restart hcall =>
    have hst := SmrNode.onRestart_moves hcall
    exact .inl ⟨by rw [hst.keeps.durable], by rw [hst.keeps.durable], by rw [hst.keeps.durable],
      fun _ => Started.busy hst⟩

/-- only a request changes what a replica's recorders hold -/
theorem Turn.recorders (ht : Turn w i nd op nd' sh' fx ev) :
    nd'.durable.recorders = nd.durable.recorders ∧ (ev = [] ∨ ∃ src dst resp, ev = [.deliver ⟨src, dst, .response resp⟩]) ∨
    ∃ src req, ev = [.deliver ⟨src, i, .request req⟩] ∧
      nd'.durable.recorders = nd.durable.recorders.insert req.slot ((nd.durable.recorder req.slot).handle req).1 := by
  cases ht with
  | @request k rng src req _ _ _ _ hcall =>
    simp only [SmrNode.onRequest, Except.ok.injEq, Prod.mk.injEq] at hcall
    obtain ⟨rfl, -, -⟩ := hcall
    exact .inr ⟨src, req, rfl, rfl⟩
  | reply _ _ hcall =>
    refine .inl ⟨?_, .inr ⟨_, _, _, rfl⟩⟩
    rcases SmrNode.onReply_moves hcall with ⟨rfl, -, -⟩ | ⟨attempt, p, fx₁, nd₁, -, -, -, hdrv,
      ⟨-, rfl, -, -⟩ | ⟨decided, ended, nd₂, sh₂, fx₂, -, -, hended, hres, -⟩⟩
    · rfl
    · rw [hdrv.keeps.durable]
    · rw [Resumes.durable hres, hended.durable, ← hdrv.keeps.durable]; rfl
  | timer hcall =>
    refine .inl ⟨?_, .inl rfl⟩
    rcases SmrNode.onTimer_moves hcall with ⟨rfl, -, -⟩ | ⟨-, hres, -⟩ | ⟨-, hst⟩ | ⟨_, _, -, -, -, hdrv, -⟩
    · rfl
    · rw [Resumes.durable hres]
    · rw [hst.keeps.durable]
    · rw [hdrv.keeps.durable]
  | restart hcall => exact .inl ⟨by rw [(SmrNode.onRestart_moves hcall).keeps.durable], .inl rfl⟩

theorem Resumes.total {ctx : SmrCtx} {sh sh' : Shared} (h : SmrNode.Resumes ctx nd sh nd' sh' fx) :
    nd'.totalReplicas = nd.totalReplicas := by
  cases h with
  | rests => rfl
  | proposes _ _ h => exact h.keeps.total
  | probes h => exact h.keeps.total

theorem Turn.total (ht : Turn w i nd op nd' sh' fx ev) : nd'.totalReplicas = nd.totalReplicas := by
  cases ht with
  | request _ hcall =>
    simp only [SmrNode.onRequest, Except.ok.injEq, Prod.mk.injEq] at hcall
    rw [← hcall.1]
  | reply _ _ hcall =>
    rcases SmrNode.onReply_moves hcall with ⟨rfl, -, -⟩ | ⟨attempt, p, fx₁, nd₁, -, -, -, hdrv,
      ⟨-, rfl, -, -⟩ | ⟨decided, ended, nd₂, sh₂, fx₂, -, -, hended, hres, -⟩⟩
    · rfl
    · exact hdrv.keeps.total
    · rw [Resumes.total hres, hended.total, hdrv.keeps.total]
  | timer hcall =>
    rcases SmrNode.onTimer_moves hcall with ⟨rfl, -, -⟩ | ⟨-, hres, -⟩ | ⟨-, hst⟩ | ⟨_, _, -, -, -, hdrv, -⟩
    · rfl
    · exact Resumes.total hres
    · exact hst.keeps.total
    · exact hdrv.keeps.total
  | restart hcall => exact (SmrNode.onRestart_moves hcall).keeps.total

theorem Resumes.queue {ctx : SmrCtx} {sh sh' : Shared} (h : SmrNode.Resumes ctx nd sh nd' sh' fx) :
    ∀ o ∈ nd'.queue, o ∈ nd.queue := by
  intro o ho
  cases h with
  | rests => exact ho
  | proposes hq _ h =>
    rw [h.queue] at ho
    rw [hq]
    exact List.mem_cons_of_mem _ ho
  | probes h => rwa [h.queue] at ho

/-- an operation in the queue was there, or was the attempt's -/
theorem Turn.queue (ht : Turn w i nd op nd' sh' fx ev) : ∀ o ∈ nd'.queue, o ∈ nd.queue ∨
    ∃ a id, nd.currentAttempt = some a ∧ a.origin = .op id ∧ o = ⟨id, a.command⟩ := by
  intro o ho
  cases ht with
  | request _ hcall =>
    simp only [SmrNode.onRequest, Except.ok.injEq, Prod.mk.injEq] at hcall
    rw [← hcall.1] at ho
    exact .inl ho
  | reply _ _ hcall =>
    rcases SmrNode.onReply_moves hcall with ⟨rfl, -, -⟩ | ⟨attempt, p, fx₁, nd₁, ha, -, -, hdrv,
      ⟨-, rfl, -, -⟩ | ⟨decided, ended, nd₂, sh₂, fx₂, -, hend, hended, hres, -⟩⟩
    · exact .inl ho
    · rw [hdrv.queue] at ho; exact .inl ho
    · have ho := Resumes.queue hres o ho
      obtain ⟨b, hb⟩ := hdrv.drives
      obtain rfl := Option.some.inj (hb.symm.trans hend)
      rcases hended.queue with heq | ⟨id, hid, heq⟩
      · rw [heq, hdrv.queue] at ho; exact .inl ho
      · rw [heq, hdrv.queue] at ho
        rcases List.mem_cons.1 ho with rfl | ho
        · exact .inr ⟨attempt, id, ha, hid, rfl⟩
        · exact .inl ho
  | timer hcall =>
    rcases SmrNode.onTimer_moves hcall with ⟨rfl, -, -⟩ | ⟨-, hres, -⟩ | ⟨-, hst⟩ | ⟨_, _, -, -, -, hdrv, -⟩
    · exact .inl ho
    · exact .inl (Resumes.queue hres o ho)
    · rw [hst.queue] at ho; exact .inl ho
    · rw [hdrv.queue] at ho; exact .inl ho
  | restart hcall =>
    rw [(SmrNode.onRestart_moves hcall).queue] at ho
    exact absurd ho (by simp)

theorem Started.policy {ctx : SmrCtx} {sh sh' : Shared} {origin : AttemptOrigin} {command : Command}
    {leader : Option NodeId} (h : SmrNode.Started ctx nd sh origin command leader nd' sh' fx)
    (hp : sh.policy.Pinned) : sh.policy.Keeps sh'.policy := by
  rw [h.shared]
  exact LeaderPolicy.noteAttemptStart_keeps hp _ _

theorem Resumes.policy {ctx : SmrCtx} {sh sh' : Shared} (h : SmrNode.Resumes ctx nd sh nd' sh' fx)
    (hp : sh.policy.Pinned) : sh.policy.Keeps sh'.policy := by
  cases h with
  | rests => exact .refl hp
  | proposes _ _ h => exact Started.policy h hp
  | probes h => exact Started.policy h hp

/-- a callback keeps the leaders that are assigned -/
theorem Turn.policy (ht : Turn w i nd op nd' sh' fx ev) (hp : w.shared.policy.Pinned) :
    w.shared.policy.Keeps sh'.policy := by
  cases ht with
  | request _ hcall =>
    simp only [SmrNode.onRequest, Except.ok.injEq, Prod.mk.injEq] at hcall
    rw [← hcall.2.1]
    exact .refl hp
  | reply _ _ hcall =>
    rcases SmrNode.onReply_moves hcall with ⟨-, rfl, -⟩ | ⟨attempt, p, fx₁, nd₁, -, -, -, hdrv,
      ⟨-, -, rfl, -⟩ | ⟨decided, ended, nd₂, sh₂, fx₂, -, hend, hended, hres, -⟩⟩
    · exact .refl hp
    · exact .refl hp
    · have hkeep := LeaderPolicy.noteSlotDecided_keeps hp hended.policy
      exact hkeep.trans (Resumes.policy hres hkeep.pinned)
  | timer hcall =>
    rcases SmrNode.onTimer_moves hcall with ⟨-, rfl, -⟩ | ⟨-, hres, -⟩ | ⟨-, hst⟩ | ⟨_, _, -, -, -, -, rfl⟩
    · exact .refl hp
    · exact Resumes.policy hres hp
    · exact Started.policy hst hp
    · exact .refl hp
  | restart hcall => exact Started.policy (SmrNode.onRestart_moves hcall) hp

/-! ### The attempt -/

theorem Live.mono {a : CurrentAttempt} (h : Live w nd a) (hnext : nd'.durable.nextSlot = nd.durable.nextSlot)
    (hinv : ∀ id c, InvokedAs w id c → InvokedAs w' id c) : Live w' nd' a where
  frontier := by rw [hnext]; exact h.frontier
  slot := by rw [hnext]; exact h.slot
  started := h.started
  probe := fun ho => by rw [hnext]; exact h.probe ho
  op := fun id ho => hinv _ _ (h.op id ho)

/-- an attempt whose proposer was driven goes on -/
theorem Driven.live {a : CurrentAttempt} {p : Proposer Command} (hlive : Live w nd a) (h : nd.Driven a p nd')
    (hslot : p.slot = a.proposer.slot) (hstep : a.proposer.step ≤ p.step) {a' : CurrentAttempt}
    (ha' : nd'.currentAttempt = some a') : Live w nd' a' := by
  obtain ⟨b, hb⟩ := h.drives
  obtain rfl := Option.some.inj (hb.symm.trans ha')
  have hnext : nd'.durable.nextSlot = nd.durable.nextSlot := by rw [h.keeps.durable]
  have hpos := hlive.started
  exact
    { frontier := by rw [hnext]; exact hlive.frontier
      slot := by rw [hnext]; exact hslot.trans hlive.slot
      started := by show p.step ≠ 0; omega
      probe := fun ho => by rw [hnext]; exact hlive.probe ho
      op := hlive.op }

theorem Started.live {ctx : SmrCtx} {sh sh' : Shared} {origin : AttemptOrigin} {command : Command}
    {leader : Option NodeId} (h : SmrNode.Started ctx nd sh origin command leader nd' sh' fx)
    (hprobe : origin = .catchUp → command = catchUpProbe nd.durable.nextSlot)
    (hop : ∀ id, origin = .op id → InvokedAs w id command) {a' : CurrentAttempt} (ha' : nd'.currentAttempt = some a') :
    Live w nd' a' := by
  obtain ⟨delay, ⟨b, hb⟩, -⟩ := h.drives
  obtain rfl := Option.some.inj (hb.symm.trans ha')
  have hnext : nd'.durable.nextSlot = nd.durable.nextSlot := by rw [h.keeps.durable]
  have hfresh := proposerFor_fresh nd ctx.selfId command leader delay rfl
  obtain ⟨hslot, hstep⟩ := Proposer.start_step hfresh.decided ctx.rng
  exact
    { frontier := by rw [hnext]
      slot := by rw [hnext]; exact hslot.trans (proposerFor_slot ..)
      started := by
        show ((nd.proposerFor ctx.selfId command leader delay).start ctx.rng).1.step ≠ 0
        rw [hstep]; decide
      probe := fun ho => by rw [hnext]; exact hprobe ho
      op := hop }

theorem Resumes.live {ctx : SmrCtx} {sh sh' : Shared} (h : SmrNode.Resumes ctx nd sh nd' sh' fx)
    (hidle : nd.currentAttempt = none) (hqueue : ∀ o ∈ nd.queue, InvokedAs w o.opId o.command) {a' : CurrentAttempt}
    (ha' : nd'.currentAttempt = some a') : Live w nd' a' := by
  cases h with
  | rests => rw [hidle] at ha'; exact absurd ha' (by simp)
  | proposes hq _ hst =>
    refine Started.live hst (fun ho => absurd ho (by simp)) (fun id ho => ?_) ha'
    simp only [AttemptOrigin.op.injEq] at ho
    rw [← ho]
    exact hqueue _ (by rw [hq]; exact List.mem_cons_self ..)
  | probes hst => exact Started.live hst (fun _ => rfl) (fun id ho => absurd ho (by simp)) ha'

/-- the attempt after a callback is live -/
theorem Turn.live (h : Sane n w) (hnd : w.nodes i = some nd) (ht : Turn w i nd op nd' sh' fx ev)
    {a' : CurrentAttempt} (ha' : nd'.currentAttempt = some a') : Live (step w op) nd' a' := by
  have hinv : ∀ id c, InvokedAs w id c → InvokedAs (step w op) id c := fun _ _ hc => hc.step op
  have hqueue : ∀ o ∈ nd.queue, InvokedAs w o.opId o.command := fun o ho => h.queued i nd o hnd ho
  cases ht with
  | request _ hcall =>
    simp only [SmrNode.onRequest, Except.ok.injEq, Prod.mk.injEq] at hcall
    obtain ⟨rfl, -, -⟩ := hcall
    exact (h.live i nd a' hnd ha').mono rfl hinv
  | reply _ _ hcall =>
    rcases SmrNode.onReply_moves hcall with ⟨rfl, -, -⟩ | ⟨attempt, p, fx₁, nd₁, ha, -, hresp, hdrv,
      ⟨-, rfl, -, -⟩ | ⟨decided, ended, nd₂, sh₂, fx₂, -, hend, hended, hres, -⟩⟩
    · exact (h.live i _ a' hnd ha').mono rfl hinv
    · obtain ⟨hslot, hstep⟩ := Proposer.onResponse_rises hresp
      exact (Driven.live (h.live i nd attempt hnd ha) hdrv hslot hstep ha').mono rfl hinv
    · have hlive := h.live i nd attempt hnd ha
      obtain ⟨b, hb⟩ := hdrv.drives
      obtain rfl := Option.some.inj (hb.symm.trans hend)
      refine (Resumes.live (w := w) hres hended.idle (fun o ho => ?_) ha').mono rfl hinv
      rcases hended.queue with heq | ⟨id, hid, heq⟩
      · rw [heq, hdrv.queue] at ho; exact hqueue o ho
      · rw [heq, hdrv.queue] at ho
        rcases List.mem_cons.1 ho with rfl | ho
        · exact hlive.op id hid
        · exact hqueue o ho
  | timer hcall =>
    rcases SmrNode.onTimer_moves hcall with ⟨rfl, -, -⟩ | ⟨hidle, hres, -⟩ | ⟨-, hst⟩ | ⟨attempt, p, ha, hid, htm, hdrv, -⟩
    · exact (h.live i _ a' hnd ha').mono rfl hinv
    · exact (Resumes.live (w := w) hres hidle hqueue ha').mono rfl hinv
    · exact (Started.live (w := w) hst (fun _ => rfl) (fun id ho => absurd ho (by simp)) ha').mono rfl hinv
    · obtain ⟨hslot, hstep⟩ := Proposer.onTimer_rises htm hid
      exact (Driven.live (h.live i nd attempt hnd ha) hdrv hslot hstep ha').mono rfl hinv
  | restart hcall =>
    exact (Started.live (w := w) (SmrNode.onRestart_moves hcall) (fun _ => rfl) (fun id ho => absurd ho (by simp))
      ha').mono rfl hinv

end Turns

/-! ## What a step does to each replica -/

/-- a replica after a step: as it was, or with one more operation queued, or after its callback -/
theorem node_cases {i : NodeId} {nd' : SmrNode} (h : (step w op).nodes i = some nd') :
    w.nodes i = some nd' ∨
    (∃ nd o, w.nodes i = some nd ∧ InvokedAs (step w op) o.opId o.command ∧ nd' = { nd with queue := nd.queue ++ [o] }) ∨
    ∃ nd sh' fx ev, w.nodes i = some nd ∧ Turn w i nd op nd' sh' fx ev ∧ Turned w (step w op) i nd' sh' fx ev := by
  rcases step_cases w op with hstill | ⟨j, nd, c, rfl, hsub⟩ | ⟨j, nd, nd₁, sh', fx, ev, hnd, hturn, htd⟩
  · exact .inl (by rw [← hstill.nodes]; exact h)
  · rw [hsub.nodes] at h
    by_cases hi : i = j
    · subst hi
      obtain rfl : _ = nd' := by simpa using h
      refine .inr (.inl ⟨nd, ⟨w.shared.nextOpId, c⟩, hsub.node, ?_, rfl⟩)
      unfold InvokedAs
      rw [hsub.shared]
      exact List.mem_append_right _ (List.mem_singleton.2 rfl)
    · exact .inl (by simpa [hi] using h)
  · have h' := h
    rw [htd.nodes] at h'
    by_cases hi : i = j
    · subst hi
      obtain rfl : nd₁ = nd' := by simpa using h'
      exact .inr (.inr ⟨nd, sh', fx, ev, hnd, hturn, htd⟩)
    · exact .inl (by simpa [hi] using h')

theorem node_stays {i : NodeId} {nd : SmrNode} (h : w.nodes i = some nd) (op : SmrOp) :
    ∃ nd', (step w op).nodes i = some nd' := by
  rcases step_cases w op with hstill | ⟨j, nd₀, c, rfl, hsub⟩ | ⟨j, nd₀, nd₁, sh', fx, ev, hnd, hturn, htd⟩
  · exact ⟨nd, by rw [hstill.nodes]; exact h⟩
  · rw [hsub.nodes]
    by_cases hi : i = j
    · subst hi; exact ⟨_, Function.update_self ..⟩
    · exact ⟨nd, by simpa [hi] using h⟩
  · rw [htd.nodes]
    by_cases hi : i = j
    · subst hi; exact ⟨_, Function.update_self ..⟩
    · exact ⟨nd, by simpa [hi] using h⟩

/-- **What a step does to a log**: it stays, or what the attempt's proposer decided joins it. -/
theorem log_step (h : Sane n w) {i : NodeId} {nd nd' : SmrNode} (hnd : w.nodes i = some nd)
    (hnd' : (step w op).nodes i = some nd') :
    Stays nd nd' ∨ ∃ c, Grows nd nd' c ∧ Decided n w op i nd.durable.nextSlot c := by
  rcases node_cases hnd' with hsame | ⟨nd₀, o, hnd₀, -, rfl⟩ | ⟨nd₀, sh', fx, ev, hnd₀, hturn, htd⟩
  · obtain rfl := Option.some.inj (hnd.symm.trans hsame)
    exact .inl (stays_refl _)
  · obtain rfl := Option.some.inj (hnd.symm.trans hnd₀)
    exact .inl ⟨rfl, rfl, rfl, fun hs => hs⟩
  · obtain rfl := Option.some.inj (hnd.symm.trans hnd₀)
    exact Turn.log h hnd hturn htd

/-- every replica was there before -/
theorem node_back {i : NodeId} {nd' : SmrNode} (h : (step w op).nodes i = some nd') : ∃ nd, w.nodes i = some nd := by
  rcases node_cases h with hsame | ⟨nd, o, hnd, -⟩ | ⟨nd, sh', fx, ev, hnd, -⟩
  · exact ⟨nd', hsame⟩
  · exact ⟨nd, hnd⟩
  · exact ⟨nd, hnd⟩

/-! ## Every step keeps the cluster sane -/

theorem maySend_step (h : Sane n w) {i : NodeId} {k : ℕ} (hk : MaySend w i k) : MaySend (step w op) i k := by
  obtain ⟨nd, hnd, hor⟩ := hk
  obtain ⟨nd', hnd'⟩ := node_stays hnd op
  refine ⟨nd', hnd', ?_⟩
  rcases log_step h hnd hnd' with hstay | ⟨c, hgrow, -⟩
  · rw [hstay.next]
    exact hor.imp_right fun ⟨heq, hbusy⟩ => ⟨heq, hstay.busy hbusy⟩
  · rw [hgrow.next]
    left
    omega

theorem mayCarry_step {k : ℕ} {c : Command} (hc : MayCarry w k c) : MayCarry (step w op) k c :=
  hc.imp_right fun hi => hi.step op

theorem policy_step (h : Sane n w) : w.shared.policy.Keeps (step w op).shared.policy := by
  rcases step_cases w op with hstill | ⟨i, nd, c, rfl, hsub⟩ | ⟨i, nd, nd', sh', fx, ev, hnd, hturn, htd⟩
  · rw [hstill.shared]; exact .refl h.pinned
  · rw [hsub.shared]; exact .refl h.pinned
  · rw [htd.shared]; exact Turn.policy hturn h.pinned

/-- what ruled acts keep of the arena, a step keeps of the view -/
theorem view_keeps {Q : Arena Command → Prop} (h : Sane n w) (hQ : Q (view w))
    (hact : ∀ a act, Arena.Inv n a → Q a → Ruled n w op a act → Q (a.step act)) : Q (view (step w op)) := by
  obtain ⟨acts, hacts, hrun⟩ := sim_step h op
  rw [← hrun]
  let I : Arena Command → Prop := fun a => Arena.Inv n a ∧ Q a
  have hI : I ((view w).run acts) :=
    Runs.run_invariant (I := I)
      (fun a act ⟨hi, hq⟩ hr => ⟨Arena.inv_step hi hr.allowed, hact a act hi hq hr⟩) ⟨h.arena, hQ⟩ hacts
  exact hI.2

theorem arena_step (h : Sane n w) : Arena.Inv n (view (step w op)) :=
  view_keeps (Q := Arena.Inv n) h h.arena fun _ _ hi _ hr => Arena.inv_step hi hr.allowed

theorem view_le (h : Sane n w) (op : SmrOp) : (view w).Le (view (step w op)) := by
  refine view_keeps (Q := (view w).Le) h (Arena.Le.refl _) fun a act _ hle _ => ?_
  have hstep := Arena.le_step a act
  refine ⟨fun e he => hstep.sends e (hle.sends e he), fun k j => ?_⟩
  obtain ⟨l, hl⟩ := hle.calls k j
  obtain ⟨m, hm⟩ := hstep.calls k j
  exact ⟨l ++ m, by rw [hm, hl, List.append_assoc]⟩

/-- a recorder goes on holding what it served -/
theorem recorder_step (h : Sane n w) (i : NodeId) (nd' : SmrNode) (k : ℕ) (hnd' : (step w op).nodes i = some nd') :
    (nd'.durable.recorder k).isr = Isr.replay (servedOf (step w op).trace k i) := by
  rcases step_cases w op with hstill | ⟨j, nd, c, rfl, hsub⟩ | ⟨j, nd, nd₁, sh', fx, ev, hnd, hturn, htd⟩
  · rw [hstill.nodes] at hnd'
    have hserved : servedOf (step w op).trace k i = servedOf w.trace k i := by
      rcases hstill.trace with heq | ⟨src, dst, resp, heq⟩
      · rw [heq]
      · rw [heq, servedOf_append, servedOf_response, List.append_nil]
    rw [hserved]
    exact h.recorder i nd' k hnd'
  · rw [hsub.trace]
    rw [hsub.nodes] at hnd'
    by_cases hi : i = j
    · subst hi
      obtain rfl : _ = nd' := by simpa using hnd'
      exact h.recorder i nd k hsub.node
    · exact h.recorder i nd' k (by simpa [hi] using hnd')
  · rw [htd.trace, servedOf_append, servedOf_append, servedOf_sends, List.append_nil]
    rw [htd.nodes] at hnd'
    rcases Turn.recorders hturn with ⟨hrec, hev⟩ | ⟨src, req, rfl, hrec⟩
    · have hserved : servedOf ev k i = [] := by
        rcases hev with rfl | ⟨src, dst, resp, rfl⟩
        · rfl
        · exact servedOf_response _ _ _ _ _
      rw [hserved, List.append_nil]
      by_cases hi : i = j
      · subst hi
        obtain rfl : nd₁ = nd' := by simpa using hnd'
        rw [Durable.recorder, hrec]
        exact h.recorder i nd k hnd
      · exact h.recorder i nd' k (by simpa [hi] using hnd')
    · rw [servedOf_request]
      by_cases hi : i = j
      · subst hi
        obtain rfl : nd₁ = nd' := by simpa using hnd'
        by_cases hk : k = req.slot
        · subst hk
          rw [if_pos ⟨rfl, rfl⟩, Durable.recorder, hrec, AList.lookup_insert, Isr.replay_snoc,
            ← h.recorder i nd req.slot hnd]
          rfl
        · rw [if_neg (fun hc => hk hc.1.symm), List.append_nil, Durable.recorder, hrec, AList.lookup_insert_ne hk]
          exact h.recorder i nd k hnd
      · rw [if_neg (fun hc => hi hc.2.symm), List.append_nil]
        exact h.recorder i nd' k (by simpa [hi] using hnd')

/-- what holds of every decided slot for good holds of every applied one -/
theorem log_keeps {D : Arena Command → ℕ → Command → Prop} (h : Sane n w)
    (hmono : ∀ a b k c, a.Le b → D a k c → D b k c)
    (hold : ∀ i nd k c, w.nodes i = some nd → nd.durable.appliedLog[k]? = some c → D (view w) k c)
    (hnew : ∀ i src resp rng p c, Ruled n w op (view w) (.reply src i resp rng) →
      ((view w).step (.reply src i resp rng)).props i = some p → p.decided = some c →
      D ((view w).step (.reply src i resp rng)) p.slot c) (i : NodeId) (nd' : SmrNode) (k : ℕ) (c : Command)
    (hnd' : (step w op).nodes i = some nd') (hc : nd'.durable.appliedLog[k]? = some c) : D (view (step w op)) k c := by
  obtain ⟨nd, hnd⟩ := node_back hnd'
  rcases log_step h hnd hnd' with hstay | ⟨d, hgrow, hdec⟩
  · rw [hstay.log] at hc
    exact hmono _ _ k c (view_le h op) (hold i nd k c hnd hc)
  · rw [hgrow.log, List.getElem?_append] at hc
    split_ifs at hc with hlt
    · exact hmono _ _ k c (view_le h op) (hold i nd k c hnd hc)
    · -- the new entry is the decision that the reply brought about
      obtain ⟨src, resp, rng, p, hruled, hp, hslot, hd, hle⟩ := hdec.act
      have hk : k = nd.durable.nextSlot ∧ c = d := by
        rw [h.length i nd hnd] at hc hlt
        have hzero : k - nd.durable.nextSlot = 0 := by
          by_contra hne
          rw [List.getElem?_eq_none (by simp; omega)] at hc
          exact absurd hc (by simp)
        rw [hzero] at hc
        exact ⟨by omega, (Option.some.inj hc).symm⟩
      obtain ⟨rfl, rfl⟩ := hk
      have hD := hnew i src resp rng p c hruled hp hd
      rw [hslot] at hD
      exact hmono _ _ _ c hle hD

/-- whatever was applied is settled -/
theorem settled_step (h : Sane n w) (i : NodeId) (nd' : SmrNode) (k : ℕ) (c : Command)
    (hnd' : (step w op).nodes i = some nd') (hc : nd'.durable.appliedLog[k]? = some c) :
    ∃ s, Arena.Settled n ((view (step w op)).hist k) s c := by
  refine log_keeps (D := fun a k c => ∃ s, Arena.Settled n (a.hist k) s c) h ?_ h.settled ?_ i nd' k c hnd' hc
  · rintro a b k c hle ⟨s, hs⟩
    exact ⟨s, hs.mono (hle.hist k)⟩
  · intro i src resp rng p c hruled hp hd
    exact ⟨p.step, ((Arena.inv_step h.arena hruled.allowed).seat i p hp).decided c hd⟩

/-- **Step lemma.** Every step keeps the cluster sane. -/
theorem sane_step (h : Sane n w) (op : SmrOp) : Sane n (step w op) where
  net := by
    cases op with
    | env op => exact World.env_net_sent SmrNode.behaviour h.net op
    | submit i c =>
      have hsub : (step w (.submit i c)).net = w.net ∧ (step w (.submit i c)).trace = w.trace := by
        unfold step submit
        dsimp only
        split_ifs
        · exact ⟨rfl, rfl⟩
        · exact ⟨rfl, rfl⟩
        · cases w.nodes i with
          | none => exact ⟨rfl, rfl⟩
          | some nd => dsimp only; split_ifs <;> exact ⟨rfl, rfl⟩
      rw [hsub.1, hsub.2]
      exact h.net
  total := fun i nd' hnd' => by
    rcases node_cases hnd' with hsame | ⟨nd, o, hnd, -, rfl⟩ | ⟨nd, sh', fx, ev, hnd, hturn, -⟩
    · exact h.total i nd' hsame
    · exact h.total i nd hnd
    · rw [Turn.total hturn]; exact h.total i nd hnd
  recorder := fun i nd' k hnd' => recorder_step h i nd' k hnd'
  live := fun i nd' a' hnd' ha' => by
    have hinv : ∀ id c, InvokedAs w id c → InvokedAs (step w op) id c := fun _ _ hc => hc.step op
    rcases node_cases hnd' with hsame | ⟨nd, o, hnd, -, rfl⟩ | ⟨nd, sh', fx, ev, hnd, hturn, -⟩
    · exact (h.live i nd' a' hsame ha').mono rfl hinv
    · exact (h.live i nd a' hnd ha').mono rfl hinv
    · exact Turn.live h hnd hturn ha'
  queued := fun i nd' o hnd' ho => by
    rcases node_cases hnd' with hsame | ⟨nd, o', hnd, hinv, rfl⟩ | ⟨nd, sh', fx, ev, hnd, hturn, -⟩
    · exact (h.queued i nd' o hsame ho).step op
    · rcases List.mem_append.1 ho with ho | ho
      · exact (h.queued i nd o hnd ho).step op
      · rw [List.mem_singleton.1 ho]; exact hinv
    · rcases Turn.queue hturn o ho with ho | ⟨a, id, ha, hid, rfl⟩
      · exact (h.queued i nd o hnd ho).step op
      · exact ((h.live i nd a hnd ha).op id hid).step op
  length := fun i nd' hnd' => by
    obtain ⟨nd, hnd⟩ := node_back hnd'
    have hlen := h.length i nd hnd
    rcases log_step h hnd hnd' with hstay | ⟨c, hgrow, -⟩
    · rw [hstay.log, hstay.next]; exact hlen
    · rw [hgrow.log, hgrow.next, List.length_append, hlen]; rfl
  kv := fun i nd' hnd' => by
    obtain ⟨nd, hnd⟩ := node_back hnd'
    have hkv := h.kv i nd hnd
    rcases log_step h hnd hnd' with hstay | ⟨c, hgrow, -⟩
    · rw [hstay.kv, hstay.log]; exact hkv
    · rw [hgrow.kv, hgrow.log, Kv.replay_snoc, hkv]
  pinned := (policy_step h).pinned
  arena := arena_step h
  within := view_keeps (Q := Arena.Within (MaySend (step w op))) h (h.within.mono fun _ _ hk => maySend_step h hk)
    fun _ _ hi hq hr => Arena.within_step hi hq hr.allowed hr.within
  carries := view_keeps (Q := Arena.Carries (MayCarry (step w op))) h (h.carries.mono fun _ _ hc => mayCarry_step hc)
    fun _ _ hi hq hr => Arena.carry_step hi hq hr.allowed hr.carries
  sole := view_keeps (Q := Arena.Sole (leaderOf (step w op))) h (h.sole.mono (policy_step h).leader)
    fun _ _ hi hq hr => Arena.sole_step hi hq hr.allowed hr.heads
  tags := view_keeps (Q := Arena.Tags (Invoked (step w op))) h (h.tags.mono fun _ hc => hc.step op)
    fun _ _ hi hq hr => Arena.tags_step hi hq hr.allowed hr.heads hr.tags
  settled := settled_step h

theorem build_node {policy : LeaderPolicy} {i : NodeId} {nd : SmrNode} (h : (build n policy).nodes i = some nd) :
    nd = SmrNode.new n := by
  unfold build at h
  dsimp only at h
  split_ifs at h
  exact (Option.some.inj h).symm

theorem view_build (n : ℕ) (policy : LeaderPolicy) : view (build n policy) = Arena.init fun _ => none := by
  unfold view arenaOf Arena.init
  simp only [Arena.mk.injEq]
  refine ⟨rfl, rfl, ?_⟩
  funext i
  unfold build
  dsimp only
  split_ifs <;> rfl

theorem sane_build (policy : LeaderPolicy) (hp : policy.Pinned) : Sane n (build n policy) where
  net := fun e he => absurd he (by simp [build])
  total := fun i nd hnd => by rw [build_node hnd]; rfl
  recorder := fun i nd k hnd => by rw [build_node hnd]; rfl
  live := fun i nd a hnd ha => by rw [build_node hnd] at ha; exact absurd ha (by simp [SmrNode.new])
  queued := fun i nd o hnd ho => by rw [build_node hnd] at ho; exact absurd ho (by simp [SmrNode.new])
  length := fun i nd hnd => by rw [build_node hnd]; rfl
  kv := fun i nd hnd => by rw [build_node hnd]; rfl
  pinned := hp
  arena := by rw [view_build]; exact Arena.inv_init fun i p hp => absurd hp (by simp)
  within := by
    rw [view_build]
    exact ⟨fun i j k s x he => absurd he (by simp [Arena.init]), fun i p hp => absurd hp (by simp [Arena.init])⟩
  carries := by
    rw [view_build]
    refine ⟨⟨fun k s x hx => ?_, fun i p hp => absurd hp (by simp [Arena.init])⟩,
      fun i p hp => absurd hp (by simp [Arena.init])⟩
    obtain ⟨i, j, he⟩ := hx
    exact absurd he (by simp [Arena.init])
  sole := by rw [view_build]; exact Arena.sole_init
  tags := by
    rw [view_build]
    refine ⟨fun k s x hx => ?_, fun i p hp => absurd hp (by simp [Arena.init])⟩
    obtain ⟨i, j, he⟩ := hx
    exact absurd he (by simp [Arena.init])
  settled := fun i nd k c hnd hc => by
    rw [build_node hnd] at hc
    exact absurd hc (by simp [SmrNode.new, Durable.default])

theorem cluster_node {s : Setup} {i : NodeId} {nd : SmrNode} (h : s.cluster.nodes i = some nd) :
    nd = SmrNode.new s.size := by
  cases s with
  | leader n leader => exact build_node h
  | tuning n epochLen baseDelay => exact build_node h

/-- every replica is idle at first -/
theorem cluster_idle {s : Setup} {i : NodeId} {nd : SmrNode} (h : s.cluster.nodes i = some nd) :
    nd.currentAttempt = none := by
  rw [cluster_node h]
  rfl

theorem sane_cluster (s : Setup) : Sane s.size s.cluster := by
  cases s with
  | leader n leader => exact sane_build (.fixed leader) trivial
  | tuning n epochLen baseDelay =>
    exact sane_build (.tuned (.new 0 ((List.range n).map (· + 1)) epochLen baseDelay))
      (EpochTuner.pinned_new 0 _ epochLen baseDelay)

/-- **Run lemma.** -/
theorem sane_run (s : Setup) (ops : List SmrOp) : Sane s.size (s.cluster.run ops) :=
  Runs.run_invariant (I := Sane s.size) (fun _ op h _ => sane_step h op) (sane_cluster s) (Runs.along_true step _ ops)

end Smr

end Queso
