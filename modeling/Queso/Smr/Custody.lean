/-
Where a submitted operation is.

`held nd` lists the operations that a replica still owes its clients: the one of the attempt in flight, then the queue.
`Hands` is all that a callback does to them: they stay, in that order, or the attempt's operation completes and leaves. A
restart drops them all.

Results, over every run in which no pending timer is lost:
- `custody_run`: no operation is held twice, by one replica or by two, and none that is held has completed;
- `wakeful_run`: a live replica that is idle with a queue has a kickoff pending;
- `operations_in_custody`: every operation submitted to a live replica since its last restart is queued there, in
  flight there or completed, and in one of these only.
-/
import Queso.Sim.Callback
import Queso.Smr.Agreement

namespace Queso

/-- the operation that an attempt is for -/
def AttemptOrigin.opId : AttemptOrigin → Option OpId
  | .op id => some id
  | .catchUp => none

namespace SmrNode

/-- the operation of the attempt in flight -/
def attempting (nd : SmrNode) : Option OpId := nd.currentAttempt.bind fun a => a.origin.opId

/-- the operations a replica owes its clients -/
def held (nd : SmrNode) : List OpId := nd.attempting.toList ++ nd.queue.map QueuedOp.opId

variable {ctx : SmrCtx} {nd nd' : SmrNode} {sh sh' : Shared} {fx : List (Effect SmrMsg)}

/-! ## What a callback does to them -/

/-- nothing is taken from a replica, and it is idle only with an empty queue -/
structure Goes (nd : SmrNode) (sh : Shared) (nd' : SmrNode) (sh' : Shared) : Prop where
  held : nd'.held = nd.held
  results : sh'.results = sh.results
  ids : sh'.nextOpId = sh.nextOpId
  idle : nd'.currentAttempt = none → nd'.queue = []

/-- all that a callback does to the operations of its replica -/
structure Hands (ctx : SmrCtx) (nd : SmrNode) (sh : Shared) (nd' : SmrNode) (sh' : Shared) : Prop where
  held : nd'.held = nd.held ∧ sh'.results = sh.results ∨
    ∃ id slot outcome, nd.held = id :: nd'.held ∧ sh'.results = (sh.complete id ctx.now slot outcome).results
  ids : sh'.nextOpId = sh.nextOpId
  /-- a replica left idle with a queue was idle with it before -/
  idle : nd'.currentAttempt = none → nd'.queue ≠ [] → nd.currentAttempt = none ∧ nd'.queue = nd.queue

theorem Hands.refl (ctx : SmrCtx) (nd : SmrNode) (sh : Shared) : Hands ctx nd sh nd sh :=
  ⟨.inl ⟨rfl, rfl⟩, rfl, fun h _ => ⟨h, rfl⟩⟩

theorem Goes.hands (h : Goes nd sh nd' sh') (ctx : SmrCtx) : Hands ctx nd sh nd' sh' :=
  ⟨.inl ⟨h.held, h.results⟩, h.ids, fun hn hq => absurd (h.idle hn) hq⟩

theorem held_of_idle (h : nd.currentAttempt = none) : nd.held = nd.queue.map QueuedOp.opId := by
  rw [held, attempting, h]
  rfl

theorem held_of_attempt {a : CurrentAttempt} (h : nd.currentAttempt = some a) :
    nd.held = a.origin.opId.toList ++ nd.queue.map QueuedOp.opId := by
  rw [held, attempting, h]
  rfl

theorem Started.goes {origin : AttemptOrigin} {command : Command} {leader : Option NodeId}
    (h : Started ctx nd sh origin command leader nd' sh' fx) :
    nd'.held = origin.opId.toList ++ nd.queue.map QueuedOp.opId ∧ sh'.results = sh.results ∧
      sh'.nextOpId = sh.nextOpId ∧ nd'.currentAttempt ≠ none := by
  obtain ⟨_, ⟨b, hb⟩, -⟩ := h.drives
  exact ⟨by rw [held_of_attempt hb, h.queue], by rw [h.shared], by rw [h.shared], by simp [hb]⟩

theorem beginNextAttempt_goes (hidle : nd.currentAttempt = none)
    (h : beginNextAttempt ctx nd sh = .ok (nd', sh', fx)) : Goes nd sh nd' sh' := by
  rcases beginNextAttempt_ok h with ⟨rfl, rfl, -, hq⟩ | ⟨op, queue, leader, -, hq, -, hs⟩
  · exact ⟨rfl, rfl, rfl, fun _ => hq hidle⟩
  · obtain ⟨hheld, hres, hids, hbusy⟩ := (startAttempt_moves hs).goes
    refine ⟨?_, hres, hids, fun hn => absurd hn hbusy⟩
    rw [hheld, held_of_idle hidle, hq]
    rfl

theorem beginCatchUp_goes (hidle : nd.currentAttempt = none) (h : beginCatchUp ctx nd sh = .ok (nd', sh', fx)) :
    Goes nd sh nd' sh' := by
  obtain ⟨hheld, hres, hids, hbusy⟩ := (beginCatchUp_moves hidle h).goes
  refine ⟨?_, hres, hids, fun hn => absurd hn hbusy⟩
  rw [hheld, held_of_idle hidle]
  rfl

/-- an attempt that ends completes its operation or returns it to the front of the queue -/
theorem finishAttempt_hands {decided : Command} (h : finishAttempt ctx nd sh decided = .ok (nd', sh', fx)) :
    (nd'.held = nd.held ∧ sh'.results = sh.results ∨
      ∃ id slot outcome, nd.held = id :: nd'.held ∧ sh'.results = (sh.complete id ctx.now slot outcome).results) ∧
    sh'.nextOpId = sh.nextOpId ∧ (nd'.currentAttempt = none → nd'.queue = []) := by
  obtain ⟨attempt, policy, ha, -, -, hnext⟩ := finishAttempt_ok h
  have hheld := held_of_attempt ha
  rcases hnext with ⟨id, ho, -, hb⟩ | ⟨id, ho, -, hb⟩ | ⟨ho, -, hb⟩ | ⟨ho, -, hb⟩
  · -- its own command was decided
    have hgoes := beginNextAttempt_goes rfl hb
    refine ⟨.inr ⟨id, attempt.slot, decided.outcome (nd.durable.kv.apply decided).2, ?_, ?_⟩, ?_, hgoes.idle⟩
    · rw [hgoes.held, hheld, ho, held_of_idle rfl]
      rfl
    · rw [hgoes.results, Smr.complete_policy]
    · rw [hgoes.ids, Smr.complete_policy]
      exact Smr.complete_nextOpId _ _ _ _ _
  · have hgoes := beginNextAttempt_goes rfl hb
    refine ⟨.inl ⟨?_, hgoes.results⟩, hgoes.ids, hgoes.idle⟩
    rw [hgoes.held, hheld, ho, held_of_idle rfl]
    rfl
  · have hgoes := beginNextAttempt_goes rfl hb
    refine ⟨.inl ⟨?_, hgoes.results⟩, hgoes.ids, hgoes.idle⟩
    rw [hgoes.held, hheld, ho, held_of_idle rfl]
    rfl
  · have hgoes := beginCatchUp_goes rfl hb
    refine ⟨.inl ⟨?_, hgoes.results⟩, hgoes.ids, hgoes.idle⟩
    rw [hgoes.held, hheld, ho, held_of_idle rfl]
    rfl

theorem Driven.held {attempt : CurrentAttempt} {p : Proposer Command} (h : nd.Driven attempt p nd')
    (ha : nd.currentAttempt = some attempt) : nd'.held = nd.held ∧ nd'.currentAttempt ≠ none := by
  obtain ⟨b, hb⟩ := h.drives
  exact ⟨by rw [held_of_attempt hb, held_of_attempt ha, h.queue], by simp [hb]⟩

theorem onRequest_hands {src : NodeId} {req : RecordRequest Command} (ctx : SmrCtx)
    (h : onRequest src req nd sh = .ok (nd', sh', fx)) : Hands ctx nd sh nd' sh' := by
  simp only [onRequest, Except.ok.injEq, Prod.mk.injEq] at h
  obtain ⟨rfl, rfl, -⟩ := h
  exact ⟨.inl ⟨rfl, rfl⟩, rfl, fun hn _ => ⟨hn, rfl⟩⟩

theorem onReply_hands {src : NodeId} {resp : RecordResponse Command}
    (h : onReply ctx src resp nd sh = .ok (nd', sh', fx)) : Hands ctx nd sh nd' sh' := by
  rcases onReply_ok h with ⟨rfl, rfl, -⟩ | ⟨attempt, p, fx₁, ha, -, -, hnext⟩
  · exact .refl _ _ _
  · obtain ⟨hheld, hbusy⟩ := (nd.driven_withAttempt attempt p).held ha
    rcases hnext with ⟨-, rfl, rfl, -⟩ | ⟨decided, fx₂, -, hfin, -⟩
    · exact ⟨.inl ⟨hheld, rfl⟩, rfl, fun hn => absurd hn hbusy⟩
    · obtain ⟨hhands, hids, hidle⟩ := finishAttempt_hands hfin
      rw [hheld] at hhands
      exact ⟨hhands, hids, fun hn hq => absurd (hidle hn) hq⟩

/-- the kickoff of a replica leaves it busy unless it has nothing to do -/
theorem kickoff_hands (h : onTimer ctx .kickoff nd sh = .ok (nd', sh', fx)) :
    Hands ctx nd sh nd' sh' ∧ (nd'.currentAttempt = none → nd'.queue = []) := by
  have hb : beginNextAttempt ctx nd sh = .ok (nd', sh', fx) := h
  cases hc : nd.currentAttempt with
  | none =>
    have hgoes := beginNextAttempt_goes hc hb
    exact ⟨hgoes.hands ctx, hgoes.idle⟩
  | some a =>
    rcases beginNextAttempt_ok hb with ⟨rfl, rfl, -, -⟩ | ⟨op, queue, leader, hnone, -⟩
    · exact ⟨.refl _ _ _, fun hn => by rw [hc] at hn; cases hn⟩
    · rw [hc] at hnone
      cases hnone

theorem onTimer_hands {id : TimerId} (h : onTimer ctx id nd sh = .ok (nd', sh', fx)) : Hands ctx nd sh nd' sh' := by
  rcases onTimer_ok h with ⟨rfl, rfl, -, -, -⟩ | ⟨rfl, -⟩ | ⟨attempt, generation, -, ha, ho, -, -, hb⟩ |
    ⟨attempt, p, -, -, ha, -, rfl, rfl⟩
  · exact .refl _ _ _
  · exact (kickoff_hands h).1
  · -- the attempt that is dropped served no operation
    obtain ⟨hheld, hres, hids, hbusy⟩ := (beginCatchUp_moves rfl hb).goes
    refine ⟨.inl ⟨?_, hres⟩, hids, fun hn => absurd hn hbusy⟩
    rw [hheld, held_of_attempt ha, ho]
  · obtain ⟨hheld, hbusy⟩ := (nd.driven_withAttempt attempt p).held ha
    exact ⟨.inl ⟨hheld, rfl⟩, rfl, fun hn => absurd hn hbusy⟩

/-- a restart drops every operation and leaves the replica busy -/
theorem onRestart_drops (h : onRestart ctx nd sh = .ok (nd', sh', fx)) :
    nd'.held = [] ∧ sh'.results = sh.results ∧ sh'.nextOpId = sh.nextOpId ∧ nd'.currentAttempt ≠ none :=
  (onRestart_moves h).goes

end SmrNode

namespace Smr

variable {w : Smr} {op : SmrOp} {i : NodeId} {nd nd' : SmrNode}

/-- what a callback does to the operations of its replica: it hands them on, or it is a restart and drops them -/
theorem Turn.hands {sh' : Shared} {fx : List (Effect SmrMsg)} {ev : List (TraceEvent SmrMsg)}
    (h : Turn w i nd op nd' sh' fx ev) :
    (∃ ctx, SmrNode.Hands ctx nd w.shared nd' sh') ∨
    (∃ rng, op = .env (.restart i rng)) ∧ nd'.held = [] ∧ sh'.results = w.shared.results ∧
      sh'.nextOpId = w.shared.nextOpId ∧ nd'.currentAttempt ≠ none := by
  cases h with
  | @request k rng _ _ _ _ _ _ hcall => exact .inl ⟨⟨i, 0, rng⟩, SmrNode.onRequest_hands _ hcall⟩
  | reply _ _ hcall => exact .inl ⟨_, SmrNode.onReply_hands hcall⟩
  | timer hcall => exact .inl ⟨_, SmrNode.onTimer_hands hcall⟩
  | restart hcall => exact .inr ⟨⟨_, rfl⟩, SmrNode.onRestart_drops hcall⟩

theorem complete_lookup (sh : Shared) (id : OpId) (now slot : ℕ) (outcome : OpOutcome) (j : OpId) :
    (sh.complete id now slot outcome).results.lookup j =
      if j = id then (sh.results.lookup id).map fun r =>
        { r with completedAt := some now, decidedSlot := some slot, outcome := some outcome }
      else sh.results.lookup j := by
  unfold Shared.complete
  cases hid : sh.results.lookup id with
  | none =>
    split_ifs with hj
    · rw [hj, hid]
      rfl
    · rfl
  | some r =>
    dsimp only
    split_ifs with hj
    · rw [hj, AList.lookup_insert]
      rfl
    · rw [AList.lookup_insert_ne hj]

/-! ## One place for each operation -/

/-- the operation has no completion yet -/
def Owed (w : Smr) (id : OpId) : Prop := ∃ r, w.shared.results.lookup id = some r ∧ r.completedAt = none

/-- the operation is among the completed results -/
def Completed (w : Smr) (id : OpId) : Prop := ∃ r, w.shared.results.lookup id = some r ∧ r.completedAt ≠ none

structure Custody (w : Smr) : Prop where
  owed : ∀ i nd id, w.nodes i = some nd → id ∈ nd.held → Owed w id
  once : ∀ i nd, w.nodes i = some nd → nd.held.Nodup
  apart : ∀ i j nd nd' id, i ≠ j → w.nodes i = some nd → w.nodes j = some nd' → id ∈ nd.held → id ∉ nd'.held
  known : ∀ id r, w.shared.results.lookup id = some r → id < w.shared.nextOpId

theorem Owed.not_completed {id : OpId} (h : Owed w id) : ¬ Completed w id := by
  rintro ⟨r, hr, hdone⟩
  obtain ⟨r', hr', hnone⟩ := h
  obtain rfl := Option.some.inj (hr.symm.trans hr')
  exact hdone hnone

/-- **What a step does to the operations of a replica**: they stay, one is submitted, one completes, or a restart drops
them all; and it does nothing to another replica's. -/
inductive Moves (w w' : Smr) (op : SmrOp) (i : NodeId) (nd nd' : SmrNode) : Prop where
  | stays (hheld : nd'.held = nd.held)
  | submits (hheld : nd'.held = nd.held ++ [w.shared.nextOpId]) (hop : ∃ c, op = .submit i c)
      (howed : Owed w' w.shared.nextOpId)
  | completes (id : OpId) (hheld : nd.held = id :: nd'.held)
      (hres : ∃ now slot outcome, w'.shared.results = (w.shared.complete id now slot outcome).results)
  | drops (hheld : nd'.held = []) (hop : ∃ rng, op = .env (.restart i rng))

/-- what a step does to the results: nothing, it adds a pending one, or it completes one that some replica held -/
inductive Results (w w' : Smr) : Prop where
  | same (hres : w'.shared.results = w.shared.results) (hids : w'.shared.nextOpId = w.shared.nextOpId)
  | adds (r : OpRecord) (hr : r.completedAt = none)
      (hres : w'.shared.results = w.shared.results.insert w.shared.nextOpId r)
      (hids : w'.shared.nextOpId = w.shared.nextOpId + 1)
  | completes (i : NodeId) (nd nd' : SmrNode) (id : OpId) (hnd : w.nodes i = some nd) (hnd' : w'.nodes i = some nd')
      (hheld : nd.held = id :: nd'.held)
      (hres : ∃ now slot outcome, w'.shared.results = (w.shared.complete id now slot outcome).results)
      (hids : w'.shared.nextOpId = w.shared.nextOpId)

theorem results_cases (w : Smr) (op : SmrOp) : Results w (step w op) := by
  rcases step_cases w op with hstill | ⟨i, nd, c, rfl, hsub⟩ | ⟨i, nd, nd', sh', fx, ev, hnd, hturn, htd⟩
  · exact .same (by rw [hstill.shared]) (by rw [hstill.shared])
  · exact .adds ⟨i, c, w.shared.nextInvokedAt w.now, none, none, none⟩ rfl (by rw [hsub.shared]; rfl)
      (by rw [hsub.shared])
  · rcases Turn.hands hturn with ⟨ctx, hh⟩ | ⟨-, -, hres, hids, -⟩
    · rcases hh.held with ⟨-, hres⟩ | ⟨id, slot, outcome, hheld, hres⟩
      · exact .same (by rw [htd.shared]; exact hres) (by rw [htd.shared]; exact hh.ids)
      · exact .completes i nd nd' id hnd (by rw [htd.nodes, Function.update_self]) hheld
          ⟨ctx.now, slot, outcome, by rw [htd.shared]; exact hres⟩ (by rw [htd.shared]; exact hh.ids)
    · exact .same (by rw [htd.shared]; exact hres) (by rw [htd.shared]; exact hids)

theorem moves_cases (hnd : w.nodes i = some nd) (hnd' : (step w op).nodes i = some nd') :
    Moves w (step w op) op i nd nd' := by
  rcases step_cases w op with hstill | ⟨j, nd₀, c, rfl, hsub⟩ | ⟨j, nd₀, nd₁, sh', fx, ev, hnd₀, hturn, htd⟩
  · rw [hstill.nodes, hnd] at hnd'
    obtain rfl := Option.some.inj hnd'
    exact .stays rfl
  · rw [hsub.nodes] at hnd'
    by_cases hi : i = j
    · subst hi
      obtain rfl := Option.some.inj (hnd.symm.trans hsub.node)
      rw [Function.update_self] at hnd'
      obtain rfl := Option.some.inj hnd'
      refine .submits ?_ ⟨c, rfl⟩ ⟨⟨i, c, w.shared.nextInvokedAt w.now, none, none, none⟩, ?_, rfl⟩
      · simp [SmrNode.held, SmrNode.attempting]
      · rw [hsub.shared]
        exact AList.lookup_insert _
    · rw [Function.update_of_ne hi, hnd] at hnd'
      obtain rfl := Option.some.inj hnd'
      exact .stays rfl
  · rw [htd.nodes] at hnd'
    by_cases hi : i = j
    · subst hi
      obtain rfl := Option.some.inj (hnd.symm.trans hnd₀)
      rw [Function.update_self] at hnd'
      obtain rfl := Option.some.inj hnd'
      rcases Turn.hands hturn with ⟨ctx, hh⟩ | ⟨hop, hheld, -⟩
      · rcases hh.held with ⟨hheld, -⟩ | ⟨id, slot, outcome, hheld, hres⟩
        · exact .stays hheld
        · exact .completes id hheld ⟨ctx.now, slot, outcome, by rw [htd.shared]; exact hres⟩
      · exact .drops hheld hop
    · rw [Function.update_of_ne hi, hnd] at hnd'
      obtain rfl := Option.some.inj hnd'
      exact .stays rfl

/-- an operation held after a step was held there before, or was just submitted there and is owed -/
theorem held_back (hnd : w.nodes i = some nd) (hnd' : (step w op).nodes i = some nd') {id : OpId}
    (hid : id ∈ nd'.held) :
    id ∈ nd.held ∨ id = w.shared.nextOpId ∧ (∃ c, op = .submit i c) ∧ Owed (step w op) w.shared.nextOpId := by
  cases moves_cases hnd hnd' with
  | stays hheld => exact .inl (hheld ▸ hid)
  | submits hheld hop howed =>
    rw [hheld] at hid
    rcases List.mem_append.1 hid with hid | hid
    · exact .inl hid
    · exact .inr ⟨List.mem_singleton.1 hid, hop, howed⟩
  | completes _ hheld _ => exact .inl (by rw [hheld]; exact List.mem_cons_of_mem _ hid)
  | drops hheld _ => rw [hheld] at hid; exact absurd hid (by simp)

theorem Custody.fresh (h : Custody w) : w.shared.results.lookup w.shared.nextOpId = none := by
  cases hl : w.shared.results.lookup w.shared.nextOpId with
  | none => rfl
  | some r => exact absurd (h.known _ r hl) (lt_irrefl _)

/-- what a replica holds before and after a step stays owed -/
theorem Custody.owed_step (h : Custody w) (hnd : w.nodes i = some nd) (hnd' : (step w op).nodes i = some nd')
    {id : OpId} (hid : id ∈ nd.held) (hid' : id ∈ nd'.held) : Owed (step w op) id := by
  obtain ⟨r, hr, hnone⟩ := h.owed i nd id hnd hid
  cases results_cases w op with
  | same hres _ => exact ⟨r, by rw [hres]; exact hr, hnone⟩
  | adds r' _ hres _ =>
    have hne : id ≠ w.shared.nextOpId := fun heq => by
      rw [heq, h.fresh] at hr
      cases hr
    exact ⟨r, by rw [hres, AList.lookup_insert_ne hne]; exact hr, hnone⟩
  | completes j nd₀ nd₁ id₀ hnd₀ hnd₁ hheld hres _ =>
    obtain ⟨now, slot, outcome, hres⟩ := hres
    -- the operation that completes leaves the only replica that held it
    have hne : id ≠ id₀ := by
      rintro rfl
      have hmem : id ∈ nd₀.held := by rw [hheld]; exact List.mem_cons_self
      by_cases hi : i = j
      · subst hi
        obtain rfl := Option.some.inj (hnd₁.symm.trans hnd')
        have hnodup := h.once i nd₀ hnd₀
        rw [hheld] at hnodup
        exact (List.nodup_cons.1 hnodup).1 hid'
      · exact h.apart i j nd nd₀ id hi hnd hnd₀ hid hmem
    exact ⟨r, by rw [hres, complete_lookup, if_neg hne]; exact hr, hnone⟩

theorem Custody.held_lt (h : Custody w) (hnd : w.nodes i = some nd) {id : OpId} (hid : id ∈ nd.held) :
    id < w.shared.nextOpId := by
  obtain ⟨r, hr, -⟩ := h.owed i nd id hnd hid
  exact h.known id r hr

/-- **Step lemma.** -/
theorem custody_step (h : Custody w) (op : SmrOp) : Custody (step w op) where
  owed := fun i nd' id hnd' hid' => by
    obtain ⟨nd, hnd⟩ := node_back hnd'
    rcases held_back hnd hnd' hid' with hid | ⟨rfl, -, howed⟩
    · exact h.owed_step hnd hnd' hid hid'
    · exact howed
  once := fun i nd' hnd' => by
    obtain ⟨nd, hnd⟩ := node_back hnd'
    have hnodup := h.once i nd hnd
    cases moves_cases hnd hnd' with
    | stays hheld => rwa [hheld]
    | submits hheld _ _ =>
      rw [hheld, List.nodup_append]
      refine ⟨hnodup, List.nodup_singleton _, fun a ha b hb => ?_⟩
      rw [List.mem_singleton.1 hb]
      exact (h.held_lt hnd ha).ne
    | completes id hheld _ =>
      rw [hheld] at hnodup
      exact (List.nodup_cons.1 hnodup).2
    | drops hheld _ => rw [hheld]; exact .nil
  apart := fun i j nd₁' nd₂' id hij hnd₁' hnd₂' hid₁ hid₂ => by
    obtain ⟨nd₁, hnd₁⟩ := node_back hnd₁'
    obtain ⟨nd₂, hnd₂⟩ := node_back hnd₂'
    rcases held_back hnd₁ hnd₁' hid₁ with h₁ | ⟨rfl, ⟨c, hc⟩, -⟩
    · rcases held_back hnd₂ hnd₂' hid₂ with h₂ | ⟨rfl, -⟩
      · exact h.apart i j nd₁ nd₂ id hij hnd₁ hnd₂ h₁ h₂
      · exact absurd (h.held_lt hnd₁ h₁) (lt_irrefl _)
    · rcases held_back hnd₂ hnd₂' hid₂ with h₂ | ⟨-, ⟨d, hd⟩, -⟩
      · exact absurd (h.held_lt hnd₂ h₂) (lt_irrefl _)
      · rw [hc] at hd
        simp only [SmrOp.submit.injEq] at hd
        exact hij hd.1
  known := fun id r hr => by
    cases results_cases w op with
    | same hres hids =>
      rw [hres] at hr
      rw [hids]
      exact h.known id r hr
    | adds r' _ hres hids =>
      rw [hres] at hr
      rw [hids]
      by_cases hid : id = w.shared.nextOpId
      · rw [hid]
        exact Nat.lt_succ_self _
      · rw [AList.lookup_insert_ne hid] at hr
        exact (h.known id r hr).trans (Nat.lt_succ_self _)
    | completes j nd₀ nd₁ id₀ hnd₀ _ hheld hres hids =>
      obtain ⟨now, slot, outcome, hres⟩ := hres
      rw [hres, complete_lookup] at hr
      rw [hids]
      split_ifs at hr with hid
      · rw [hid]
        exact h.held_lt hnd₀ (by rw [hheld]; exact List.mem_cons_self)
      · exact h.known id r hr

theorem custody_cluster (s : Setup) : Custody s.cluster := by
  have hheld : ∀ i nd, s.cluster.nodes i = some nd → nd.held = [] := fun i nd hnd => by rw [cluster_node hnd]; rfl
  have hnone : ∀ id, s.cluster.shared.results.lookup id = none := fun id => by cases s <;> rfl
  exact
    { owed := fun i nd id hnd hid => by rw [hheld i nd hnd] at hid; exact absurd hid (by simp)
      once := fun i nd hnd => by rw [hheld i nd hnd]; exact .nil
      apart := fun i j nd nd' id _ hnd _ hid => by rw [hheld i nd hnd] at hid; exact absurd hid (by simp)
      known := fun id r hr => by rw [hnone] at hr; cases hr }

/-- **Run lemma.** -/
theorem custody_run (s : Setup) (ops : List SmrOp) : Custody (s.cluster.run ops) :=
  Runs.run_invariant (I := Custody) (fun _ op h _ => custody_step h op) (custody_cluster s) (Runs.along_true step _ ops)

/-- a completed result is final -/
theorem completed_step (h : Custody w) (op : SmrOp) {id : OpId} {r : OpRecord}
    (hr : w.shared.results.lookup id = some r) (hdone : r.completedAt ≠ none) :
    (step w op).shared.results.lookup id = some r := by
  cases results_cases w op with
  | same hres _ => rw [hres]; exact hr
  | adds r' _ hres _ =>
    rw [hres, AList.lookup_insert_ne]
    · exact hr
    · intro heq
      exact absurd (h.known id r hr) (by rw [heq]; exact lt_irrefl _)
  | completes j nd₀ nd₁ id₀ hnd₀ _ hheld hres _ =>
    obtain ⟨now, slot, outcome, hres⟩ := hres
    rw [hres, complete_lookup, if_neg]
    · exact hr
    · rintro rfl
      exact (h.owed j nd₀ id hnd₀ (by rw [hheld]; exact List.mem_cons_self)).not_completed ⟨r, hr, hdone⟩

/-- the operation is at replica `i` or has completed -/
def Kept (w : Smr) (i : NodeId) (id : OpId) : Prop :=
  (∃ nd, w.nodes i = some nd ∧ id ∈ nd.held) ∨ Completed w id

/-- only a restart of its replica makes an operation vanish -/
theorem kept_step (h : Custody w) {id : OpId} (hk : Kept w i id) (hop : ∀ rng, op ≠ .env (.restart i rng)) :
    Kept (step w op) i id := by
  rcases hk with ⟨nd, hnd, hid⟩ | ⟨r, hr, hdone⟩
  · obtain ⟨nd', hnd'⟩ := node_stays hnd op
    cases moves_cases hnd hnd' with
    | stays hheld => exact .inl ⟨nd', hnd', by rw [hheld]; exact hid⟩
    | submits hheld _ _ => exact .inl ⟨nd', hnd', by rw [hheld]; exact List.mem_append_left _ hid⟩
    | completes id₀ hheld hres =>
      rw [hheld] at hid
      rcases List.mem_cons.1 hid with rfl | hid
      · obtain ⟨now, slot, outcome, hres⟩ := hres
        obtain ⟨r, hr, -⟩ := h.owed i nd id hnd (by rw [hheld]; exact List.mem_cons_self)
        exact .inr ⟨_, by rw [hres, complete_lookup, if_pos rfl, hr]; rfl, by simp⟩
      · exact .inl ⟨nd', hnd', hid⟩
    | drops _ hop' =>
      obtain ⟨rng, hop'⟩ := hop'
      exact absurd hop' (hop rng)
  · exact .inr ⟨r, completed_step h op hr hdone, hdone⟩

theorem kept_run {ops : List SmrOp} (h : Custody w) {id : OpId} (hk : Kept w i id)
    (hops : ∀ op ∈ ops, ∀ rng, op ≠ .env (.restart i rng)) : Kept (w.run ops) i id := by
  let I : Smr → Prop := fun w => Custody w ∧ Kept w i id
  have hI : I (w.run ops) := Runs.run_invariant (I := I)
    (fun w op ⟨hc, hk⟩ hop => ⟨custody_step hc op, kept_step hc hk (hops op hop)⟩) ⟨h, hk⟩ (Runs.along_mem step w ops)
  exact hI.2

end Smr

/-! ## Waking up -/

namespace Smr

variable {w : Smr} {op : SmrOp} {i : NodeId} {nd nd' : SmrNode}

/-- a kickoff is pending at replica `i` -/
def Kicked (w : Smr) (i : NodeId) : Prop := ∃ t ∈ w.timers, t.node = i ∧ t.id = .kickoff

/-- a live replica that is idle with a queue has a kickoff pending -/
def Wakeful (w : Smr) : Prop := ∀ i nd, w.nodes i = some nd → w.crashed i = false → nd.currentAttempt = none →
  nd.queue ≠ [] → Kicked w i

/-- a run that has not panicked never did -/
theorem step_panicked (h : (step w op).panicked = none) : w.panicked = none := by
  cases hp : w.panicked with
  | none => rfl
  | some e =>
    have hsame : step w op = w := by
      cases op with
      | env op =>
        show w.env SmrNode.behaviour op = w
        unfold World.env
        rw [if_pos (by simp [hp])]
      | submit j c => rw [step, if_pos (by simp [hp])]
    rw [hsame, hp] at h
    cases h

theorem run_panicked {ops : List SmrOp} (h : (w.run ops).panicked = none) : w.panicked = none := by
  induction ops generalizing w with
  | nil => exact h
  | cons op ops ih => exact step_panicked (ih h)

/-- what an accepted submission leaves -/
theorem submit_spec {j : NodeId} {c : Command} (hok : (step w (.submit j c)).panicked = none) :
    ∃ nd, w.nodes j = some nd ∧
      (step w (.submit j c)).nodes =
        Function.update w.nodes j (some { nd with queue := nd.queue ++ [⟨w.shared.nextOpId, c⟩] }) ∧
      (step w (.submit j c)).crashed = w.crashed ∧
      (∀ t ∈ w.timers, t ∈ (step w (.submit j c)).timers) ∧
      (nd.queue = [] → Kicked (step w (.submit j c)) j) := by
  have hp := step_panicked hok
  rw [step, if_neg (by simp [hp])] at hok ⊢
  unfold submit at hok ⊢
  split_ifs at hok ⊢ with hc
  cases hn : w.nodes j with
  | none => rw [hn] at hok; exact absurd hok (by simp)
  | some nd =>
    refine ⟨nd, rfl, ?_⟩
    dsimp only [SmrNode.enqueue]
    split_ifs with hkick
    · exact ⟨rfl, rfl, fun t ht => List.mem_append_left _ ht,
        fun _ => ⟨_, List.mem_append_right _ List.mem_cons_self, rfl, rfl⟩⟩
    · refine ⟨rfl, rfl, fun t ht => ht, fun hq => ?_⟩
      rw [hq] at hkick
      exact absurd rfl (of_decide_eq_false (Bool.eq_false_iff.2 hkick))

/-- a replica that an environment step leaves idle with a queue was so before, and was not just restarted -/
theorem idle_before {op : EnvOp (NodeId → Draw)} (hok : (step w (.env op)).panicked = none)
    (hnd : w.nodes i = some nd) (hnd' : (step w (.env op)).nodes i = some nd') (hidle : nd'.currentAttempt = none)
    (hq : nd'.queue ≠ []) : nd.currentAttempt = none ∧ nd.queue ≠ [] ∧ ∀ rng, op ≠ .restart i rng := by
  have hrestart : ∀ rng, op ≠ .restart i rng := by
    rintro rng rfl
    have hp := step_panicked hok
    have hstep : step w (.env (.restart i rng)) = w.restartNode SmrNode.behaviour i rng := by
      show w.env SmrNode.behaviour (.restart i rng) = _
      unfold World.env
      rw [if_neg (by simp [hp])]
    rw [hstep] at hok hnd'
    unfold World.restartNode at hok hnd'
    dsimp only at hok hnd'
    rw [hnd] at hok hnd'
    dsimp only at hok hnd'
    cases ho : SmrNode.onRestart ⟨i, w.now, rng⟩ nd w.shared with
    | error e =>
      have hb : SmrNode.behaviour.onRestart ⟨i, w.now, rng⟩ nd w.shared = .error e := ho
      rw [hb] at hok
      exact absurd hok (by simp [World.perform])
    | ok r =>
      obtain ⟨nd₁, sh₁, fx₁⟩ := r
      have hb : SmrNode.behaviour.onRestart ⟨i, w.now, rng⟩ nd w.shared = .ok (nd₁, sh₁, fx₁) := ho
      rw [hb] at hnd'
      obtain rfl : nd₁ = nd' := by simpa [World.perform] using hnd'
      exact (SmrNode.onRestart_drops ho).2.2.2 hidle
  rcases step_cases w (.env op) with hstill | ⟨j, nd₀, c, heq, -⟩ | ⟨j, nd₀, nd₁, sh', fx, ev, hnd₀, hturn, htd⟩
  · rw [hstill.nodes, hnd] at hnd'
    obtain rfl := Option.some.inj hnd'
    exact ⟨hidle, hq, hrestart⟩
  · cases heq
  · rw [htd.nodes] at hnd'
    by_cases hi : i = j
    · subst hi
      obtain rfl := Option.some.inj (hnd.symm.trans hnd₀)
      rw [Function.update_self] at hnd'
      obtain rfl := Option.some.inj hnd'
      rcases Turn.hands hturn with ⟨ctx, hh⟩ | ⟨⟨rng, hop⟩, -⟩
      · obtain ⟨hn, hsame⟩ := hh.idle hidle hq
        exact ⟨hn, hsame ▸ hq, hrestart⟩
      · exact absurd (SmrOp.env.inj hop) (hrestart rng)
    · rw [Function.update_of_ne hi, hnd] at hnd'
      obtain rfl := Option.some.inj hnd'
      exact ⟨hidle, hq, hrestart⟩

/-- **Step lemma.** No step leaves a live replica idle with a queue and nothing to wake it. -/
theorem wakeful_step (h : Wakeful w) (hop : ∀ k, op ≠ .env (.dropTimer k)) (hok : (step w op).panicked = none) :
    Wakeful (step w op) := by
  intro i nd' hnd' hup' hidle' hq'
  cases op with
  | submit j c =>
    obtain ⟨nd₀, hnd₀, hnodes, hcrashed, htimers, hkick⟩ := submit_spec hok
    have hkept : Kicked w i → Kicked (step w (.submit j c)) i := fun ⟨t, ht, hti⟩ => ⟨t, htimers t ht, hti⟩
    rw [hnodes] at hnd'
    rw [hcrashed] at hup'
    by_cases hi : i = j
    · subst hi
      rw [Function.update_self] at hnd'
      obtain rfl := Option.some.inj hnd'
      by_cases hempty : nd₀.queue = []
      · exact hkick hempty
      · exact hkept (h i nd₀ hnd₀ hup' hidle' hempty)
    · rw [Function.update_of_ne hi] at hnd'
      exact hkept (h i nd' hnd' hup' hidle' hq')
  | env op =>
    obtain ⟨nd, hnd⟩ := node_back hnd'
    obtain ⟨hidle, hq, hrestart⟩ := idle_before hok hnd hnd' hidle' hq'
    have hup : w.crashed i = false := by
      rcases World.env_up SmrNode.behaviour hnd hok hup' with hup | ⟨rng, heq⟩
      · exact hup
      · exact absurd heq (hrestart rng)
    obtain ⟨t, ht, rfl, hid⟩ := h i nd hnd hup hidle hq
    rcases World.env_timer SmrNode.behaviour ht hnd hup (fun k heq => hop k (by rw [heq])) hok with
      hstay | ⟨rng, nd₁, sh₁, fx₁, hcall, hnd₁⟩
    · exact ⟨t, hstay, rfl, hid⟩
    · -- the kickoff fired, so the replica is busy or its queue is empty
      rw [hid] at hcall
      obtain rfl := Option.some.inj (hnd₁.symm.trans hnd')
      exact absurd ((SmrNode.kickoff_hands hcall).2 hidle') hq'

/-- **Run lemma.** -/
theorem wakeful_run (s : Setup) (ops : List SmrOp) (hops : ∀ op ∈ ops, ∀ k, op ≠ .env (.dropTimer k))
    (hok : (s.cluster.run ops).panicked = none) : Wakeful (s.cluster.run ops) := by
  let I : Smr → Prop := fun w => w.panicked = none → Wakeful w
  have hinit : I s.cluster := fun _ i nd hnd _ _ hq => absurd (by rw [cluster_node hnd]; rfl) hq
  have hrun : I (s.cluster.run ops) := Runs.run_invariant (I := I)
    (fun w op h hop hok => wakeful_step (h (step_panicked hok)) (hops op hop) hok) hinit (Runs.along_mem step _ ops)
  exact hrun hok

/-! ## Nothing is lost, duplicated or stranded -/

/-- the operation is queued at the replica, in flight there, or completed, and only one of these -/
structure InCustody (w : Smr) (nd : SmrNode) (id : OpId) : Prop where
  somewhere : id ∈ nd.queue.map QueuedOp.opId ∨ nd.attempting = some id ∨ Completed w id
  queued : id ∈ nd.queue.map QueuedOp.opId →
    (nd.queue.map QueuedOp.opId).count id = 1 ∧ nd.attempting ≠ some id ∧ ¬ Completed w id
  inFlight : nd.attempting = some id → ¬ Completed w id

theorem inCustody_of_kept (h : Custody w) (hnd : w.nodes i = some nd) {id : OpId} (hk : Kept w i id) :
    InCustody w nd id := by
  have howed : id ∈ nd.held → ¬ Completed w id := fun hid => (h.owed i nd id hnd hid).not_completed
  have hnodup := h.once i nd hnd
  rw [SmrNode.held, List.nodup_append] at hnodup
  obtain ⟨-, hqueue, happart⟩ := hnodup
  refine ⟨?_, fun hq => ⟨List.count_eq_one_of_mem hqueue hq, fun ha => ?_, howed (List.mem_append_right _ hq)⟩,
    fun ha => howed (List.mem_append_left _ (by simp [ha]))⟩
  · rcases hk with ⟨nd', hnd', hid⟩ | hdone
    · obtain rfl := Option.some.inj (hnd.symm.trans hnd')
      rcases List.mem_append.1 hid with hid | hid
      · exact .inr (.inl (by simpa using hid))
      · exact .inl hid
    · exact .inr (.inr hdone)
  · exact happart id (by simp [ha]) id hq rfl

/-- **No operation is lost, duplicated or stranded at a live replica**, in any run that loses no pending timer: every
operation submitted to it since its last restart is in one place, a queue never waits without an attempt or a kickoff,
the attempt is at the frontier, the frontier is the length of the log, and the store is what the log makes. -/
theorem operations_in_custody (s : Setup) (ops : List SmrOp) (hops : ∀ op ∈ ops, ∀ k, op ≠ .env (.dropTimer k))
    (hok : (s.cluster.run ops).panicked = none) {i : NodeId} {nd : SmrNode}
    (hnd : (s.cluster.run ops).nodes i = some nd) (hup : (s.cluster.run ops).crashed i = false) :
    (∀ before c after, ops = before ++ .submit i c :: after → (∀ op ∈ after, ∀ rng, op ≠ .env (.restart i rng)) →
      InCustody (s.cluster.run ops) nd (s.cluster.run before).shared.nextOpId) ∧
    (nd.queue ≠ [] → nd.currentAttempt = none → Kicked (s.cluster.run ops) i) ∧
    (∀ a, nd.currentAttempt = some a → a.slot = nd.durable.nextSlot) ∧
    nd.durable.nextSlot = nd.durable.appliedLog.length ∧
    nd.durable.kv = Kv.replay nd.durable.appliedLog := by
  have hsane := sane_run s ops
  refine ⟨?_, fun hq hidle => wakeful_run s ops hops hok i nd hnd hup hidle hq,
    fun a ha => (hsane.live i nd a hnd ha).frontier, (hsane.length i nd hnd).symm, hsane.kv i nd hnd⟩
  rintro before c after rfl hrestart
  have hsplit : s.cluster.run (before ++ .submit i c :: after) =
      (step (s.cluster.run before) (.submit i c)).run after :=
    Runs.run_append step s.cluster before (.submit i c :: after)
  rw [hsplit] at hnd hok ⊢
  have hcust := custody_run s before
  have hcust' : Custody (step (s.cluster.run before) (.submit i c)) := custody_step hcust _
  -- the submission was accepted, so its operation was queued
  have hok' : (step (s.cluster.run before) (.submit i c)).panicked = none := run_panicked hok
  obtain ⟨nd₀, -, hnodes, -⟩ := submit_spec hok'
  have hkept : Kept (step (s.cluster.run before) (.submit i c)) i (s.cluster.run before).shared.nextOpId := by
    refine .inl ⟨_, by rw [hnodes, Function.update_self], ?_⟩
    exact List.mem_append_right _ (by simp)
  refine inCustody_of_kept ?_ hnd (kept_run hcust' hkept hrestart)
  rw [← hsplit]
  exact custody_run s _

/-- a write in flight and a read behind it, at the leader -/
def oneInFlight : List SmrOp := [.submit 0 (.put 0 1 0 10), .submit 0 (.get 1 1 0), wait 1, fire 0 1]

theorem operations_in_custody_oneInFlight :
    ∃ nd, ((Setup.leader 3 (some 0)).cluster.run oneInFlight).nodes 0 = some nd ∧
      InCustody ((Setup.leader 3 (some 0)).cluster.run oneInFlight) nd 0 ∧
      InCustody ((Setup.leader 3 (some 0)).cluster.run oneInFlight) nd 1 ∧
      nd.durable.nextSlot = nd.durable.appliedLog.length := by
  obtain ⟨nd, hnd⟩ := Option.isSome_iff_exists.1
    (show (((Setup.leader 3 (some 0)).cluster.run oneInFlight).nodes 0).isSome = true by decide +kernel)
  have hops : ∀ op ∈ oneInFlight, ∀ k, op ≠ .env (.dropTimer k) := by simp [oneInFlight, wait, fire]
  obtain ⟨hplace, -, -, hlen, -⟩ := operations_in_custody (.leader 3 (some 0)) oneInFlight hops (by decide +kernel) hnd
    (by decide +kernel)
  refine ⟨nd, hnd, hplace [] (.put 0 1 0 10) _ rfl ?_, hplace [.submit 0 (.put 0 1 0 10)] (.get 1 1 0) _ rfl ?_, hlen⟩
  · simp [wait, fire]
  · simp [wait, fire]

end Smr

end Queso
