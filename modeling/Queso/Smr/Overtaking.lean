/-
When a later command of a client cannot overtake an earlier one.

A replica serves its queue in order, so two operations of one client can only change places when two replicas hold them at
once. `Alone` is the condition that no submission makes it so: no other replica has an operation of the client queued or
in flight. Then an operation that a replica still holds has every later one of its client behind it (`InLine.behind`), and
where a command moves at all, no later one of its client was decided before (`Led`).

- `inLine_step`: with increasing numbers for each client and every submission alone, each covered step keeps the replicas
  in line, whatever crashes and restarts.
- `InLine.no_overtaking`: a command that is in line is applied before every later one of its client.
-/
import Queso.Smr.Custody
import Queso.Smr.Linearizable

namespace Queso

/-- the commands that a replica owes its clients, in the order of `held` -/
def SmrNode.owing (nd : SmrNode) : List Command :=
  (nd.currentAttempt.bind fun a => a.origin.opId.map fun _ => a.command).toList ++ nd.queue.map QueuedOp.command

namespace Smr

variable {n : ℕ} {w : Smr} {op : SmrOp} {i : NodeId} {nd nd' : SmrNode} {id id' : OpId} {c d : Command} {k : ℕ}

/-! ## The conditions of a submission -/

/-- a submission has a greater number than all that its client submitted before -/
def Numbered (w : Smr) : SmrOp → Prop
  | .submit _ c => ∀ d, Invoked w d → d.client = c.client → d.seq < c.seq
  | .env _ => True

/-- no other replica has an operation of the client queued or in flight -/
def Alone (w : Smr) : SmrOp → Prop
  | .submit i c => ∀ j nd, j ≠ i → w.nodes j = some nd → ∀ d ∈ nd.owing, d.client ≠ c.client
  | .env _ => True

/-- `id'` is a later operation of the client that submitted `id` -/
def Later (w : Smr) (id id' : OpId) : Prop :=
  ∃ c d, InvokedAs w id c ∧ InvokedAs w id' d ∧ c.client = d.client ∧ id < id'

/-- the operation `id` of `c` has left its queue, and a replica has come to slot `k` without any later command of the
client -/
structure Led (w : Smr) (k : ℕ) (c : Command) (id : OpId) (i : NodeId) (nd : SmrNode) : Prop where
  op : InvokedAs w id c
  left : ∀ j ndj, w.nodes j = some ndj → id ∉ ndj.queue.map QueuedOp.opId
  node : w.nodes i = some nd
  reached : k ≤ nd.durable.nextSlot
  first : ∀ id' d, Later w id id' → InvokedAs w id' d → d ∉ nd.durable.appliedLog.take k

/-- what may move in slot `k` -/
def MayLead (w : Smr) (k : ℕ) (c : Command) : Prop := c = catchUpProbe k ∨ ∃ id i nd, Led w k c id i nd

structure InLine (n : ℕ) (w : Smr) : Prop where
  sane : Sane n w
  spread : Spread n w
  custody : Custody w
  clients : Clients w
  numbers : ∀ id id' c d, InvokedAs w id c → InvokedAs w id' d → c.client = d.client → id < id' → c.seq < d.seq
  fifo : ∀ i nd, w.nodes i = some nd → nd.held.Pairwise (· < ·)
  behind : ∀ i nd id id', w.nodes i = some nd → id ∈ nd.held → Later w id id' → id' ∈ nd.held
  leads : Arena.Carries (MayLead w) (view w)

/-! ## Operations and their commands -/

theorem Clients.unique (h : Clients w) (hc : InvokedAs w id c) (hd : InvokedAs w id d) : c = d := by
  obtain ⟨-, r, hr, hrc⟩ := h.known id c hc
  obtain ⟨-, r', hr', hrd⟩ := h.known id d hd
  obtain rfl := Option.some.inj (hr.symm.trans hr')
  rw [← hrc, hrd]

/-- a command is submitted once -/
theorem InLine.once (h : InLine n w) (hc : InvokedAs w id c) (hc' : InvokedAs w id' c) : id = id' := by
  rcases lt_trichotomy id id' with hlt | heq | hlt
  · exact absurd (h.numbers id id' c c hc hc' rfl hlt) (lt_irrefl _)
  · exact heq
  · exact absurd (h.numbers id' id c c hc' hc rfl hlt) (lt_irrefl _)

/-- what a step adds to the submissions, with its operation -/
theorem invokedAs_cases (h : InvokedAs (step w op) id c) :
    InvokedAs w id c ∨ id = w.shared.nextOpId ∧ ∃ i nd, op = .submit i c ∧ Submitted w (step w op) i nd c := by
  unfold InvokedAs at h
  rcases step_cases w op with hstill | ⟨i, nd, d, rfl, hsub⟩ | ⟨i, nd, nd', sh', fx, ev, hnd, hturn, htd⟩
  · rw [hstill.shared] at h
    exact .inl h
  · have hhist : (step w (.submit i d)).shared.history = w.shared.history ++ [.invoked w.shared.nextOpId d] := by
      rw [hsub.shared]
      rfl
    rw [hhist] at h
    rcases List.mem_append.1 h with h | h
    · exact .inl h
    · have heq := List.mem_singleton.1 h
      simp only [ClientEvent.invoked.injEq] at heq
      obtain ⟨rfl, rfl⟩ := heq
      exact .inr ⟨rfl, i, nd, rfl, hsub⟩
  · rw [htd.shared] at h
    rcases Turn.history hturn with hsame | ⟨id', d, k, out, hsnoc⟩
    · rw [hsame] at h
      exact .inl h
    · rw [hsnoc] at h
      rcases List.mem_append.1 h with h | h
      · exact .inl h
      · exact absurd (List.mem_singleton.1 h) (by simp)

/-- a later operation of a client was a later one before, or it has just been submitted -/
theorem later_cases (h : Clients w) (hl : Later (step w op) id id') :
    Later w id id' ∨ id' = w.shared.nextOpId ∧ ∃ c d i nd, InvokedAs w id c ∧ c.client = d.client ∧
      op = .submit i d ∧ Submitted w (step w op) i nd d := by
  obtain ⟨c, d, hc, hd, hclient, hlt⟩ := hl
  rcases invokedAs_cases hd with hd | ⟨rfl, i, nd, hop, hsub⟩
  · rcases invokedAs_cases hc with hc | ⟨rfl, -⟩
    · exact .inl ⟨c, d, hc, hd, hclient, hlt⟩
    · exact absurd ((h.known id' d hd).1.trans hlt) (lt_irrefl _)
  · rcases invokedAs_cases hc with hc | ⟨rfl, -⟩
    · exact .inr ⟨rfl, c, d, i, nd, hc, hclient, hop, hsub⟩
    · exact absurd hlt (lt_irrefl _)

/-- what a replica holds is among what it owes -/
theorem owing_of_held (h : Sane n w) (hnd : w.nodes i = some nd) (hid : id ∈ nd.held) :
    ∃ c ∈ nd.owing, InvokedAs w id c := by
  unfold SmrNode.held at hid
  rcases List.mem_append.1 hid with hid | hid
  · unfold SmrNode.attempting at hid
    cases ha : nd.currentAttempt with
    | none => rw [ha] at hid; cases hid
    | some a =>
      rw [ha] at hid
      have horigin : a.origin = .op id := by
        cases ho : a.origin with
        | op oid =>
          rw [Option.bind_some, ho] at hid
          have heq : id = oid := by simpa [AttemptOrigin.opId] using hid
          rw [heq]
        | catchUp =>
          rw [Option.bind_some, ho] at hid
          cases hid
      refine ⟨a.command, ?_, (h.live i nd a hnd ha).op id horigin⟩
      unfold SmrNode.owing
      rw [ha, Option.bind_some, horigin]
      exact List.mem_append_left _ (List.mem_singleton_self _)
  · obtain ⟨o, ho, rfl⟩ := List.mem_map.1 hid
    exact ⟨o.command, List.mem_append_right _ (List.mem_map_of_mem ho), h.queued i nd o hnd ho⟩

/-! ## Queues -/

theorem Turn.queue_of_restart {sh' : Shared} {fx : List (Effect SmrMsg)} {ev : List (TraceEvent SmrMsg)}
    (ht : Turn w i nd op nd' sh' fx ev) (hop : restarted op = some i) : nd'.queue = [] := by
  cases ht with
  | request => cases hop
  | reply => cases hop
  | timer => cases hop
  | restart hcall => exact (SmrNode.onRestart_moves hcall).queue

/-- the operation in flight does not go back to the queue -/
theorem Turn.attempt_not_queued {sh' : Shared} {fx : List (Effect SmrMsg)} {ev : List (TraceEvent SmrMsg)}
    (ht : Turn w i nd op nd' sh' fx ev) (honce : nd.held.Nodup) {a : CurrentAttempt} (ha : nd.currentAttempt = some a)
    (ho : a.origin = .op id) : id ∉ nd'.queue.map QueuedOp.opId := by
  intro hid
  have hheld : nd.held = id :: nd.queue.map QueuedOp.opId := by
    rw [SmrNode.held_of_attempt ha, ho]
    rfl
  have hid' : id ∈ nd'.held := List.mem_append_right _ hid
  have hrestart : restarted op ≠ some i := fun hop => by
    rw [Turn.queue_of_restart ht hop] at hid
    cases hid
  rcases Turn.hands ht with ⟨ctx, hh⟩ | ⟨-, hnil, -⟩
  · rcases hh.held with ⟨hsame, -⟩ | ⟨x, slot, outcome, hx, -⟩
    · cases ha' : nd'.currentAttempt with
      | none =>
        have hne : nd'.queue ≠ [] := fun hq => by
          rw [hq] at hid
          cases hid
        rw [(hh.idle ha' hne).1] at ha
        cases ha
      | some a' =>
        cases ho' : a'.origin with
        | op x =>
          rw [hheld, SmrNode.held_of_attempt ha', ho'] at hsame
          have hx : x = id := (List.cons.inj hsame).1
          rw [hheld] at honce
          exact (List.nodup_cons.1 honce).1 ((List.cons.inj hsame).2 ▸ hid)
        | catchUp =>
          have hlearned : nd.isCatchingUp = false := by
            rw [← Bool.not_eq_true, isCatchingUp_iff ha, ho]
            exact AttemptOrigin.noConfusion
          have hlearned' := Turn.learned ht hrestart hlearned
          rw [← Bool.not_eq_true, isCatchingUp_iff ha'] at hlearned'
          exact hlearned' ho'
    · rw [hx] at honce
      have hx' : x = id := by
        rw [hheld] at hx
        exact (List.cons.inj hx).1.symm
      exact (List.nodup_cons.1 honce).1 (hx' ▸ hid')
  · rw [hnil] at hid'
    cases hid'

/-- only a submission puts an operation into a queue -/
theorem queued_back (h : Custody w) (hnd' : (step w op).nodes i = some nd') (hid : id ∈ nd'.queue.map QueuedOp.opId) :
    (∃ nd, w.nodes i = some nd ∧ id ∈ nd.queue.map QueuedOp.opId) ∨ id = w.shared.nextOpId := by
  rcases step_cases w op with hstill | ⟨j, nd, c, rfl, hsub⟩ | ⟨j, nd, nd₁, sh', fx, ev, hnd, hturn, htd⟩
  · rw [hstill.nodes] at hnd'
    exact .inl ⟨nd', hnd', hid⟩
  · rw [hsub.nodes] at hnd'
    by_cases hi : i = j
    · subst hi
      rw [Function.update_self] at hnd'
      obtain rfl := Option.some.inj hnd'
      rw [List.map_append] at hid
      rcases List.mem_append.1 hid with hid | hid
      · exact .inl ⟨nd, hsub.node, hid⟩
      · exact .inr (List.mem_singleton.1 hid)
    · rw [Function.update_of_ne hi] at hnd'
      exact .inl ⟨nd', hnd', hid⟩
  · rw [htd.nodes] at hnd'
    by_cases hi : i = j
    · subst hi
      rw [Function.update_self] at hnd'
      obtain rfl := Option.some.inj hnd'
      obtain ⟨o, ho, rfl⟩ := List.mem_map.1 hid
      rcases Turn.queue hturn o ho with hold | ⟨a, id, ha, horigin, rfl⟩
      · exact .inl ⟨nd, hnd, List.mem_map_of_mem hold⟩
      · exact absurd hid (Turn.attempt_not_queued hturn (h.once i nd hnd) ha horigin)
    · rw [Function.update_of_ne hi] at hnd'
      exact .inl ⟨nd', hnd', hid⟩

/-- of two operations that a replica holds in order, the later one is in the queue -/
theorem queued_of_behind (hsorted : nd.held.Pairwise (· < ·)) (hid : id ∈ nd.held) (hid' : id' ∈ nd.held)
    (hlt : id < id') : id' ∈ nd.queue.map QueuedOp.opId := by
  unfold SmrNode.held at hsorted hid hid'
  rcases List.mem_append.1 hid' with hhead | hqueue
  · exfalso
    obtain ⟨x, hx, rfl⟩ : ∃ x, nd.attempting = some x ∧ id' = x := by
      cases ha : nd.attempting with
      | none => rw [ha] at hhead; cases hhead
      | some x => rw [ha] at hhead; exact ⟨x, rfl, List.mem_singleton.1 hhead⟩
    rw [hx] at hsorted hid
    rcases List.mem_cons.1 hid with rfl | hid
    · exact lt_irrefl _ hlt
    · exact absurd ((List.pairwise_cons.1 hsorted).1 id hid) (lt_asymm hlt)
  · exact hqueue

/-! ## What a step keeps -/

theorem fifo_step (h : Custody w) (hf : ∀ i nd, w.nodes i = some nd → nd.held.Pairwise (· < ·))
    (hnd' : (step w op).nodes i = some nd') : nd'.held.Pairwise (· < ·) := by
  obtain ⟨nd, hnd⟩ := node_back hnd'
  have hsorted := hf i nd hnd
  cases moves_cases hnd hnd' with
  | stays hheld => rwa [hheld]
  | submits hheld _ _ =>
    rw [hheld, List.pairwise_append]
    refine ⟨hsorted, List.pairwise_singleton _ _, fun a ha b hb => ?_⟩
    rw [List.mem_singleton.1 hb]
    exact h.held_lt hnd ha
  | completes x hheld _ =>
    rw [hheld] at hsorted
    exact (List.pairwise_cons.1 hsorted).2
  | drops hheld _ => rw [hheld]; exact .nil

theorem numbers_step (h : InLine n w) (hnum : Numbered w op) (hc : InvokedAs (step w op) id c)
    (hd : InvokedAs (step w op) id' d) (hclient : c.client = d.client) (hlt : id < id') : c.seq < d.seq := by
  rcases invokedAs_cases hd with hd | ⟨rfl, i, nd, rfl, -⟩
  · rcases invokedAs_cases hc with hc | ⟨rfl, -⟩
    · exact h.numbers id id' c d hc hd hclient hlt
    · exact absurd ((h.clients.known id' d hd).1.trans hlt) (lt_irrefl _)
  · rcases invokedAs_cases hc with hc | ⟨rfl, -⟩
    · exact hnum c ⟨id, hc⟩ hclient
    · exact absurd hlt (lt_irrefl _)

/-- what a replica holds still has every later operation of its client behind it -/
theorem behind_step (h : InLine n w) (hal : Alone w op) (hnd' : (step w op).nodes i = some nd') (hid : id ∈ nd'.held)
    (hl : Later (step w op) id id') : id' ∈ nd'.held := by
  obtain ⟨nd, hnd⟩ := node_back hnd'
  have hold : id ∈ nd.held := by
    rcases held_back hnd hnd' hid with hid | ⟨rfl, -, -⟩
    · exact hid
    · -- nothing is later than what has just been submitted
      exfalso
      rcases later_cases h.clients hl with ⟨c, -, hc, -⟩ | ⟨-, c, -, -, -, hc, -⟩
      · exact lt_irrefl _ (h.clients.known _ c hc).1
      · exact lt_irrefl _ (h.clients.known _ c hc).1
  rcases later_cases h.clients hl with hl | ⟨rfl, c, d, j, ndj, hc, hclient, rfl, hsub⟩
  · have hid' := h.behind i nd id id' hnd hold hl
    obtain ⟨c, d, -, -, -, hlt⟩ := hl
    cases moves_cases hnd hnd' with
    | stays hheld => rwa [hheld]
    | submits hheld _ _ =>
      rw [hheld]
      exact List.mem_append_left _ hid'
    | completes x hheld _ =>
      -- the one that completes is the first in line
      have hsorted := h.fifo i nd hnd
      rw [hheld] at hsorted hid'
      rcases List.mem_cons.1 hid' with rfl | hid'
      · exact absurd ((List.pairwise_cons.1 hsorted).1 id hid) (lt_asymm hlt)
      · exact hid'
    | drops hheld _ =>
      rw [hheld] at hid
      cases hid
  · -- the client submits at the replica that holds its earlier operation
    obtain ⟨c', howing, hc'⟩ := owing_of_held h.sane hnd hold
    obtain rfl := h.clients.unique hc hc'
    have hij : i = j := by
      by_contra hne
      exact hal i nd hne hnd c howing hclient
    subst hij
    have hheld := hsub.nodes
    rw [hheld, Function.update_self] at hnd'
    obtain rfl := Option.some.inj hnd'
    exact List.mem_append_right _ (by simp)

/-- what moved in a slot may go on -/
theorem mayLead_step (h : InLine n w) (hnum : Numbered w op) (hm : MayLead w k c) : MayLead (step w op) k c := by
  rcases hm with rfl | ⟨id, i, nd, hled⟩
  · exact .inl rfl
  obtain ⟨nd', hnd'⟩ := node_stays hled.node op
  obtain ⟨hnext, hpre⟩ := applied_step h.sane op i
  rw [nextSlot_eq hled.node, nextSlot_eq hnd'] at hnext
  rw [appliedLog_eq hled.node, appliedLog_eq hnd'] at hpre
  have htake : nd'.durable.appliedLog.take k = nd.durable.appliedLog.take k := by
    obtain ⟨t, ht⟩ := hpre
    rw [← ht]
    exact List.take_append_of_le_length (by rw [h.sane.length i nd hled.node]; exact hled.reached)
  refine .inr ⟨id, i, nd', hled.op.step op, fun j ndj hndj hid => ?_, hnd', hled.reached.trans hnext, ?_⟩
  · rcases queued_back h.custody hndj hid with ⟨ndj₀, hndj₀, hid⟩ | rfl
    · exact hled.left j ndj₀ hndj₀ hid
    · exact lt_irrefl _ (h.clients.known _ c hled.op).1
  · intro id' d hl hd hmem
    rw [htake] at hmem
    rcases later_cases h.clients hl with hold | ⟨rfl, c', d', j, ndj, -, -, rfl, hsub⟩
    · have hd' : InvokedAs w id' d := by
        rcases invokedAs_cases hd with hd | ⟨rfl, -⟩
        · exact hd
        · obtain ⟨-, d', -, hd', -⟩ := hold
          exact absurd (h.clients.known _ d' hd').1 (lt_irrefl _)
      exact hled.first id' d hold hd' hmem
    · -- a new submission was not applied anywhere
      have hd' : d = d' := by
        rcases invokedAs_cases hd with hd | ⟨-, j', ndj', heq, -⟩
        · exact absurd (h.clients.known _ d hd).1 (lt_irrefl _)
        · simp only [SmrOp.submit.injEq] at heq
          exact heq.2.symm
      subst hd'
      obtain ⟨m, hm⟩ := List.mem_iff_getElem?.1 (List.mem_of_mem_take hmem)
      rcases h.sane.mayCarry hled.node hm with hprobe | hinv
      · exact hsub.client (by rw [hprobe]; rfl)
      · exact lt_irrefl _ (hnum d hinv rfl)

/-- whatever a step applies moved in its slot before -/
theorem applied_leads (h : InLine n w) (hnd' : (step w op).nodes i = some nd')
    (hc : nd'.durable.appliedLog[k]? = some c) : MayLead w k c := by
  refine log_keeps (D := fun _ k c => MayLead w k c) h.sane (fun _ _ _ _ _ hd => hd) ?_ ?_ i nd' k c hnd' hc
  · intro i nd k c hnd hc
    obtain ⟨s, hs⟩ := h.sane.settled i nd k c hnd hc
    exact h.leads.flows.decided h.sane.arena hs
  · intro i src resp rng p c hruled hp hd
    have hcarry := Arena.carry_step h.sane.arena h.leads hruled.allowed fun _ _ he => absurd he (by simp)
    have hinv := Arena.inv_step h.sane.arena hruled.allowed
    exact hcarry.flows.decided hinv ((hinv.seat i p hp).decided c hd)

/-- no later command of a client is applied while an earlier one is held -/
theorem held_first (h : InLine n w) (hnum : Numbered w op) (hnd' : (step w op).nodes i = some nd')
    (hid : id ∈ nd'.held) (hl : Later (step w op) id id') (hd : InvokedAs (step w op) id' d) {j : NodeId}
    {ndj : SmrNode} (hndj : (step w op).nodes j = some ndj) : d ∉ ndj.durable.appliedLog := by
  intro hmem
  obtain ⟨m, hm⟩ := List.mem_iff_getElem?.1 hmem
  obtain ⟨nd, hnd⟩ := node_back hnd'
  rcases applied_leads h hndj hm with rfl | ⟨id'', x, ndx, hled⟩
  · exact (clients_step h.sane h.clients op).client _ ⟨id', hd⟩ rfl
  rcases invokedAs_cases hd with hd | ⟨-, y, ndy, rfl, -⟩
  · obtain rfl := h.once hd hled.op
    have hlw : Later w id id' := by
      rcases later_cases h.clients hl with hlw | ⟨rfl, -⟩
      · exact hlw
      · exact absurd (h.clients.known _ d hd).1 (lt_irrefl _)
    have hold : id ∈ nd.held := by
      rcases held_back hnd hnd' hid with hid | ⟨rfl, -, -⟩
      · exact hid
      · obtain ⟨c, -, hc, -⟩ := hlw
        exact absurd (h.clients.known _ c hc).1 (lt_irrefl _)
    have hbehind := h.behind i nd id id' hnd hold hlw
    obtain ⟨-, -, -, -, -, hlt⟩ := hlw
    exact hled.left i nd hnd (queued_of_behind (h.fifo i nd hnd) hold hbehind hlt)
  · exact lt_irrefl _ (hnum d ⟨id'', hled.op⟩ rfl)

/-- what a step sets moving is in line -/
theorem opens_leads (h : InLine n w) (hnum : Numbered w op) {a : CurrentAttempt} (hnd' : (step w op).nodes i = some nd')
    (ha : nd'.currentAttempt = some a) : MayLead (step w op) a.slot a.command := by
  have hsane := sane_step h.sane op
  have hcust := custody_step h.custody op
  have hlive := hsane.live i nd' a hnd' ha
  cases ho : a.origin with
  | catchUp =>
    rw [hlive.frontier]
    exact .inl (hlive.probe ho)
  | op id =>
    have hheld : nd'.held = id :: nd'.queue.map QueuedOp.opId := by
      rw [SmrNode.held_of_attempt ha, ho]
      rfl
    have hid : id ∈ nd'.held := by rw [hheld]; exact List.mem_cons_self
    refine .inr ⟨id, i, nd', hlive.op id ho, fun j ndj hndj hq => ?_, hnd', hlive.frontier.le, ?_⟩
    · by_cases hij : i = j
      · subst hij
        obtain rfl := Option.some.inj (hnd'.symm.trans hndj)
        have hnodup := hcust.once i nd' hnd'
        rw [hheld] at hnodup
        exact (List.nodup_cons.1 hnodup).1 hq
      · exact hcust.apart i j nd' ndj id hij hnd' hndj hid (List.mem_append_right _ hq)
    · intro id' d hl hd hmem
      exact held_first h hnum hnd' hid hl hd hnd' (List.mem_of_mem_take hmem)

theorem leads_step (h : InLine n w) (hnum : Numbered w op) : Arena.Carries (MayLead (step w op)) (view (step w op)) := by
  refine view_keeps (Q := Arena.Carries (MayLead (step w op))) h.sane (h.leads.mono fun _ _ hm => mayLead_step h hnum hm)
    fun a act hi hq hr => Arena.carry_step hi hq hr.allowed fun i p he => ?_
  obtain ⟨nd, at', hnd, ha, hslot, hcmd⟩ := hr.opens i p he
  rw [← hslot, ← hcmd]
  exact opens_leads h hnum hnd ha

/-- **Step lemma.** -/
theorem inLine_step (h : InLine n w) (hcov : CoveredStep w op) (hnum : Numbered w op) (hal : Alone w op) :
    InLine n (step w op) where
  sane := sane_step h.sane op
  spread := spread_step h.sane h.spread hcov
  custody := custody_step h.custody op
  clients := clients_step h.sane h.clients op
  numbers := fun _ _ _ _ hc hd hclient hlt => numbers_step h hnum hc hd hclient hlt
  fifo := fun _ _ hnd' => fifo_step h.custody h.fifo hnd'
  behind := fun _ _ _ _ hnd' hid hl => behind_step h hal hnd' hid hl
  leads := leads_step h hnum

theorem inLine_cluster (s : Setup) : InLine s.size s.cluster where
  sane := sane_cluster s
  spread := spread_cluster s
  custody := custody_cluster s
  clients := clients_cluster s
  numbers := fun id id' c d hc => by
    unfold InvokedAs at hc
    rw [cluster_history] at hc
    cases hc
  fifo := fun i nd hnd => by
    rw [cluster_node hnd]
    exact .nil
  behind := fun i nd id id' hnd hid => by
    rw [cluster_node hnd] at hid
    cases hid
  leads := by
    rw [view_cluster]
    exact ⟨⟨fun k s x ⟨i, j, he⟩ => absurd he (by simp [Arena.init]), fun i p hp => absurd hp (by simp [Arena.init])⟩,
      fun i p hp => absurd hp (by simp [Arena.init])⟩

/-- **Nobody is overtaken.** Before a command is applied, no later one of its client is. -/
theorem InLine.no_overtaking (h : InLine n w) (hnd : w.nodes i = some nd) {pre post : List Command}
    (hlog : nd.durable.appliedLog = pre ++ c :: post) (hc : InvokedAs w id c) (hl : Later w id id')
    (hd : InvokedAs w id' d) : d ∉ pre := by
  intro hmem
  have hentry : nd.durable.appliedLog[pre.length]? = some c := by rw [hlog]; simp
  obtain ⟨s, hs⟩ := h.sane.settled i nd _ c hnd hentry
  rcases h.leads.flows.decided h.sane.arena hs with rfl | ⟨id₀, j, ndj, hled⟩
  · exact h.clients.client _ ⟨id, hc⟩ rfl
  obtain rfl := h.once hc hled.op
  -- the replica that `c` came from had applied all of `pre`
  obtain ⟨m, hm⟩ := List.mem_iff_getElem?.1 hmem
  have hlt : m < pre.length := (List.getElem?_eq_some_iff.1 hm).1
  have hm' : (w.appliedLog i)[m]? = some d := by
    rw [appliedLog_eq hnd, hlog, List.getElem?_append_left hlt]
    exact hm
  have hi : m < w.nextSlot i := by
    rw [← h.sane.length_eq]
    exact (List.getElem?_eq_some_iff.1 hm').1
  have hj : m < w.nextSlot j := by
    rw [nextSlot_eq hled.node]
    exact hlt.trans_le hled.reached
  rw [h.sane.logs_agree h.spread hi hj, appliedLog_eq hled.node] at hm'
  refine hled.first id' d hl hd (List.mem_iff_getElem?.2 ⟨m, ?_⟩)
  rw [List.getElem?_take_of_lt hlt]
  exact hm'

end Smr

end Queso
