/-
One event of a process, seen from the protocol.

An arena keeps what a cluster of processes sent and served. `Good` says what is known of it, by `Rules` that fix the
size of the cluster, its leader and the commands its clients submit; `Crew` says that a replica in memory is the one
that the arena shows for its node. `dispatch_crew` takes one event of the process to a run of acts on the arena, and
`batch_crew` a whole batch.

A node that must not send twice for a slot is `Careful`: the leader, for its tag, and every node where none returns.
`Reach` bounds the slots that such a node sent for.
-/
import Queso.Net.Reboot
import Queso.Smr.Agreement

namespace Queso

namespace Arena

variable {V : Type} [LinearOrder V] {n : ℕ} {a : Arena V}

/-- a node that sent for a slot sent to its own recorder -/
def Echoes (n : ℕ) (a : Arena V) : Prop :=
  ∀ i j k s x, i < n → ⟨i, j, .request ⟨k, s, x⟩⟩ ∈ a.sends → ∃ t y, ⟨i, i, .request ⟨k, t, y⟩⟩ ∈ a.sends

omit [LinearOrder V] in
theorem Echoes.proceed (he : Echoes n a) {i : NodeId} {p' : Proposer V} {new : List (Envelope (ConcreteMsg V))}
    (hnew : ∀ j k s x, ⟨i, j, .request ⟨k, s, x⟩⟩ ∈ new → i < n →
      ∃ t y, ⟨i, i, .request ⟨k, t, y⟩⟩ ∈ a.sends ++ new)
    (hmine : ∀ e ∈ new, e.src = i) : Echoes n (a.proceed i p' new) := by
  intro m j k s x hm hmem
  rcases List.mem_append.1 hmem with hold | hfresh
  · obtain ⟨t, y, hy⟩ := he m j k s x hm hold
    exact ⟨t, y, List.mem_append_left _ hy⟩
  · obtain rfl : m = i := hmine _ hfresh
    exact hnew j k s x hfresh hm

omit [LinearOrder V] in
theorem Echoes.rests (he : Echoes n a) {i : NodeId} {p' : Proposer V} : Echoes n (a.proceed i p' []) :=
  he.proceed (fun _ _ _ _ h => absurd h (by simp)) fun _ h => absurd h (by simp)

omit [LinearOrder V] in
/-- a step is begun at every recorder, one's own among them -/
theorem Echoes.begins (he : Echoes n a) {i : NodeId} {p : Proposer V} (htotal : p.totalReplicas = n)
    {draw : NodeId → Draw} : Echoes n (a.proceed i (p.beginStep draw).1 (sendsOf i (p.beginStep draw).2)) := by
  refine he.proceed (fun j k s x hx hi => ?_) fun e hx => ?_
  · obtain ⟨r, -, heq⟩ := (Proposer.mem_sendsOf_beginStep p draw).1 hx
    simp only [Envelope.mk.injEq, ConcreteMsg.request.injEq, RecordRequest.mk.injEq] at heq
    obtain ⟨-, -, rfl, -, -⟩ := heq
    exact ⟨_, _, List.mem_append_right _ ((Proposer.mem_sendsOf_beginStep p draw).2 ⟨i, by rwa [htotal], rfl⟩)⟩
  · obtain ⟨r, -, rfl⟩ := (Proposer.mem_sendsOf_beginStep p draw).1 hx
    rfl

omit [LinearOrder V] in
theorem Le.trans {a b c : Arena V} (hab : a.Le b) (hbc : b.Le c) : a.Le c where
  sends := fun e he => hbc.sends e (hab.sends e he)
  calls := fun k j => by
    obtain ⟨l, hl⟩ := hab.calls k j
    obtain ⟨m, hm⟩ := hbc.calls k j
    exact ⟨l ++ m, by rw [hm, hl, List.append_assoc]⟩

theorem echo_step (h : Inv n a) (he : Echoes n a) {act : Act V} : Echoes n (a.step act) := by
  cases act with
  | record src dst req =>
    intro i j k s x hi hmem
    rcases List.mem_append.1 hmem with hold | hmem
    · obtain ⟨t, y, hy⟩ := he i j k s x hi hold
      exact ⟨t, y, List.mem_append_left _ hy⟩
    · exact absurd (List.mem_singleton.1 hmem) (by simp)
  | spawn => exact he
  | retire => exact he
  | reply src dst resp draw =>
    unfold step
    dsimp only
    rcases host_cases a dst fun p => p.onResponse src resp draw with hsame | ⟨p, p', fx, hp, hcall, hnext⟩
    · rwa [hsame]
    rw [hnext]
    have hseat := h.seat dst p hp
    rcases Proposer.onResponse_moves hcall with ⟨rfl, rfl⟩ | ⟨hd, hslot, hreq, hans⟩
    · exact he.rests
    cases hans with
    | waits => exact he.rests
    | decides => exact he.rests
    | advances =>
      refine he.begins ?_
      exact hseat.total
    | jumps =>
      refine he.begins ?_
      exact hseat.total
  | timer i id localStep draw =>
    unfold step
    dsimp only
    rcases host_cases a i fun p => p.onTimer id localStep draw with hsame | ⟨p, p', fx, hp, hcall, hnext⟩
    · rwa [hsame]
    rw [hnext]
    have hseat := h.seat i p hp
    cases Proposer.onTimer_moves hcall with
    | @quiet _ x _ hfx _ =>
      rw [hseat.selfId] at hfx
      rw [hfx]
      exact he.rests
    | restarts =>
      refine he.begins ?_
      exact hseat.total
    | rewinds => exact he.rests
    | activates =>
      refine he.begins ?_
      exact hseat.total
    | resends hd ha hfx =>
      -- what is sent again was sent before
      refine he.proceed (fun j k s x hx hi => ?_) fun e hx => ?_
      · obtain ⟨r, q, hq, heq⟩ := hfx i _ hx
        simp only [Envelope.mk.injEq, ConcreteMsg.request.injEq, RecordRequest.mk.injEq] at heq
        obtain ⟨-, -, rfl, -, -⟩ := heq
        obtain ⟨-, t, ht, -⟩ := hseat.prepared r q hq
        obtain ⟨u, y, hy⟩ := he i r _ t q hi ht
        exact ⟨u, y, List.mem_append_left _ hy⟩
      · obtain ⟨r, q, -, rfl⟩ := hfx i e hx
        rfl

end Arena

namespace Net

/-! ## What is known of the arena -/

/-- what a run of the cluster obeys: its size, its leader, the commands its clients submit, and whether a process that
went down stays down -/
structure Rules where
  size : ℕ
  leader : Option NodeId
  Asked : Command → Prop
  once : Prop

namespace Rules

variable (ρ : Rules)

/-- the node never sends again for a slot that it gave up -/
def Careful (i : NodeId) : Prop := ρ.once ∨ ρ.leader = some i

/-- what may be proposed for a slot: its probe, or what a client submitted -/
def May (k : ℕ) (c : Command) : Prop := c = catchUpProbe k ∨ ρ.Asked c

/-- a replica at its frontier, busy there or not, may have sent for slot `k` -/
def Reach (i : NodeId) (nd : SmrNode) (k : ℕ) : Prop :=
  ρ.Careful i → k < nd.durable.nextSlot ∨ k = nd.durable.nextSlot ∧ nd.currentAttempt.isSome = true

end Rules

/-- what is known of the arena of a cluster -/
structure Good (ρ : Rules) (R : NodeId → ℕ → Prop) (a : Arena Command) : Prop where
  inv : Arena.Inv ρ.size a
  sole : Arena.Sole (fun _ => ρ.leader) a
  carries : Arena.Carries ρ.May a
  spreads : Arena.Spreads ρ.size a
  solo : ρ.once → Arena.Solo a
  within : Arena.Within R a
  echoes : Arena.Echoes ρ.size a

/-- what the acts of a process obey -/
structure Fine (ρ : Rules) (R : NodeId → ℕ → Prop) (a : Arena Command) (act : Act Command) : Prop where
  allowed : Arena.Allowed ρ.size a act
  heads : Arena.Heads (fun _ => ρ.leader) a act
  covered : ρ.once ∨ Arena.Covered a act
  once : ρ.once → Arena.Once a act
  carries : ∀ i p, act = .spawn i p → ρ.May p.slot p.proposal.value
  within : ∀ i p, act = .spawn i p → R i p.slot

section Good

variable {ρ : Rules} {R R' : NodeId → ℕ → Prop} {a : Arena Command}

/-- an act that spawns no proposer has less to obey -/
theorem Fine.of_not_spawn {act : Act Command} (hspawn : ∀ i p, act ≠ .spawn i p)
    (hallowed : Arena.Allowed ρ.size a act) (hheads : Arena.Heads (fun _ => ρ.leader) a act)
    (hcovered : ρ.once ∨ Arena.Covered a act) (honce : ρ.once → Arena.Once a act) : Fine ρ R a act where
  allowed := hallowed
  heads := hheads
  covered := hcovered
  once := honce
  carries := fun i p he => absurd he (hspawn i p)
  within := fun i p he => absurd he (hspawn i p)

/-- **A fine act keeps what is known.** -/
theorem Good.step (h : Good ρ R a) (act : Act Command) (hact : Fine ρ R a act) : Good ρ R (a.step act) where
  inv := Arena.inv_step h.inv hact.allowed
  sole := Arena.sole_step h.inv h.sole hact.allowed hact.heads
  carries := Arena.carry_step h.inv h.carries hact.allowed hact.carries
  spreads := Arena.spread_step h.inv h.spreads hact.allowed <| by
    rcases hact.covered with honce | hcov
    · exact (h.solo honce).covered h.inv hact.allowed
    · exact hcov
  solo := fun honce => Arena.solo_step h.inv (h.solo honce) hact.allowed (hact.once honce)
  within := Arena.within_step h.inv h.within hact.allowed hact.within
  echoes := Arena.echo_step h.inv h.echoes

theorem Good.mono (h : Good ρ R a) (hle : ∀ i k, R i k → R' i k) : Good ρ R' a :=
  { h with within := h.within.mono hle }

/-- dropping a proposer is always fine -/
theorem Good.retire (h : Good ρ R a) (i : NodeId) : Good ρ R (a.step (.retire i)) :=
  h.step _ (.of_not_spawn (by simp) trivial trivial (.inr trivial) fun _ => trivial)

theorem Good.decides_eq (h : Good ρ R a) {k : ℕ} {c c' : Command} (hc : Decides ρ.size (a.hist k) c)
    (hc' : Decides ρ.size (a.hist k) c') : c = c' :=
  Arena.decisions_agree h.inv h.spreads (h.sole.fastTop h.inv k) hc hc'

/-- a decided command is the slot's probe, or a client submitted it -/
theorem Good.decides_may (h : Good ρ R a) {k : ℕ} {c : Command} (hc : Decides ρ.size (a.hist k) c) : ρ.May k c := by
  have hsettled : ∃ s, Arena.Settled ρ.size (a.hist k) s c := by
    rcases hc with ⟨p, hp, hv⟩ | ⟨s, p, hp, -, hv⟩
    · exact ⟨0, .inl ⟨p, hp, hv⟩⟩
    · exact ⟨s, .inr ⟨p, hp, hv⟩⟩
  obtain ⟨s, hs⟩ := hsettled
  exact h.carries.flows.decided h.inv hs

/-! ## Starting an attempt -/

variable {ctx : SmrCtx} {nd nd' : SmrNode} {sh sh' : Shared} {fx : List (Effect SmrMsg)}

/-- an attempt is its proposer, spawned and kicked -/
theorem Good.started (h : Good ρ R a) {origin : AttemptOrigin} {command : Command} {hint : Option NodeId}
    (hst : SmrNode.Started ctx nd sh origin command hint nd' sh' fx) (htotal : nd.totalReplicas = ρ.size)
    (hhint : hint = none ∨ hint = ρ.leader ∧ (ρ.Careful ctx.selfId → a.Untouched ctx.selfId nd.durable.nextSlot))
    (honce : ρ.once → a.Untouched ctx.selfId nd.durable.nextSlot) (hmay : ρ.May nd.durable.nextSlot command)
    (hR : R ctx.selfId nd.durable.nextSlot) : Good ρ R (a.swap ctx.selfId nd'.hosted (sendsOf ctx.selfId fx)) := by
  obtain ⟨delay, hhost, hfx⟩ := Smr.Started.hosted hst
  have hfresh := Smr.proposerFor_fresh nd ctx.selfId command hint delay htotal
  have hslot := Smr.proposerFor_slot nd ctx.selfId command hint delay
  have hvalue := Smr.proposerFor_value nd ctx.selfId command hint delay
  have hlead := Smr.proposerFor_leader nd ctx.selfId command hint delay
  rw [hhost, hfx]
  generalize nd.proposerFor ctx.selfId command hint delay = p at hfresh hslot hvalue hlead
  have hspawn : Fine ρ R a (.spawn ctx.selfId p) := by
    refine ⟨hfresh, fun hl => ?_, .inr trivial, fun ho => ?_, fun i q he => ?_, fun i q he => ?_⟩
    · rw [hlead] at hl
      rcases hhint with hnone | ⟨hhint, hfree⟩
      · rw [hnone] at hl
        exact absurd hl (by simp)
      · have hleader : ρ.leader = some ctx.selfId := hhint ▸ hl
        exact ⟨hleader, hslot ▸ hfree (.inr hleader)⟩
    · rw [← hslot] at honce
      exact honce ho
    · obtain ⟨rfl, rfl⟩ := Act.spawn.inj he
      rwa [hslot, hvalue]
    · obtain ⟨rfl, rfl⟩ := Act.spawn.inj he
      rwa [hslot]
  -- the kickoff finds the proposer just spawned
  have hp : (a.step (.spawn ctx.selfId p)).props ctx.selfId = some p := Function.update_self ..
  have hzero : ∀ q, (a.step (.spawn ctx.selfId p)).props ctx.selfId = some q → q.step = 0 := by
    intro q hq
    obtain rfl := Option.some.inj (hp.symm.trans hq)
    exact hfresh.step
  have hkick : Fine ρ R (a.step (.spawn ctx.selfId p)) (.timer ctx.selfId .kickoff 0 ctx.rng) :=
    .of_not_spawn (by simp) (fun hid => absurd hid (by simp)) (fun _ => hzero) (.inr trivial) fun _ => hzero
  have hrun := (h.step _ hspawn).step _ hkick
  have hc : p.onTimer .kickoff 0 ctx.rng = .ok ((p.start ctx.rng).1, (p.start ctx.rng).2) := rfl
  have heq : (a.step (.spawn ctx.selfId p)).step (.timer ctx.selfId .kickoff 0 ctx.rng) =
      a.swap ctx.selfId (some (p.start ctx.rng).1) (sendsOf ctx.selfId (p.start ctx.rng).2) := by
    refine (Arena.host_ok (fun q => q.onTimer .kickoff 0 ctx.rng) hp hc).trans ?_
    simp only [Arena.swap, Arena.step, Function.update_idem]
  rwa [heq] at hrun

/-- an idle replica resumes at a slot it never sent for -/
theorem Good.resumes (h : Good ρ R a) (hres : SmrNode.Resumes ctx nd sh nd' sh' fx) (hidle : nd.currentAttempt = none)
    (htotal : nd.totalReplicas = ρ.size) (hpolicy : sh.policy = .fixed ρ.leader)
    (hfree : ρ.Careful ctx.selfId → a.Untouched ctx.selfId nd.durable.nextSlot)
    (hqueue : ∀ o ∈ nd.queue, ρ.Asked o.command)
    (hR : nd'.currentAttempt.isSome = true → R ctx.selfId nd.durable.nextSlot) :
    Good ρ R (a.swap ctx.selfId nd'.hosted (sendsOf ctx.selfId fx)) := by
  have honce : ρ.once → a.Untouched ctx.selfId nd.durable.nextSlot := fun ho => hfree (.inl ho)
  cases hres with
  | rests =>
    have hhost : nd.hosted = none := by rw [SmrNode.hosted, hidle]; rfl
    rw [hhost]
    have hret := h.retire ctx.selfId
    have heq : a.step (.retire ctx.selfId) = a.swap ctx.selfId none (sendsOf ctx.selfId []) := by
      unfold Arena.swap
      simp [Arena.step, sendsOf]
    rwa [heq] at hret
  | @proposes o queue hint _ _ _ hq hl hst =>
    have hleader : hint = ρ.leader := by
      rw [hpolicy] at hl
      exact (Except.ok.inj hl).symm
    obtain ⟨delay, ⟨counted, hb⟩, -⟩ := hst.drives
    have hasked := hqueue o (by rw [hq]; exact List.mem_cons_self ..)
    exact h.started hst htotal (.inr ⟨hleader, hfree⟩) honce (.inr hasked) (hR (by rw [hb]; rfl))
  | probes hst =>
    obtain ⟨delay, ⟨counted, hb⟩, -⟩ := hst.drives
    exact h.started hst htotal (.inl rfl) honce (.inl rfl) (hR (by rw [hb]; rfl))

end Good

/-! ## A replica and its node in the arena -/

/-- a durable state is the one that the arena shows for node `i`: its registers served the node's calls, and what it
applied was decided -/
structure Backs (ρ : Rules) (i : NodeId) (d : Durable) (a : Arena Command) : Prop where
  recorder : ∀ k, (d.recorder k).isr = Isr.replay (a.calls k i)
  applied : ∀ k c, d.appliedLog[k]? = some c → Decides ρ.size (a.hist k) c
  length : d.appliedLog.length = d.nextSlot

/-- a started attempt at the frontier, for the slot's probe or for what a client submitted -/
structure Manned (ρ : Rules) (nd : SmrNode) (t : CurrentAttempt) : Prop where
  frontier : t.slot = nd.durable.nextSlot
  slot : t.proposer.slot = nd.durable.nextSlot
  started : t.proposer.step ≠ 0
  probe : t.origin = .catchUp → t.command = catchUpProbe nd.durable.nextSlot
  asked : ∀ id, t.origin = .op id → ρ.Asked t.command

/-- a replica in memory is the one that the arena shows for node `i` -/
structure Crew (ρ : Rules) (i : NodeId) (nd : SmrNode) (sh : Shared) (a : Arena Command) : Prop where
  hosted : a.props i = nd.hosted
  backs : Backs ρ i nd.durable a
  total : nd.totalReplicas = ρ.size
  policy : sh.policy = .fixed ρ.leader
  live : ∀ t, nd.currentAttempt = some t → Manned ρ nd t
  queued : ∀ o ∈ nd.queue, ρ.Asked o.command
  learned : ρ.once → nd.isCatchingUp = false

section Crew

variable {ρ : Rules} {R : NodeId → ℕ → Prop} {a a' : Arena Command} {i : NodeId} {ctx : SmrCtx} {nd nd' : SmrNode}
  {sh sh' : Shared} {fx : List (Effect SmrMsg)}

theorem Backs.mono {d : Durable} (h : Backs ρ i d a) (hle : a.Le a') (hcalls : ∀ k, a'.calls k i = a.calls k i) :
    Backs ρ i d a' where
  recorder := fun k => by rw [hcalls]; exact h.recorder k
  applied := fun k c hc => (h.applied k c hc).mono (hle.hist k)
  length := h.length

theorem Crew.mono (h : Crew ρ i nd sh a) (hle : a.Le a') (hprops : a'.props i = a.props i)
    (hcalls : ∀ k, a'.calls k i = a.calls k i) : Crew ρ i nd sh a' :=
  { h with hosted := hprops.trans h.hosted, backs := h.backs.mono hle hcalls }

theorem backs_default (hcalls : ∀ k, a.calls k i = []) : Backs ρ i .default a where
  recorder := fun k => by rw [hcalls]; rfl
  applied := fun k c hc => absurd hc (by simp [Durable.default])
  length := rfl

theorem manned_started {origin : AttemptOrigin} {command : Command} {hint : Option NodeId}
    (h : SmrNode.Started ctx nd sh origin command hint nd' sh' fx)
    (hprobe : origin = .catchUp → command = catchUpProbe nd.durable.nextSlot)
    (hasked : ∀ id, origin = .op id → ρ.Asked command) {t : CurrentAttempt} (ht : nd'.currentAttempt = some t) :
    Manned ρ nd' t := by
  obtain ⟨delay, ⟨b, hb⟩, -⟩ := h.drives
  obtain rfl := Option.some.inj (hb.symm.trans ht)
  have hnext : nd'.durable.nextSlot = nd.durable.nextSlot := by rw [h.keeps.durable]
  have hfresh := Smr.proposerFor_fresh nd ctx.selfId command hint delay rfl
  obtain ⟨hslot, hstep⟩ := Proposer.start_step hfresh.decided ctx.rng
  exact
    { frontier := by rw [hnext]
      slot := by rw [hnext]; exact hslot.trans (Smr.proposerFor_slot ..)
      started := by
        show ((nd.proposerFor ctx.selfId command hint delay).start ctx.rng).1.step ≠ 0
        rw [hstep]; decide
      probe := fun ho => by rw [hnext]; exact hprobe ho
      asked := hasked }

theorem Manned.driven {t t' : CurrentAttempt} {p : Proposer Command} (hm : Manned ρ nd t) (h : nd.Driven t p nd')
    (hslot : p.slot = t.proposer.slot) (hstep : t.proposer.step ≤ p.step) (ht' : nd'.currentAttempt = some t') :
    Manned ρ nd' t' := by
  obtain ⟨b, hb⟩ := h.drives
  obtain rfl := Option.some.inj (hb.symm.trans ht')
  have hnext : nd'.durable.nextSlot = nd.durable.nextSlot := by rw [h.keeps.durable]
  have hpos := hm.started
  exact
    { frontier := by rw [hnext]; exact hm.frontier
      slot := by rw [hnext]; exact hslot.trans hm.slot
      started := by show p.step ≠ 0; omega
      probe := fun ho => by rw [hnext]; exact hm.probe ho
      asked := hm.asked }

/-- what an event adds to the calls that were served -/
def Event.serve (i : NodeId) (calls : ℕ → NodeId → List (ℕ × Proposal Command)) :
    Event → ℕ → NodeId → List (ℕ × Proposal Command)
  | .message _ (.request req) =>
    Function.update calls req.slot
      (Function.update (calls req.slot) i (calls req.slot i ++ [(req.reqStep, req.proposal)]))
  | _ => calls

/-- the replica of node `i` came to `nd'` by an event, and the arena to `a'` -/
structure Came (ρ : Rules) (R : NodeId → ℕ → Prop) (i : NodeId) (ev : Event) (a : Arena Command) (nd' : SmrNode)
    (sh' : Shared) (fx : List (Effect SmrMsg)) (a' : Arena Command) : Prop where
  good : Good ρ (Function.update R i (ρ.Reach i nd')) a'
  crew : Crew ρ i nd' sh' a'
  le : a.Le a'
  sends : a'.sends = a.sends ++ sendsOf i fx
  calls : a'.calls = ev.serve i a.calls
  others : ∀ j, j ≠ i → a'.props j = a.props j

/-- an event that serves no request shows as the proposer that it leaves hosted, and what it sends -/
theorem Came.of_swap {ev : Event} (hev : ∀ calls, ev.serve i calls = calls)
    (hg : Good ρ (Function.update R i (ρ.Reach i nd')) (a.swap i nd'.hosted (sendsOf i fx)))
    (hc : Crew ρ i nd' sh' (a.swap i nd'.hosted (sendsOf i fx))) :
    Came ρ R i ev a nd' sh' fx (a.swap i nd'.hosted (sendsOf i fx)) where
  good := hg
  crew := hc
  le := Arena.le_swap _ _ _ _
  sends := rfl
  calls := (hev _).symm
  others := fun _ hj => Function.update_of_ne hj _ _

/-- an event that leaves the replica as it was -/
theorem Came.same {ev : Event} (hev : ∀ calls, ev.serve i calls = calls)
    (hg : Good ρ (Function.update R i (ρ.Reach i nd)) a) (hc : Crew ρ i nd sh a) : Came ρ R i ev a nd sh [] a where
  good := hg
  crew := hc
  le := .refl a
  sends := (List.append_nil _).symm
  calls := (hev _).symm
  others := fun _ _ => rfl

/-- a replica that is further, or as far and as busy, reaches further -/
theorem Rules.Reach.mono (hle : nd.durable.nextSlot ≤ nd'.durable.nextSlot)
    (hbusy : nd'.durable.nextSlot = nd.durable.nextSlot → nd.currentAttempt.isSome = true →
      nd'.currentAttempt.isSome = true) (k : ℕ) (h : ρ.Reach i nd k) : ρ.Reach i nd' k := by
  intro hcare
  rcases h hcare with hlt | ⟨rfl, hsome⟩
  · exact .inl (hlt.trans_le hle)
  · rcases hle.eq_or_lt with heq | hlt
    · exact .inr ⟨heq, hbusy heq.symm hsome⟩
    · exact .inl hlt

theorem Good.reach (h : Good ρ (Function.update R i (ρ.Reach i nd)) a) (hle : nd.durable.nextSlot ≤ nd'.durable.nextSlot)
    (hbusy : nd'.durable.nextSlot = nd.durable.nextSlot → nd.currentAttempt.isSome = true →
      nd'.currentAttempt.isSome = true) : Good ρ (Function.update R i (ρ.Reach i nd')) a := by
  refine h.mono fun j k => ?_
  by_cases hj : j = i
  · subst hj
    rw [Function.update_self, Function.update_self]
    exact Rules.Reach.mono hle hbusy k
  · rw [Function.update_of_ne hj, Function.update_of_ne hj]
    exact id

/-- a careful node sent for no slot past its frontier, nor at it while idle -/
theorem Good.untouched (h : Good ρ (Function.update R i (ρ.Reach i nd)) a) {k : ℕ}
    (hk : nd.durable.nextSlot < k ∨ nd.durable.nextSlot = k ∧ nd.currentAttempt = none) (hcare : ρ.Careful i) :
    a.Untouched i k := by
  intro j s x he
  have hreach := h.within.sent i j k s x he
  rw [Function.update_self] at hreach
  rcases hreach hcare with hlt | ⟨rfl, hsome⟩
  · rcases hk with hk | ⟨rfl, -⟩
    · omega
    · exact lt_irrefl _ hlt
  · rcases hk with hk | ⟨-, hidle⟩
    · exact lt_irrefl _ hk
    · rw [hidle] at hsome
      exact absurd hsome (by decide)

/-- a started attempt mans the replica -/
theorem Crew.started {origin : AttemptOrigin} {command : Command} {hint : Option NodeId}
    (hst : SmrNode.Started ctx nd sh origin command hint nd' sh' fx) (hbacks : Backs ρ i nd.durable a)
    (htotal : nd.totalReplicas = ρ.size) (hpolicy : sh.policy = .fixed ρ.leader)
    (hqueue : ∀ o ∈ nd.queue, ρ.Asked o.command)
    (hprobe : origin = .catchUp → command = catchUpProbe nd.durable.nextSlot)
    (hasked : ∀ id, origin = .op id → ρ.Asked command) (hlearn : ρ.once → origin ≠ .catchUp)
    (new : List (Envelope SmrMsg)) : Crew ρ i nd' sh' (a.swap i nd'.hosted new) where
  hosted := Function.update_self ..
  backs := by rw [hst.keeps.durable]; exact hbacks.mono (Arena.le_swap _ _ _ _) fun _ => rfl
  total := hst.keeps.total.trans htotal
  policy := by rw [hst.shared, hpolicy]; rfl
  live := fun t ht => manned_started hst hprobe hasked ht
  queued := fun o ho => hqueue o (hst.queue ▸ ho)
  learned := fun ho => by rw [hst.isCatchingUp]; exact decide_eq_false (hlearn ho)

/-- **An idle replica resumes.** -/
theorem Crew.resumes (hres : SmrNode.Resumes ctx nd sh nd' sh' fx) (hidle : nd.currentAttempt = none)
    (hbacks : Backs ρ i nd.durable a) (htotal : nd.totalReplicas = ρ.size) (hpolicy : sh.policy = .fixed ρ.leader)
    (hqueue : ∀ o ∈ nd.queue, ρ.Asked o.command) (hlearn : ρ.once → nd'.isCatchingUp = false)
    (new : List (Envelope SmrMsg)) : Crew ρ i nd' sh' (a.swap i nd'.hosted new) := by
  cases hres with
  | rests =>
    exact
      { hosted := Function.update_self ..
        backs := hbacks.mono (Arena.le_swap _ _ _ _) fun _ => rfl
        total := htotal
        policy := hpolicy
        live := fun t ht => absurd (hidle.symm.trans ht) (by simp)
        queued := hqueue
        learned := hlearn }
  | @proposes o queue hint _ _ _ hq hl hst =>
    have hrest : ∀ o' ∈ queue, ρ.Asked o'.command := fun o' ho => hqueue o' (by rw [hq]; exact List.mem_cons_of_mem _ ho)
    exact Crew.started hst hbacks htotal hpolicy hrest (fun ho => absurd ho (by simp))
      (fun _ _ => hqueue o (by rw [hq]; exact List.mem_cons_self ..)) (fun _ => by simp) new
  | probes hst =>
    refine Crew.started hst hbacks htotal hpolicy hqueue (fun _ => rfl) (fun id ho => absurd ho (by simp)) (fun ho => ?_)
      new
    -- a probe is under way, so none is barred
    have hcatch := hlearn ho
    rw [hst.isCatchingUp] at hcatch
    exact absurd hcatch (by simp)

/-! ## One event -/

/-- **A request** is served by the node's recorder. -/
theorem request_came {src : NodeId} {req : RecordRequest Command}
    (hg : Good ρ (Function.update R i (ρ.Reach i nd)) a) (hc : Crew ρ i nd sh a)
    (hreq : ⟨src, i, .request req⟩ ∈ a.sends) (hcall : SmrNode.onRequest src req nd sh = .ok (nd', sh', fx)) :
    Came ρ R i (.message src (.request req)) a nd' sh' fx (a.step (.record src i req)) := by
  simp only [SmrNode.onRequest, Except.ok.injEq, Prod.mk.injEq] at hcall
  obtain ⟨rfl, rfl, rfl⟩ := hcall
  have hle := Arena.le_step a (.record src i req)
  have hstep := hg.step (.record src i req)
    (.of_not_spawn (by simp) hreq trivial (.inr trivial) fun _ => trivial)
  have hans : ((nd.durable.recorder req.slot).handle req).2 = Arena.answer (a.calls req.slot i) req := by
    unfold Recorder.handle Arena.answer
    rw [Isr.replay_snoc, ← hc.backs.recorder req.slot]
    rfl
  refine
    { good := hstep.reach le_rfl fun _ hsome => hsome
      crew :=
        { hc with
          backs := ⟨fun k => ?_, fun k c hk => (hc.backs.applied k c hk).mono (hle.hist k), hc.backs.length⟩
          live := fun t ht => ⟨(hc.live t ht).frontier, (hc.live t ht).slot, (hc.live t ht).started,
            (hc.live t ht).probe, (hc.live t ht).asked⟩ }
      le := hle
      sends := ?_
      calls := rfl
      others := fun _ _ => rfl }
  · by_cases hk : k = req.slot
    · subst hk
      have hcalls : (a.step (.record src i req)).calls req.slot i =
          a.calls req.slot i ++ [(req.reqStep, req.proposal)] := by simp [Arena.step]
      rw [hcalls, Isr.replay_snoc, ← hc.backs.recorder req.slot, Durable.recorder, AList.lookup_insert]
      rfl
    · have hcalls : (a.step (.record src i req)).calls k i = a.calls k i := by simp [Arena.step, hk]
      rw [hcalls, Durable.recorder, AList.lookup_insert_ne hk]
      exact hc.backs.recorder k
  · rw [hans]
    rfl

/-- the arena of a reply that the attempt's proposer took -/
theorem Crew.replied {src : NodeId} {resp : RecordResponse Command} {rng : NodeId → Draw} {t : CurrentAttempt}
    {p : Proposer Command} (hc : Crew ρ i nd sh a) (ht : nd.currentAttempt = some t)
    (hcall : t.proposer.onResponse src resp rng = .ok (p, fx)) :
    a.step (.reply src i resp rng) = a.swap i (some p) (sendsOf i fx) := by
  have hprops : a.props i = some t.proposer := by rw [hc.hosted, SmrNode.hosted, ht]; rfl
  exact Arena.host_ok (fun q => q.onResponse src resp rng) hprops hcall

/-- a replica that goes on with its attempt -/
theorem Crew.driven {t : CurrentAttempt} {p : Proposer Command} (hc : Crew ρ i nd sh a)
    (ht : nd.currentAttempt = some t) (hd : nd.Driven t p nd') (hslot : p.slot = t.proposer.slot)
    (hstep : t.proposer.step ≤ p.step) (new : List (Envelope SmrMsg)) :
    Crew ρ i nd' sh (a.swap i (some p) new) ∧ nd'.hosted = some p := by
  obtain ⟨b, hb⟩ := hd.drives
  have hhost : nd'.hosted = some p := by rw [SmrNode.hosted, hb]; rfl
  refine ⟨?_, hhost⟩
  exact
    { hosted := by rw [hhost]; exact Function.update_self ..
      backs := by rw [hd.keeps.durable]; exact hc.backs.mono (Arena.le_swap _ _ _ _) fun _ => rfl
      total := hd.keeps.total.trans hc.total
      policy := hc.policy
      live := fun t' ht' => (hc.live t ht).driven hd hslot hstep ht'
      queued := fun o ho => hc.queued o (hd.queue ▸ ho)
      learned := fun ho => by rw [Smr.Driven.isCatchingUp ht hd]; exact hc.learned ho }

/-- **A reply** drives the attempt; if that decides, the decision is applied and the replica resumes. -/
theorem reply_came (ctx : SmrCtx) {src : NodeId} {resp : RecordResponse Command}
    (hg : Good ρ (Function.update R ctx.selfId (ρ.Reach ctx.selfId nd)) a) (hc : Crew ρ ctx.selfId nd sh a)
    (hresp : ⟨src, ctx.selfId, .response resp⟩ ∈ a.sends)
    (hcov : ρ.once ∨ ∀ p, nd.hosted = some p → p.Covers (a.calls p.slot) src resp)
    (hcall : SmrNode.onReply ctx src resp nd sh = .ok (nd', sh', fx)) :
    ∃ a', Came ρ R ctx.selfId (.message src (.response resp)) a nd' sh' fx a' := by
  rcases SmrNode.onReply_moves hcall with ⟨rfl, rfl, rfl⟩ | ⟨t, p, fx₁, nd₁, ht, -, hans, hdrv, hnext⟩
  · exact ⟨a, .same (fun _ => rfl) hg hc⟩
  obtain ⟨hslot, hrise⟩ := Proposer.onResponse_rises hans
  have hact := hc.replied ht hans
  have hcovered : ρ.once ∨ Arena.Covered a (.reply src ctx.selfId resp ctx.rng) := hcov.imp_right fun hcov q hq =>
    hcov q (hc.hosted.symm.trans hq)
  have hstep := hg.step (.reply src ctx.selfId resp ctx.rng)
    (.of_not_spawn (by simp) hresp trivial hcovered fun _ => trivial)
  rw [hact] at hstep
  obtain ⟨hcrew, hhost⟩ := hc.driven ht hdrv hslot hrise (sendsOf ctx.selfId fx₁)
  have hdur := hdrv.keeps.durable
  obtain ⟨b, hb⟩ := hdrv.drives
  rcases hnext with ⟨-, rfl, rfl, rfl⟩ | ⟨decided, ended, nd₂, sh₂, fx₂, hdec, hend, hended, hres, rfl, hlearn⟩
  · refine ⟨_, .of_swap (fun _ => rfl) ?_ (by rw [hhost]; exact hcrew)⟩
    rw [hhost]
    exact hstep.reach (by rw [hdur]) fun _ _ => by rw [hb]; rfl
  -- the attempt ends, and the replica resumes at a slot it never sent for
  have hnext₂ : nd₂.durable.nextSlot = nd.durable.nextSlot + 1 := by
    rw [hended.durable, ← hdur]
    rfl
  have hdur' := Smr.Resumes.durable hres
  have hlt : nd.durable.nextSlot < nd'.durable.nextSlot := by
    rw [hdur', hnext₂]
    exact Nat.lt_succ_self _
  have hfree := fun hcare => hstep.untouched (k := nd₂.durable.nextSlot) (.inl (by omega)) hcare
  have hdecides : Decides ρ.size ((a.swap ctx.selfId (some p) (sendsOf ctx.selfId fx₁)).hist nd.durable.nextSlot)
      decided := by
    have := hstep.spreads.decided ctx.selfId p decided (Function.update_self ..) hdec
    rwa [hslot, (hc.live t ht).slot] at this
  have hbacks₂ : Backs ρ ctx.selfId nd₂.durable (a.swap ctx.selfId (some p) (sendsOf ctx.selfId fx₁)) := by
    rw [hended.durable]
    refine ⟨fun k => ?_, fun k c hk => ?_, ?_⟩
    · exact hcrew.backs.recorder k
    · have hk' : (nd.durable.appliedLog ++ [decided])[k]? = some c := by rw [← hdur]; exact hk
      rw [List.getElem?_append] at hk'
      split_ifs at hk' with hlen
      · exact hcrew.backs.applied k c (by rw [hdur]; exact hk')
      · have hk0 : k - nd.durable.appliedLog.length = 0 := by
          by_contra hne
          rw [List.getElem?_eq_none (by simp; omega)] at hk'
          exact absurd hk' (by simp)
        rw [hk0] at hk'
        obtain rfl : decided = c := Option.some.inj hk'
        obtain rfl : k = nd.durable.nextSlot := by rw [← hc.backs.length]; omega
        exact hdecides
    · show (nd₁.durable.appliedLog ++ [decided]).length = nd₁.durable.nextSlot + 1
      rw [List.length_append, hcrew.backs.length]
      rfl
  have hended' : ended = ⟨t.origin, t.command, t.slot, p, b⟩ := Option.some.inj (hend.symm.trans hb)
  have hpolicy₂ : sh₂.policy = .fixed ρ.leader := by
    have hnote := hended.policy
    rw [hc.policy] at hnote
    exact (Except.ok.inj hnote).symm
  have hqueue₂ : ∀ o ∈ nd₂.queue, ρ.Asked o.command := by
    intro o ho
    rcases hended.queue with heq | ⟨id, hid, heq⟩
    · exact hcrew.queued o (heq ▸ ho)
    · rw [heq] at ho
      rcases List.mem_cons.1 ho with rfl | ho
      · rw [hended'] at hid ⊢
        exact (hc.live t ht).asked id hid
      · exact hcrew.queued o ho
  have hlearned' : ρ.once → nd'.isCatchingUp = false := by
    intro ho
    rw [← Bool.not_eq_true, hlearn, hended']
    rintro ⟨hcatch, -⟩
    have hno := hc.learned ho
    rw [Bool.eq_false_iff] at hno
    exact hno ((Smr.isCatchingUp_iff ht).2 hcatch)
  have htotal₂ : nd₂.totalReplicas = ρ.size := hended.total.trans hcrew.total
  have hgood : Good ρ (Function.update R ctx.selfId (ρ.Reach ctx.selfId nd'))
      (a.swap ctx.selfId (some p) (sendsOf ctx.selfId fx₁)) :=
    hstep.reach hlt.le fun heq => absurd heq hlt.ne'
  have hgood' := hgood.resumes hres hended.idle htotal₂ hpolicy₂ hfree hqueue₂ fun hsome => by
    rw [Function.update_self]
    exact fun _ => .inr ⟨by rw [hdur'], hsome⟩
  have hcrew' := Crew.resumes hres hended.idle hbacks₂ htotal₂ hpolicy₂ hqueue₂ hlearned' (sendsOf ctx.selfId fx₂)
  have hsends : sendsOf ctx.selfId fx₁ ++ sendsOf ctx.selfId fx₂ = sendsOf ctx.selfId (fx₁ ++ fx₂) :=
    (List.filterMap_append ..).symm
  rw [Arena.swap_swap, hsends] at hgood' hcrew'
  exact ⟨_, .of_swap (fun _ => rfl) hgood' hcrew'⟩

/-- **A timer** wakes an idle replica, sets a stalled probe up again, or drives the attempt. -/
theorem timer_came (ctx : SmrCtx) {id : TimerId} (hg : Good ρ (Function.update R ctx.selfId (ρ.Reach ctx.selfId nd)) a)
    (hc : Crew ρ ctx.selfId nd sh a) (hcall : SmrNode.onTimer ctx id nd sh = .ok (nd', sh', fx)) :
    ∃ a', Came ρ R ctx.selfId (.timer id) a nd' sh' fx a' := by
  rcases SmrNode.onTimer_moves hcall with ⟨rfl, rfl, rfl⟩ | ⟨hidle, hres, hlearn⟩ | ⟨hcatch, hst⟩ |
    ⟨t, p, ht, hid, htm, hdrv, rfl⟩
  · exact ⟨a, .same (fun _ => rfl) hg hc⟩
  · have hdur := Smr.Resumes.durable hres
    have hfree := fun hcare => hg.untouched (k := nd.durable.nextSlot) (.inr ⟨rfl, hidle⟩) hcare
    have hgood : Good ρ (Function.update R ctx.selfId (ρ.Reach ctx.selfId nd')) a :=
      hg.reach (by rw [hdur]) fun _ hsome => by rw [hidle] at hsome; exact absurd hsome (by decide)
    have hgood' := hgood.resumes hres hidle hc.total hc.policy hfree hc.queued fun hsome => by
      rw [Function.update_self]
      exact fun _ => .inr ⟨by rw [hdur], hsome⟩
    exact ⟨_, .of_swap (fun _ => rfl) hgood' (.resumes hres hidle hc.backs hc.total hc.policy hc.queued
      (fun _ => hlearn) _)⟩
  · -- the watchdog drops its probe for another one of the same slot
    have hnever : ¬ ρ.once := fun ho => absurd hcatch (by rw [hc.learned ho]; decide)
    obtain ⟨delay, ⟨b, hb⟩, -⟩ := hst.drives
    have hdur := hst.keeps.durable
    have hgood : Good ρ (Function.update R ctx.selfId (ρ.Reach ctx.selfId nd')) a :=
      hg.reach (by rw [hdur]) fun _ _ => by rw [hb]; rfl
    have hgood' := hgood.started hst hc.total (.inl rfl) (fun ho => absurd ho hnever) (.inl rfl) <| by
      rw [Function.update_self]
      exact fun _ => .inr ⟨by rw [hdur], by rw [hb]; rfl⟩
    exact ⟨_, .of_swap (fun _ => rfl) hgood' (.started hst hc.backs hc.total hc.policy hc.queued (fun _ => rfl)
      (fun id ho => absurd ho (by simp)) (fun ho => absurd ho hnever) _)⟩
  · obtain ⟨hslot, hrise⟩ := Proposer.onTimer_rises htm hid
    have hprops : a.props ctx.selfId = some t.proposer := by rw [hc.hosted, SmrNode.hosted, ht]; rfl
    have hact : a.step (.timer ctx.selfId id nd.localStep ctx.rng) =
        a.swap ctx.selfId (some p) (sendsOf ctx.selfId fx) :=
      Arena.host_ok (fun q => q.onTimer id nd.localStep ctx.rng) hprops htm
    have hfour : ∀ q, a.props ctx.selfId = some q → 4 ≤ q.step := by
      intro q hq
      obtain rfl := Option.some.inj (hprops.symm.trans hq)
      exact (hg.inv.seat ctx.selfId _ hprops).started.resolve_left (hc.live t ht).started
    have hstep := hg.step (.timer ctx.selfId id nd.localStep ctx.rng)
      (.of_not_spawn (by simp) (fun _ => hfour) (fun hk => absurd hk hid) (.inr trivial) fun _ => by
        cases id with
        | kickoff => exact absurd rfl hid
        | hedge => trivial
        | catchUpWatchdog => trivial
        | retry s => trivial)
    rw [hact] at hstep
    obtain ⟨hcrew, hhost⟩ := hc.driven ht hdrv hslot hrise (sendsOf ctx.selfId fx)
    obtain ⟨b, hb⟩ := hdrv.drives
    refine ⟨_, .of_swap (fun _ => rfl) ?_ (by rw [hhost]; exact hcrew)⟩
    rw [hhost]
    exact hstep.reach (by rw [hdrv.keeps.durable]) fun _ _ => by rw [hb]; rfl

end Crew

/-! ## A batch -/

/-- if the event is a reply that completes phase 1 or 2, its recorders attest the proposal of the replica's attempt -/
def Event.Covered (calls : ℕ → NodeId → List (ℕ × Proposal Command)) (nd : SmrNode) : Event → Prop
  | .message src (.response resp) => ∀ p ∈ nd.hosted, p.Covers (calls p.slot) src resp
  | _ => True

/-- what the events of a batch add to the calls that were served -/
def serveAll (i : NodeId) (calls : ℕ → NodeId → List (ℕ × Proposal Command)) (events : List Dispatch) :
    ℕ → NodeId → List (ℕ × Proposal Command) :=
  events.foldl (fun calls d => d.event.serve i calls) calls

/-- every event of the batch is covered when its turn comes -/
def Running.Covered (cfg : Config) (calls : ℕ → NodeId → List (ℕ × Proposal Command)) :
    Running → List Dispatch → Prop
  | _, [] => True
  | r, d :: ds => d.event.Covered calls r.node ∧
    match r.dispatch cfg d with
    | .error _ => True
    | .ok r => r.Covered cfg (d.event.serve cfg.id calls) ds

instance (calls : ℕ → NodeId → List (ℕ × Proposal Command)) (nd : SmrNode) :
    ∀ ev : Event, Decidable (ev.Covered calls nd)
  | .message src (.response resp) =>
    inferInstanceAs (Decidable (∀ p ∈ nd.hosted, p.Covers (calls p.slot) src resp))
  | .message _ (.request _) => .isTrue trivial
  | .timer _ => .isTrue trivial
  | .clientSubmit _ => .isTrue trivial

instance decidableCovered (cfg : Config) : ∀ (calls : ℕ → NodeId → List (ℕ × Proposal Command)) (r : Running)
    (events : List Dispatch), Decidable (r.Covered cfg calls events)
  | _, _, [] => .isTrue trivial
  | calls, r, d :: ds =>
    let rest : Decidable (match r.dispatch cfg d with
        | .error _ => True
        | .ok r => r.Covered cfg (d.event.serve cfg.id calls) ds) :=
      match r.dispatch cfg d with
      | .error _ => .isTrue trivial
      | .ok r => decidableCovered cfg (d.event.serve cfg.id calls) r ds
    @instDecidableAnd _ _ _ rest

/-- a submission touches the queue only -/
theorem submit_ok {ctx : SmrCtx} {debugAssertions : Bool} {id : OpId} {replica : NodeId} {command : Command}
    {nd nd' : SmrNode} {sh sh' : Shared} {fx : List (Effect SmrMsg)}
    (h : submit ctx debugAssertions id replica command nd sh = .ok (nd', sh', fx)) :
    nd' = { nd with queue := nd.queue ++ [⟨id, command⟩] } ∧ sh' = sh.invoke id replica command ctx.now ∧
      ∀ j, sendsOf j fx = [] := by
  unfold submit at h
  split_ifs at h
  obtain ⟨rfl, h'⟩ := Prod.mk.inj (Except.ok.inj h)
  obtain ⟨rfl, rfl⟩ := Prod.mk.inj h'
  refine ⟨rfl, rfl, fun j => ?_⟩
  show sendsOf j (if (nd.enqueue id command).2 = true then [Effect.timer 0 TimerId.kickoff] else []) = []
  split_ifs <;> rfl

section Batch

variable {ρ : Rules} {R : NodeId → ℕ → Prop} {a : Arena Command} {cfg : Config} {r r' : Running}

/-- **One event of a process is a run of fine acts.** -/
theorem dispatch_came {d : Dispatch} (hg : Good ρ (Function.update R cfg.id (ρ.Reach cfg.id r.node)) a)
    (hc : Crew ρ cfg.id r.node r.shared a)
    (hm : ∀ src payload, d.event = .message src payload → ⟨src, cfg.id, payload⟩ ∈ a.sends)
    (hasked : ∀ c, d.event = .clientSubmit c → ρ.Asked c) (hcov : ρ.once ∨ d.event.Covered a.calls r.node)
    (hd : r.dispatch cfg d = .ok r') : ∃ fx a', Came ρ R cfg.id d.event a r'.node r'.shared fx a' ∧
      r'.pendingOutbound = r.pendingOutbound ++ sendsOf cfg.id fx := by
  unfold Running.dispatch at hd
  dsimp only at hd
  cases he : d.event with
  | message src payload =>
    rw [he] at hd hcov
    dsimp only at hd
    obtain ⟨nd', sh', fx, ho, -⟩ := Running.absorb_ok hd
    obtain ⟨rfl, rfl, hpend⟩ := absorb_tagging hd ho
    cases payload with
    | request req => exact ⟨fx, _, request_came hg hc (hm src _ he) ho, hpend⟩
    | response resp =>
      obtain ⟨a', hcame⟩ := reply_came ((r.tickNow d.elapsed).ctx cfg d.rng) hg hc (hm src _ he) hcov ho
      exact ⟨fx, a', hcame, hpend⟩
  | timer id =>
    rw [he] at hd
    dsimp only at hd
    obtain ⟨nd', sh', fx, ho, -⟩ := Running.absorb_ok hd
    obtain ⟨rfl, rfl, hpend⟩ := absorb_tagging hd ho
    obtain ⟨a', hcame⟩ := timer_came ((r.tickNow d.elapsed).ctx cfg d.rng) hg hc ho
    exact ⟨fx, a', hcame, hpend⟩
  | clientSubmit command =>
    rw [he] at hd
    dsimp only at hd
    obtain ⟨nd', sh', fx, ho, -⟩ := Running.absorb_ok hd
    obtain ⟨rfl, rfl, hpend⟩ := absorb_tagging hd ho
    obtain ⟨hnode, hshared, hmute⟩ := submit_ok ho
    refine ⟨fx, a, ?_, hpend⟩
    refine
      { good := hg.reach (by rw [hnode]; exact le_rfl) fun _ hsome => by rw [hnode]; exact hsome
        crew := ?_
        le := .refl a
        sends := by rw [hmute, List.append_nil]
        calls := rfl
        others := fun _ _ => rfl }
    rw [hnode, hshared]
    exact
      { hc with
        live := fun t ht => ⟨(hc.live t ht).frontier, (hc.live t ht).slot, (hc.live t ht).started, (hc.live t ht).probe,
          (hc.live t ht).asked⟩
        queued := fun o ho => by
          rcases List.mem_append.1 ho with ho | ho
          · exact hc.queued o ho
          · rw [List.mem_singleton.1 ho]
            exact hasked command he }

/-- a batch took the arena to `a'`, and the process to `r'` -/
structure Batched (ρ : Rules) (R : NodeId → ℕ → Prop) (i : NodeId) (events : List Dispatch) (a : Arena Command)
    (r r' : Running) (a' : Arena Command) : Prop where
  good : Good ρ (Function.update R i (ρ.Reach i r'.node)) a'
  crew : Crew ρ i r'.node r'.shared a'
  le : a.Le a'
  sends : ∃ new, a'.sends = a.sends ++ new ∧ r'.pendingOutbound = r.pendingOutbound ++ new ∧ ∀ e ∈ new, e.src = i
  calls : a'.calls = serveAll i a.calls events
  others : ∀ j, j ≠ i → a'.props j = a.props j

/-- **A batch is a run of fine acts.** -/
theorem batch_came {events : List Dispatch} (hg : Good ρ (Function.update R cfg.id (ρ.Reach cfg.id r.node)) a)
    (hc : Crew ρ cfg.id r.node r.shared a)
    (hm : ∀ d ∈ events, ∀ src payload, d.event = .message src payload → ⟨src, cfg.id, payload⟩ ∈ a.sends)
    (hasked : ∀ d ∈ events, ∀ c, d.event = .clientSubmit c → ρ.Asked c)
    (hcov : ρ.once ∨ r.Covered cfg a.calls events) (hr : r.applyBatch cfg events = .ok r') :
    ∃ a', Batched ρ R cfg.id events a r r' a' := by
  induction events generalizing r a with
  | nil =>
    obtain rfl := Except.ok.inj hr
    exact ⟨a, hg, hc, .refl a, ⟨[], by simp, by simp, by simp⟩, rfl, fun _ _ => rfl⟩
  | cons d ds ih =>
    rw [Running.applyBatch] at hr
    cases hd : r.dispatch cfg d with
    | error e => rw [hd] at hr; exact absurd hr (by simp)
    | ok r₁ =>
      rw [hd] at hr
      have hcov₁ : ρ.once ∨ d.event.Covered a.calls r.node := hcov.imp_right fun h => h.1
      obtain ⟨fx, a₁, hcame, hpend⟩ := dispatch_came hg hc (hm d List.mem_cons_self) (hasked d List.mem_cons_self)
        hcov₁ hd
      have hcov₂ : ρ.once ∨ r₁.Covered cfg a₁.calls ds := by
        refine hcov.imp_right fun h => ?_
        have h₂ := h.2
        rw [hd] at h₂
        rw [hcame.calls]
        exact h₂
      obtain ⟨a', hb⟩ := ih hcame.good hcame.crew
        (fun d' hd' src payload he => hcame.le.sends _ (hm d' (List.mem_cons_of_mem _ hd') src payload he))
        (fun d' hd' => hasked d' (List.mem_cons_of_mem _ hd')) hcov₂ hr
      obtain ⟨new, hsends, hpend', hsrc⟩ := hb.sends
      refine ⟨a', hb.good, hb.crew, hcame.le.trans hb.le, ⟨sendsOf cfg.id fx ++ new, ?_, ?_, fun e he => ?_⟩, ?_,
        fun j hj => ?_⟩
      · rw [hsends, hcame.sends, List.append_assoc]
      · rw [hpend', hpend, List.append_assoc]
      · exact (List.mem_append.1 he).elim Smr.sendsOf_src (hsrc e)
      · rw [hb.calls, hcame.calls]
        rfl
      · rw [hb.others j hj, hcame.others j hj]

end Batch

end Net

end Queso
