/-
What a replica acknowledges, and the books that one call on it keeps.

A recorder's answer is held by a durable state whose register served the answered call, and an outcome by one that
applied the operation at its slot (`Release.HeldBy`). A durable state only grows (`Grows`), and what is held stays held.

`Books` relates a replica to the operations its process knows. Every call keeps them (`Booked`): a request and a reply
may let the durable state grow, and whatever they send acknowledges what it then holds; a timer, a restart and a
submission change nothing durable and acknowledge nothing (`Mute`).
-/
import Queso.Net.Driver
import Queso.Smr.Custody
import Queso.Smr.Deferral

namespace Queso.Net

/-! ## Durable states grow -/

/-- the log says what was applied, and every register is one that served some calls -/
structure Lawful (d : Durable) : Prop where
  frontier : d.nextSlot = d.appliedLog.length
  state : d.kv = Kv.replay d.appliedLog
  registers : ∀ k r, d.recorders.lookup k = some r → ∃ l, r.isr = Isr.replay l

/-- `d'` continues `d`: its log is longer and its registers served more -/
structure Grows (d d' : Durable) : Prop where
  log : d.appliedLog <+: d'.appliedLog
  registers : ∀ k r l, d.recorders.lookup k = some r → r.isr = Isr.replay l →
    ∃ r' later, d'.recorders.lookup k = some r' ∧ r'.isr = Isr.replay (l ++ later)

/-- a register of `d` served the call that `resp` answers, and `resp` is what it said then -/
def Acknowledged (d : Durable) (resp : RecordResponse Command) : Prop :=
  ∃ r calls v later, d.recorders.lookup resp.slot = some r ∧
    r.isr = Isr.replay (calls ++ (resp.reqStep, v) :: later) ∧
    (Isr.replay (calls ++ [(resp.reqStep, v)])).summary = ⟨resp.step, resp.first, resp.priorAgg⟩

/-- `d` applied the operation of `record` at its slot, with the outcome that the record has -/
def AppliedAs (d : Durable) (record : OpRecord) : Prop :=
  ∃ k, record.decidedSlot = some k ∧ k < d.nextSlot ∧ d.appliedLog[k]? = some record.command ∧
    record.outcome = some (record.command.outcome ((Kv.replay (d.appliedLog.take k)).apply record.command).2)

/-- what a release acknowledges is in `d` -/
inductive Release.HeldBy (d : Durable) : Release → Prop where
  | response {src dst : NodeId} {resp : RecordResponse Command} (h : Acknowledged d resp) :
      HeldBy d (.sent ⟨src, dst, .response resp⟩)
  | outcome {id : OpId} {record : OpRecord} (h : AppliedAs d record) : HeldBy d (.outcome id record)

/-- a recorder's answer, or an outcome -/
def Release.Acknowledges : Release → Prop
  | .sent e => ∃ resp, e.payload = .response resp
  | .outcome _ _ => True

theorem Grows.refl (d : Durable) : Grows d d :=
  ⟨List.prefix_refl _, fun _ r _ hr hl => ⟨r, [], hr, by rw [List.append_nil, hl]⟩⟩

theorem Grows.trans {d d' d'' : Durable} (h : Grows d d') (h' : Grows d' d'') : Grows d d'' where
  log := h.log.trans h'.log
  registers := fun k r l hr hl => by
    obtain ⟨r₁, l₁, hr₁, hl₁⟩ := h.registers k r l hr hl
    obtain ⟨r₂, l₂, hr₂, hl₂⟩ := h'.registers k r₁ (l ++ l₁) hr₁ hl₁
    exact ⟨r₂, l₁ ++ l₂, hr₂, by rw [hl₂, List.append_assoc]⟩

theorem Acknowledged.mono {d d' : Durable} {resp : RecordResponse Command} (h : Acknowledged d resp) (hg : Grows d d') :
    Acknowledged d' resp := by
  obtain ⟨r, calls, v, later, hr, hl, hsum⟩ := h
  obtain ⟨r', more, hr', hl'⟩ := hg.registers _ r _ hr hl
  exact ⟨r', calls, v, later ++ more, hr', by rw [hl', List.append_assoc, List.cons_append], hsum⟩

theorem AppliedAs.mono {d d' : Durable} {record : OpRecord} (h : AppliedAs d record) (hd : Lawful d) (hd' : Lawful d')
    (hg : Grows d d') : AppliedAs d' record := by
  obtain ⟨k, hk, hlt, hat, hout⟩ := h
  obtain ⟨more, hmore⟩ := hg.log
  have hlen : k < d.appliedLog.length := hd.frontier ▸ hlt
  refine ⟨k, hk, ?_, ?_, ?_⟩
  · rw [hd'.frontier, ← hmore, List.length_append]
    omega
  · rw [← hmore, List.getElem?_append_left hlen]
    exact hat
  · rw [← hmore, List.take_append_of_le_length hlen.le]
    exact hout

/-- what is held stays held -/
theorem Release.HeldBy.mono {d d' : Durable} {rel : Release} (h : rel.HeldBy d) (hd : Lawful d) (hd' : Lawful d')
    (hg : Grows d d') : rel.HeldBy d' := by
  cases h with
  | response h => exact .response (h.mono hg)
  | outcome h => exact .outcome (h.mono hd hd' hg)

theorem lawful_default : Lawful .default :=
  ⟨rfl, rfl, fun k r hr => absurd hr (by rw [show Durable.default.recorders.lookup k = none from rfl]; simp)⟩

/-- nothing is held by the initial state -/
theorem not_heldBy_default {rel : Release} : ¬ rel.HeldBy .default := by
  intro h
  cases h with
  | response h =>
    obtain ⟨r, -, -, -, hr, -⟩ := h
    exact absurd hr (by rw [show Durable.default.recorders.lookup _ = none from rfl]; simp)
  | outcome h =>
    obtain ⟨k, -, hlt, -⟩ := h
    exact absurd hlt (Nat.not_lt_zero k)

/-! ## One call keeps the replica's books -/

/-- the operation is known under its command -/
def Named (sh : Shared) (id : OpId) (c : Command) : Prop := ∃ r, sh.results.lookup id = some r ∧ r.command = c

/-- a replica and what it shares with its process: every operation it works on is known, and every outcome is applied -/
structure Books (nd : SmrNode) (sh : Shared) (next : OpId) : Prop where
  lawful : Lawful nd.durable
  known : ∀ id r, sh.results.lookup id = some r → id < next
  applied : ∀ id r, sh.results.lookup id = some r → r.outcome ≠ none → AppliedAs nd.durable r
  queued : ∀ o ∈ nd.queue, Named sh o.opId o.command
  frontier : ∀ a, nd.currentAttempt = some a → a.slot = nd.durable.nextSlot
  flying : ∀ a id, nd.currentAttempt = some a → a.origin = .op id → Named sh id a.command

section Calls

variable {ctx : SmrCtx} {nd nd' : SmrNode} {sh sh' : Shared} {fx : List (Effect SmrMsg)} {next : OpId}

theorem Lawful.record {d : Durable} (h : Lawful d) (req : RecordRequest Command) :
    Lawful { d with recorders := d.recorders.insert req.slot ((d.recorder req.slot).handle req).1 } ∧
      Grows d { d with recorders := d.recorders.insert req.slot ((d.recorder req.slot).handle req).1 } ∧
      Acknowledged { d with recorders := d.recorders.insert req.slot ((d.recorder req.slot).handle req).1 }
        ((d.recorder req.slot).handle req).2 := by
  -- the calls that the register served before
  obtain ⟨calls, hcalls⟩ : ∃ calls, (d.recorder req.slot).isr = Isr.replay calls := by
    unfold Durable.recorder
    cases hr : d.recorders.lookup req.slot with
    | none => exact ⟨[], rfl⟩
    | some r => exact h.registers _ r hr
  have hserved : ((d.recorder req.slot).handle req).1.isr = Isr.replay (calls ++ [(req.reqStep, req.proposal)]) := by
    rw [Isr.replay_snoc, ← hcalls]
    rfl
  refine ⟨⟨h.frontier, h.state, fun k r hr => ?_⟩, ⟨List.prefix_refl _, fun k r l hr hl => ?_⟩, ?_⟩
  · by_cases hk : k = req.slot
    · rw [hk, AList.lookup_insert] at hr
      exact ⟨_, by rw [← Option.some.inj hr]; exact hserved⟩
    · rw [AList.lookup_insert_ne hk] at hr
      exact h.registers k r hr
  · by_cases hk : k = req.slot
    · subst hk
      have hsame : (d.recorder req.slot).isr = Isr.replay l := by
        unfold Durable.recorder
        rw [hr]
        exact hl
      refine ⟨_, [(req.reqStep, req.proposal)], AList.lookup_insert _, ?_⟩
      rw [Isr.replay_snoc, ← hsame]
      rfl
    · exact ⟨r, [], by rw [AList.lookup_insert_ne hk]; exact hr, by rw [List.append_nil]; exact hl⟩
  · exact ⟨_, calls, req.proposal, [], AList.lookup_insert _, hserved, congrArg Isr.summary hserved.symm⟩

/-- a decision extends the log -/
theorem Lawful.apply {d : Durable} (h : Lawful d) (nd : SmrNode) (hd : nd.durable = d) (a : CurrentAttempt)
    (decided : Command) : Lawful (nd.applied a decided).durable ∧ Grows d (nd.applied a decided).durable := by
  subst hd
  refine ⟨⟨?_, ?_, h.registers⟩, ⟨List.prefix_append _ _, fun k r l hr hl => ⟨r, [], hr, ?_⟩⟩⟩
  · show nd.durable.nextSlot + 1 = (nd.durable.appliedLog ++ [decided]).length
    rw [List.length_append, ← h.frontier]
    rfl
  · show (nd.durable.kv.apply decided).1 = Kv.replay (nd.durable.appliedLog ++ [decided])
    rw [Kv.replay_snoc, ← h.state]
  · rw [List.append_nil]
    exact hl

/-- nothing that is sent acknowledges anything -/
def Mute (fx : List (Effect SmrMsg)) : Prop := ∀ i, ∀ e ∈ sendsOf i fx, ¬ (Release.sent e).Acknowledges

theorem mute_of_requests {i : NodeId} {k : ℕ} (h : Proposer.Requests i k fx) : Mute fx := by
  rintro j e he ⟨resp, hresp⟩
  have hmem : e.payload ∈ (sendsOf i fx).map Envelope.payload := by
    rw [sendsOf_payload i j]
    exact List.mem_map_of_mem he
  obtain ⟨e', he', hsame⟩ := List.mem_map.1 hmem
  obtain ⟨r, s, x, rfl⟩ := h e' he'
  exact absurd (hsame.trans hresp) (by simp)

theorem mute_nil : Mute [] := fun _ _ he => absurd he (by simp [sendsOf])

theorem Mute.append {more : List (Effect SmrMsg)} (h : Mute fx) (h' : Mute more) : Mute (fx ++ more) := by
  intro i e he
  rw [sendsOf, List.filterMap_append] at he
  rcases List.mem_append.1 he with he | he
  · exact h i e he
  · exact h' i e he

/-- the bookkeeping of an attempt that is started -/
theorem Books.started {origin : AttemptOrigin} {command : Command} {leader : Option NodeId} (h : Books nd sh next)
    (hst : SmrNode.Started ctx nd sh origin command leader nd' sh' fx)
    (hop : ∀ id, origin = .op id → Named sh id command) : Books nd' sh' next ∧ nd'.durable = nd.durable ∧ Mute fx := by
  have hres : sh'.results = sh.results := by rw [hst.shared]
  have hdur := hst.keeps.durable
  obtain ⟨delay, ⟨b, hb⟩, hfx⟩ := hst.drives
  have hnamed : ∀ id c, Named sh id c → Named sh' id c := by
    unfold Named
    rw [hres]
    exact fun _ _ hn => hn
  refine ⟨⟨?_, ?_, ?_, ?_, ?_, ?_⟩, hdur, ?_⟩
  · rw [hdur]
    exact h.lawful
  · rw [hres]
    exact h.known
  · rw [hres, hdur]
    exact h.applied
  · intro o ho
    rw [hst.queue] at ho
    exact hnamed _ _ (h.queued o ho)
  · intro a ha
    obtain rfl := Option.some.inj (hb.symm.trans ha)
    exact congrArg Durable.nextSlot hdur.symm
  · intro a id ha ho
    obtain rfl := Option.some.inj (hb.symm.trans ha)
    exact hnamed _ _ (hop id ho)
  · intro i e he
    rw [hfx i] at he
    have hcall : (nd.proposerFor ctx.selfId command leader delay).onTimer .kickoff 0 ctx.rng =
        .ok ((nd.proposerFor ctx.selfId command leader delay).start ctx.rng) := rfl
    exact mute_of_requests (Proposer.onTimer_requests hcall) i e he

theorem Books.resumes (h : Books nd sh next) (hr : SmrNode.Resumes ctx nd sh nd' sh' fx) :
    Books nd' sh' next ∧ nd'.durable = nd.durable ∧ Mute fx := by
  cases hr with
  | rests => exact ⟨h, rfl, mute_nil⟩
  | @proposes op queue leader nd' sh' fx hq hl hst =>
    have hqueue : ∀ o ∈ queue, o ∈ nd.queue := fun o ho => by
      rw [hq]
      exact List.mem_cons_of_mem _ ho
    have hpop : Books { nd with queue := queue } sh next := { h with queued := fun o ho => h.queued o (hqueue o ho) }
    refine hpop.started hst fun id hid => ?_
    obtain rfl := AttemptOrigin.op.inj hid
    exact h.queued op (by rw [hq]; exact List.mem_cons_self)
  | probes hst => exact h.started hst fun id hid => absurd hid (by simp)

/-- the bookkeeping of an attempt whose proposer moves on -/
theorem Books.driven {attempt : CurrentAttempt} {p : Proposer Command} (h : Books nd sh next)
    (ha : nd.currentAttempt = some attempt) (hd : nd.Driven attempt p nd') : Books nd' sh next := by
  obtain ⟨b, hb⟩ := hd.drives
  have hdur := hd.keeps.durable
  refine ⟨by rw [hdur]; exact h.lawful, h.known, by rw [hdur]; exact h.applied, by rw [hd.queue]; exact h.queued, ?_, ?_⟩
  · intro a ha'
    obtain rfl := Option.some.inj (hb.symm.trans ha')
    exact (h.frontier attempt ha).trans (congrArg Durable.nextSlot hdur.symm)
  · intro a id ha' ho
    obtain rfl := Option.some.inj (hb.symm.trans ha')
    exact h.flying attempt id ha ho

/-- the bookkeeping of a decision -/
theorem Books.ended {attempt : CurrentAttempt} {decided : Command} (h : Books nd sh next)
    (ha : nd.currentAttempt = some attempt) (he : SmrNode.Ended ctx nd sh attempt decided nd' sh') :
    Books nd' sh' next ∧ Grows nd.durable nd'.durable := by
  obtain ⟨hlawful, hgrows⟩ := h.lawful.apply nd rfl attempt decided
  rw [← he.durable] at hlawful hgrows
  -- an operation keeps its command, whether it completes or not
  have hnamed : ∀ id c, Named sh id c → Named sh' id c := by
    rintro id c ⟨r, hr, hc⟩
    rcases he.shared with hsame | ⟨id', -, -, hcomplete⟩
    · exact ⟨r, by rw [hsame]; exact hr, hc⟩
    · unfold Named
      rw [hcomplete, Smr.complete_lookup]
      by_cases hid : id = id'
      · rw [if_pos hid, ← hid]
        dsimp only
        rw [hr]
        exact ⟨_, rfl, hc⟩
      · rw [if_neg hid]
        exact ⟨r, hr, hc⟩
  refine ⟨⟨hlawful, ?_, ?_, ?_, ?_, ?_⟩, hgrows⟩
  · intro id r hr
    rcases he.shared with hsame | ⟨id', -, -, hcomplete⟩
    · rw [hsame] at hr
      exact h.known id r hr
    · rw [hcomplete, Smr.complete_lookup] at hr
      split_ifs at hr with hid
      · obtain ⟨r₀, hr₀, -⟩ := Option.map_eq_some_iff.1 hr
        exact hid ▸ h.known id' r₀ hr₀
      · exact h.known id r hr
  · intro id r hr hout
    rcases he.shared with hsame | ⟨id', hor, hdec, hcomplete⟩
    · rw [hsame] at hr
      exact (h.applied id r hr hout).mono h.lawful hlawful hgrows
    · rw [hcomplete, Smr.complete_lookup] at hr
      split_ifs at hr with hid
      · obtain ⟨r₀, hr₀, rfl⟩ := Option.map_eq_some_iff.1 hr
        obtain ⟨r₁, hr₁, hcommand⟩ := h.flying attempt id' ha hor
        obtain rfl : r₁ = r₀ := Option.some.inj (hr₁.symm.trans hr₀)
        -- it is applied at the frontier, in the state before it
        have hlog : nd'.durable.appliedLog = nd.durable.appliedLog ++ [decided] := by rw [he.durable]; rfl
        have hnext : nd'.durable.nextSlot = nd.durable.nextSlot + 1 := by rw [he.durable]; rfl
        have hlen : attempt.slot = nd.durable.appliedLog.length := he.frontier.trans h.lawful.frontier
        refine ⟨attempt.slot, rfl, ?_, ?_, ?_⟩
        · rw [hnext, he.frontier]
          exact Nat.lt_succ_self _
        · rw [hlog, hlen, List.getElem?_concat_length]
          exact congrArg some (hdec.trans hcommand.symm)
        · rw [hlog, hlen, List.take_left, ← h.lawful.state]
          show some (decided.outcome _) = some (r₁.command.outcome _)
          rw [hcommand, hdec]
      · exact (h.applied id r hr hout).mono h.lawful hlawful hgrows
  · intro o ho
    rcases he.queue with hsame | ⟨id', hor, hpush⟩
    · rw [hsame] at ho
      exact hnamed _ _ (h.queued o ho)
    · rw [hpush] at ho
      rcases List.mem_cons.1 ho with rfl | ho
      · exact hnamed _ _ (h.flying attempt id' ha hor)
      · exact hnamed _ _ (h.queued o ho)
  · exact fun a ha' => absurd (he.idle.symm.trans ha') (by simp)
  · exact fun a _ ha' => absurd (he.idle.symm.trans ha') (by simp)

/-- whatever these releases acknowledge is held by `d` -/
def Holds (d : Durable) (releases : List Release) : Prop := ∀ rel ∈ releases, rel.Acknowledges → rel.HeldBy d

theorem Holds.mono {d d' : Durable} {releases : List Release} (h : Holds d releases) (hd : Lawful d) (hd' : Lawful d')
    (hg : Grows d d') : Holds d' releases := fun rel hrel hack => (h rel hrel hack).mono hd hd' hg

theorem Holds.append {d : Durable} {releases more : List Release} (h : Holds d releases) (h' : Holds d more) :
    Holds d (releases ++ more) := fun rel hrel =>
  (List.mem_append.1 hrel).elim (h rel) (h' rel)

theorem Holds.subset {d : Durable} {releases fewer : List Release} (h : Holds d releases) (hs : fewer ⊆ releases) :
    Holds d fewer := fun rel hrel => h rel (hs hrel)

theorem Mute.holds (h : Mute fx) (i : NodeId) (d : Durable) : Holds d ((sendsOf i fx).map .sent) := by
  intro rel hrel hack
  obtain ⟨e, he, rfl⟩ := List.mem_map.1 hrel
  exact absurd hack (h i e he)

/-- a call on the replica that keeps its books: what it sends acknowledges what it made durable -/
structure Booked (nd nd' : SmrNode) (sh' : Shared) (fx : List (Effect SmrMsg)) (next : OpId) : Prop where
  books : Books nd' sh' next
  grows : Grows nd.durable nd'.durable
  holds : ∀ i, Holds nd'.durable ((sendsOf i fx).map .sent)

/-- a call that changes nothing durable and acknowledges nothing -/
theorem Booked.of_mute (h : Books nd' sh' next) (hd : nd'.durable = nd.durable) (hm : Mute fx) :
    Booked nd nd' sh' fx next :=
  ⟨h, by rw [hd]; exact .refl _, fun i => hm.holds i _⟩

theorem Books.onRequest {src : NodeId} {req : RecordRequest Command} (h : Books nd sh next)
    (hcall : SmrNode.onRequest src req nd sh = .ok (nd', sh', fx)) : Booked nd nd' sh' fx next := by
  simp only [SmrNode.onRequest, Except.ok.injEq, Prod.mk.injEq] at hcall
  obtain ⟨rfl, rfl, rfl⟩ := hcall
  obtain ⟨hlawful, hgrows, hack⟩ := h.lawful.record req
  refine ⟨⟨hlawful, h.known, fun id r hr hout => (h.applied id r hr hout).mono h.lawful hlawful hgrows, h.queued,
    h.frontier, h.flying⟩, hgrows, fun i rel hrel _ => ?_⟩
  simp only [sendsOf, List.filterMap_cons, List.filterMap_nil, List.map_cons, List.map_nil,
    List.mem_singleton] at hrel
  subst hrel
  exact .response hack

theorem Books.onReply {src : NodeId} {resp : RecordResponse Command} (h : Books nd sh next)
    (hcall : SmrNode.onReply ctx src resp nd sh = .ok (nd', sh', fx)) : Booked nd nd' sh' fx next := by
  rcases SmrNode.onReply_moves hcall with ⟨rfl, rfl, rfl⟩ |
    ⟨attempt, p, fx₁, nd₁, ha, -, hresp, hdriven, ⟨-, rfl, rfl, rfl⟩ |
      ⟨decided, ended, nd₂, sh₂, fx₂, -, he, hended, hresumes, rfl, -⟩⟩
  · exact .of_mute h rfl mute_nil
  · exact .of_mute (h.driven ha hdriven) hdriven.keeps.durable
      (mute_of_requests (Proposer.onResponse_requests hresp ctx.selfId))
  · -- it decides: the log grows, and what follows is an attempt at the next slot
    obtain ⟨hbooks, hgrows⟩ := (h.driven ha hdriven).ended he hended
    obtain ⟨hbooks', hdur, hmute⟩ := hbooks.resumes hresumes
    refine ⟨hbooks', ?_, fun i => ?_⟩
    · rw [hdur, ← hdriven.keeps.durable]
      exact hgrows
    · exact ((mute_of_requests (Proposer.onResponse_requests hresp ctx.selfId)).append hmute).holds i _

theorem Books.onMessage {src : NodeId} {payload : SmrMsg} (h : Books nd sh next)
    (hcall : SmrNode.onMessage ctx src payload nd sh = .ok (nd', sh', fx)) : Booked nd nd' sh' fx next := by
  cases payload with
  | request req => exact h.onRequest hcall
  | response resp => exact h.onReply hcall

/-- dropping the attempt, or the queue with it, keeps the books -/
theorem Books.dropped (h : Books nd sh next) (hdur : nd'.durable = nd.durable) (hqueue : nd'.queue ⊆ nd.queue)
    (hidle : nd'.currentAttempt = none) : Books nd' sh next :=
  ⟨by rw [hdur]; exact h.lawful, h.known, by rw [hdur]; exact h.applied, fun o ho => h.queued o (hqueue ho),
    fun a ha => absurd (hidle.symm.trans ha) (by simp), fun a _ ha => absurd (hidle.symm.trans ha) (by simp)⟩

theorem Books.onTimer {id : TimerId} (h : Books nd sh next)
    (hcall : SmrNode.onTimer ctx id nd sh = .ok (nd', sh', fx)) :
    Books nd' sh' next ∧ nd'.durable = nd.durable ∧ Mute fx := by
  rcases SmrNode.onTimer_moves hcall with ⟨rfl, rfl, rfl⟩ | ⟨-, hresumes, -⟩ | ⟨-, hstarted⟩ |
    ⟨attempt, p, ha, -, htimer, hdriven, rfl⟩
  · exact ⟨h, rfl, mute_nil⟩
  · exact h.resumes hresumes
  · have hidle : Books { nd with currentAttempt := none } sh next := h.dropped rfl (List.Subset.refl _) rfl
    exact hidle.started hstarted fun id hid => absurd hid (by simp)
  · exact ⟨h.driven ha hdriven, hdriven.keeps.durable, mute_of_requests (Proposer.onTimer_requests htimer)⟩

theorem Books.onRestart (h : Books nd sh next) (hcall : SmrNode.onRestart ctx nd sh = .ok (nd', sh', fx)) :
    Books nd' sh' next ∧ nd'.durable = nd.durable ∧ Mute fx := by
  have hidle : Books { nd with queue := [], currentAttempt := none, metrics := .default } sh next :=
    h.dropped rfl (List.nil_subset _) rfl
  exact hidle.started (SmrNode.onRestart_moves hcall) fun id hid => absurd hid (by simp)

theorem Books.submit {debugAssertions : Bool} {replica : NodeId} {command : Command} (h : Books nd sh next)
    (hcall : submit ctx debugAssertions next replica command nd sh = .ok (nd', sh', fx)) :
    Books nd' sh' (next + 1) ∧ nd'.durable = nd.durable ∧ Mute fx := by
  unfold Net.submit at hcall
  split_ifs at hcall
  simp only [SmrNode.enqueue, Except.ok.injEq, Prod.mk.injEq] at hcall
  obtain ⟨rfl, rfl, rfl⟩ := hcall
  have hlookup : ∀ j, (sh.invoke next replica command ctx.now).results.lookup j =
      if j = next then some ⟨replica, command, sh.nextInvokedAt ctx.now, none, none, none⟩
      else sh.results.lookup j := by
    intro j
    unfold Shared.invoke
    split_ifs with hj
    · rw [hj, AList.lookup_insert]
    · rw [AList.lookup_insert_ne hj]
  have hnamed : ∀ id c, Named sh id c → Named (sh.invoke next replica command ctx.now) id c := by
    rintro id c ⟨r, hr, hc⟩
    exact ⟨r, by rw [hlookup, if_neg (Nat.ne_of_lt (h.known id r hr))]; exact hr, hc⟩
  refine ⟨⟨h.lawful, ?_, ?_, ?_, h.frontier, fun a id ha ho => hnamed _ _ (h.flying a id ha ho)⟩, rfl, ?_⟩
  · intro id r hr
    rw [hlookup] at hr
    split_ifs at hr with hid
    · exact hid ▸ Nat.lt_succ_self _
    · exact Nat.lt_succ_of_lt (h.known id r hr)
  · intro id r hr hout
    rw [hlookup] at hr
    split_ifs at hr with hid
    · obtain rfl := Option.some.inj hr
      exact absurd rfl hout
    · exact h.applied id r hr hout
  · intro o ho
    rcases List.mem_append.1 ho with ho | ho
    · exact hnamed _ _ (h.queued o ho)
    · obtain rfl := List.mem_singleton.1 ho
      exact ⟨_, by rw [hlookup, if_pos rfl], rfl⟩
  · intro i e he
    split_ifs at he <;> exact absurd he (by simp [sendsOf])

end Calls

end Queso.Net
