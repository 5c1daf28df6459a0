/-
The `H` tags that a replica passes on, and the one it makes.

`Relays` says of a replica that it knows of allowed proposals only, except for the one its own attempt opened its slot
with (`Own`). One call keeps this (`Tagging`): what it sends is allowed or its own, and a tag of its own that is new is
for the frontier, which an idle replica reached, or which the call moved on.
-/
import Queso.Consensus.Relay
import Queso.Net.Durability
import Queso.Smr.Advance

namespace Queso.Net

/-- an attempt of replica `i` -/
structure RelayedAttempt (i : NodeId) (leader : Option NodeId) (Ok : ℕ → Proposal Command → Prop)
    (a : CurrentAttempt) : Prop where
  proposer : a.proposer.Relays (Ok a.slot)
  slot : a.proposer.slot = a.slot
  selfId : a.proposer.selfId = i
  leader : a.proposer.leader = none ∨ a.proposer.leader = leader

/-- replica `i` knows of the proposals of `Ok` only, its own tag aside -/
structure Relays (i : NodeId) (leader : Option NodeId) (Ok : ℕ → Proposal Command → Prop) (nd : SmrNode) : Prop where
  recorders : ∀ k r, nd.durable.recorders.lookup k = some r → r.isr.Stays (Ok k)
  attempt : ∀ a, nd.currentAttempt = some a → RelayedAttempt i leader Ok a

/-- the tagged proposal that the replica's attempt opened its slot with -/
def Own (nd : SmrNode) (k : ℕ) (x : Proposal Command) : Prop :=
  ∃ a, nd.currentAttempt = some a ∧ a.slot = k ∧ a.proposer.Own x

/-- the message is allowed, or repeats a tag of `O` -/
def Sends (Ok O : ℕ → Proposal Command → Prop) (m : SmrMsg) : Prop :=
  m.Stays Ok ∨ ∃ k s x, m = .request ⟨k, s, x⟩ ∧ O k x

/-- what a call does with tags -/
structure Tagging (i : NodeId) (leader : Option NodeId) (Ok : ℕ → Proposal Command → Prop) (nd nd' : SmrNode)
    (fx : List (Effect SmrMsg)) : Prop where
  relays : Relays i leader Ok nd'
  sends : ∀ j, ∀ e ∈ sendsOf j fx, Sends Ok (fun k x => Own nd k x ∨ Own nd' k x) e.payload
  own : ∀ k x, Own nd' k x → Own nd k x ∨ k = nd'.durable.nextSlot ∧
    (nd.currentAttempt = none ∨ nd.durable.nextSlot < nd'.durable.nextSlot)
  frontier : nd.durable.nextSlot ≤ nd'.durable.nextSlot
  idle : nd'.currentAttempt = none → nd.currentAttempt = none ∨ nd.durable.nextSlot < nd'.durable.nextSlot

theorem Relays.mono {i : NodeId} {leader : Option NodeId} {Ok Ok' : ℕ → Proposal Command → Prop} {nd : SmrNode}
    (h : Relays i leader Ok nd) (hle : ∀ k x, Ok k x → Ok' k x) : Relays i leader Ok' nd where
  recorders := fun k r hr => (h.recorders k r hr).mono (hle k)
  attempt := fun a ha =>
    let hrel := h.attempt a ha
    ⟨hrel.proposer.mono (hle _), hrel.slot, hrel.selfId, hrel.leader⟩

theorem Own.eq {nd : SmrNode} {k : ℕ} {x y : Proposal Command} (hx : Own nd k x) (hy : Own nd k y) : x = y := by
  obtain ⟨a, ha, -, hown⟩ := hx
  obtain ⟨a', ha', -, hown'⟩ := hy
  obtain rfl := Option.some.inj (ha.symm.trans ha')
  exact hown.2.2.trans hown'.2.2.symm

/-- only the leader has tags of its own -/
theorem Relays.own_leader {i : NodeId} {leader : Option NodeId} {Ok : ℕ → Proposal Command → Prop} {nd : SmrNode}
    (h : Relays i leader Ok nd) {k : ℕ} {x : Proposal Command} (hx : Own nd k x) : leader = some i := by
  obtain ⟨a, ha, -, hl, -⟩ := hx
  have hrel := h.attempt a ha
  rw [hrel.selfId] at hl
  rcases hrel.leader with hnone | hlead
  · exact absurd (hnone.symm.trans hl) (by simp)
  · exact hlead.symm.trans hl

section Calls

variable {leader : Option NodeId} {Ok : ℕ → Proposal Command → Prop} {ctx : SmrCtx} {nd nd' : SmrNode} {sh sh' : Shared}
  {fx : List (Effect SmrMsg)}

/-- a call that leaves the attempt and the frontier alone -/
theorem Tagging.of_same {i : NodeId} (h : Relays i leader Ok nd') (ha : nd'.currentAttempt = nd.currentAttempt)
    (hn : nd'.durable.nextSlot = nd.durable.nextSlot) (hs : ∀ j, ∀ e ∈ sendsOf j fx, e.payload.Stays Ok) :
    Tagging i leader Ok nd nd' fx where
  relays := h
  sends := fun j e he => .inl (hs j e he)
  own := fun k x hx => by
    unfold Own at hx ⊢
    rw [ha] at hx
    exact .inl hx
  frontier := hn.ge
  idle := fun hidle => .inl (ha ▸ hidle)

/-- a started attempt: allowed, or tagged for the frontier -/
theorem started_relays {origin : AttemptOrigin} {command : Command} {hint : Option NodeId} (hOk : ∀ k, Lenient (Ok k))
    (hst : SmrNode.Started ctx nd sh origin command hint nd' sh' fx)
    (hrec : ∀ k r, nd.durable.recorders.lookup k = some r → r.isr.Stays (Ok k)) (hhint : hint = none ∨ hint = leader) :
    Relays ctx.selfId leader Ok nd' ∧ nd'.durable = nd.durable ∧
      (∀ j, ∀ e ∈ sendsOf j fx, Sends Ok (Own nd') e.payload) ∧
      ∀ k x, Own nd' k x → k = nd'.durable.nextSlot ∧ hint ≠ none := by
  obtain ⟨delay, ⟨counted, ha⟩, hfx⟩ := hst.drives
  have hdur := hst.keeps.durable
  obtain ⟨-, hdec, hresp⟩ := Smr.proposerFor_idle nd ctx.selfId command hint delay
  have hfresh := Smr.proposerFor_fresh nd ctx.selfId command hint delay rfl
  have hslot := Smr.proposerFor_slot nd ctx.selfId command hint delay
  have hlead := Smr.proposerFor_leader nd ctx.selfId command hint delay
  generalize nd.proposerFor ctx.selfId command hint delay = p at ha hfx hdec hresp hfresh hslot hlead
  obtain ⟨hrel, hem, hsame, h4, hprop⟩ := p.start_relays (hOk nd.durable.nextSlot) hdec hresp hfresh.sent ctx.rng
  refine ⟨⟨by rw [hdur]; exact hrec, fun a ha' => ?_⟩, hdur, fun j e he => ?_, fun k x hx => ?_⟩
  · obtain rfl := Option.some.inj (ha.symm.trans ha')
    exact ⟨hrel, hsame.slot.trans hslot, hsame.selfId.trans hfresh.selfId, by rw [hsame.leader, hlead]; exact hhint⟩
  · rw [hfx j] at he
    obtain ⟨s, x, hx, hok | hown⟩ := hem j e he
    · exact .inl (by rw [hx]; exact hslot ▸ hok)
    · refine .inr ⟨_, s, x, hx, _, ha, hslot.symm, ?_⟩
      exact ⟨by rw [hsame.leader, hsame.selfId]; exact hown.1, h4, by rw [hprop, hsame.selfId]; exact hown.2.2⟩
  · obtain ⟨a, ha', rfl, hown⟩ := hx
    obtain rfl := Option.some.inj (ha.symm.trans ha')
    refine ⟨by rw [hdur], fun hnone => ?_⟩
    have hl := hown.1
    rw [hsame.leader, hlead, hnone] at hl
    exact absurd hl (by simp)

theorem resumes_relays (hOk : ∀ k, Lenient (Ok k)) (hp : sh.policy = .fixed leader) (h : Relays ctx.selfId leader Ok nd)
    (hr : SmrNode.Resumes ctx nd sh nd' sh' fx) :
    Relays ctx.selfId leader Ok nd' ∧ nd'.durable = nd.durable ∧
      (∀ j, ∀ e ∈ sendsOf j fx, Sends Ok (Own nd') e.payload) ∧
      (nd.currentAttempt = none → ∀ k x, Own nd' k x → k = nd'.durable.nextSlot) := by
  cases hr with
  | rests =>
    refine ⟨h, rfl, fun _ _ he => absurd he (by simp [sendsOf]), fun hidle k x hx => ?_⟩
    obtain ⟨a, ha, -⟩ := hx
    exact absurd (hidle.symm.trans ha) (by simp)
  | @proposes op queue hint nd' sh' fx hq hl hst =>
    have hhint : hint = leader := by
      rw [hp] at hl
      exact (Except.ok.inj hl).symm
    obtain ⟨hrel, hdur, hs, hown⟩ := started_relays hOk hst h.recorders (.inr hhint)
    exact ⟨hrel, hdur, hs, fun _ k x hx => (hown k x hx).1⟩
  | probes hst =>
    obtain ⟨hrel, hdur, hs, hown⟩ := started_relays hOk hst h.recorders (.inl rfl)
    exact ⟨hrel, hdur, hs, fun _ k x hx => (hown k x hx).1⟩

/-- the attempt whose proposer moved on -/
theorem driven_relays {i : NodeId} {attempt : CurrentAttempt} {p : Proposer Command} (h : Relays i leader Ok nd)
    (ha : nd.currentAttempt = some attempt) (hd : nd.Driven attempt p nd') (hrel : p.Relays (Ok attempt.slot))
    (hsame : attempt.proposer.Same p) (hown : ∀ x, p.Own x → attempt.proposer.Own x) :
    Relays i leader Ok nd' ∧ ∀ k x, Own nd' k x → Own nd k x := by
  obtain ⟨counted, hb⟩ := hd.drives
  have hold := h.attempt attempt ha
  refine ⟨⟨by rw [hd.keeps.durable]; exact h.recorders, fun a ha' => ?_⟩, fun k x hx => ?_⟩
  · obtain rfl := Option.some.inj (hb.symm.trans ha')
    exact ⟨hrel, hsame.slot.trans hold.slot, hsame.selfId.trans hold.selfId, by rw [hsame.leader]; exact hold.leader⟩
  · obtain ⟨a, ha', rfl, hx⟩ := hx
    obtain rfl := Option.some.inj (hb.symm.trans ha')
    exact ⟨attempt, ha, rfl, hown x hx⟩

theorem onRequest_tagging {i src : NodeId} {req : RecordRequest Command} (h : Relays i leader Ok nd)
    (hreq : Ok req.slot req.proposal) (hcall : SmrNode.onRequest src req nd sh = .ok (nd', sh', fx)) :
    Tagging i leader Ok nd nd' fx := by
  simp only [SmrNode.onRequest, Except.ok.injEq, Prod.mk.injEq] at hcall
  obtain ⟨rfl, rfl, rfl⟩ := hcall
  have hstays : (nd.durable.recorder req.slot).isr.Stays (Ok req.slot) := by
    unfold Durable.recorder
    cases hr : nd.durable.recorders.lookup req.slot with
    | none => exact Isr.stays_new _
    | some r => exact h.recorders _ r hr
  obtain ⟨hnext, hans⟩ := Recorder.handle_stays hstays hreq
  refine .of_same ⟨fun k r hr => ?_, h.attempt⟩ rfl rfl fun j e he => ?_
  · by_cases hk : k = req.slot
    · subst hk
      obtain rfl := Option.some.inj ((AList.lookup_insert _).symm.trans hr)
      exact hnext
    · exact h.recorders k r ((AList.lookup_insert_ne hk).symm.trans hr)
  · simp only [sendsOf, List.filterMap_cons, List.filterMap_nil, List.mem_singleton] at he
    subst he
    exact hans

theorem onReply_tagging {src : NodeId} {resp : RecordResponse Command} (hOk : ∀ k, Lenient (Ok k))
    (hp : sh.policy = .fixed leader) (h : Relays ctx.selfId leader Ok nd) (hresp : resp.Stays (Ok resp.slot))
    (hcall : SmrNode.onReply ctx src resp nd sh = .ok (nd', sh', fx)) : Tagging ctx.selfId leader Ok nd nd' fx := by
  rcases SmrNode.onReply_moves hcall with ⟨rfl, rfl, rfl⟩ |
    ⟨attempt, p, fx₁, nd₁, ha, hslot, hcalled, hdriven, hnext⟩
  · exact .of_same h rfl rfl fun _ _ he => absurd he (by simp [sendsOf])
  have hold := h.attempt attempt ha
  obtain ⟨hrel, hpass, hsame, hown⟩ :=
    Proposer.onResponse_relays (hOk attempt.slot) hold.proposer (hslot ▸ hresp) hcalled
  obtain ⟨hrel₁, hown₁⟩ := driven_relays h ha hdriven hrel hsame hown
  have hsends : ∀ j, ∀ e ∈ sendsOf j fx₁, e.payload.Stays Ok := by
    intro j e he
    obtain ⟨s, x, hx, hok⟩ := hpass j e he
    rw [hx]
    exact hold.slot ▸ hok
  have hdur := hdriven.keeps.durable
  obtain ⟨counted, hb⟩ := hdriven.drives
  rcases hnext with ⟨-, rfl, rfl, rfl⟩ | ⟨decided, ended, nd₂, sh₂, fx₂, -, he, hended, hresumes, rfl, -⟩
  · exact
      { relays := hrel₁
        sends := fun j e he => .inl (hsends j e he)
        own := fun k x hx => .inl (hown₁ k x hx)
        frontier := (congrArg Durable.nextSlot hdur).ge
        idle := fun hidle => absurd (hidle.symm.trans hb) (by simp) }
  · -- the slot decided: the frontier moved on, and whatever is proposed next is for the new one
    have hnd₂ : nd₂.durable.nextSlot = nd.durable.nextSlot + 1 := by
      rw [hended.durable, ← hdur]
      rfl
    have hrec₂ : nd₂.durable.recorders = nd₁.durable.recorders := by rw [hended.durable]; rfl
    have hrel₂ : Relays ctx.selfId leader Ok nd₂ :=
      ⟨by rw [hrec₂]; exact hrel₁.recorders, fun a ha' => absurd (hended.idle.symm.trans ha') (by simp)⟩
    have hp₂ : sh₂.policy = .fixed leader := by
      have hnote := hended.policy
      rw [hp] at hnote
      exact (Except.ok.inj hnote).symm
    obtain ⟨hrel', hdur', hs, hown'⟩ := resumes_relays hOk hp₂ hrel₂ hresumes
    have hlt : nd.durable.nextSlot < nd'.durable.nextSlot := by
      rw [hdur', hnd₂]
      exact Nat.lt_succ_self _
    refine ⟨hrel', fun j e he => ?_, fun k x hx => .inr ⟨hown' hended.idle k x hx, .inr hlt⟩, hlt.le, fun _ => .inr hlt⟩
    rw [sendsOf, List.filterMap_append] at he
    rcases List.mem_append.1 he with he | he
    · exact .inl (hsends j e he)
    · rcases hs j e he with hok | ⟨k, s, x, hx, ho⟩
      · exact .inl hok
      · exact .inr ⟨k, s, x, hx, .inr ho⟩

theorem onMessage_tagging {src : NodeId} {payload : SmrMsg} (hOk : ∀ k, Lenient (Ok k))
    (hp : sh.policy = .fixed leader) (h : Relays ctx.selfId leader Ok nd) (hm : payload.Stays Ok)
    (hcall : SmrNode.onMessage ctx src payload nd sh = .ok (nd', sh', fx)) :
    Tagging ctx.selfId leader Ok nd nd' fx := by
  cases payload with
  | request req => exact onRequest_tagging h hm hcall
  | response resp => exact onReply_tagging hOk hp h hm hcall

theorem onTimer_tagging {id : TimerId} (hOk : ∀ k, Lenient (Ok k)) (hp : sh.policy = .fixed leader)
    (h : Relays ctx.selfId leader Ok nd) (hcall : SmrNode.onTimer ctx id nd sh = .ok (nd', sh', fx)) :
    Tagging ctx.selfId leader Ok nd nd' fx := by
  rcases SmrNode.onTimer_moves hcall with ⟨rfl, rfl, rfl⟩ | ⟨hidle, hresumes, -⟩ | ⟨-, hstarted⟩ |
    ⟨attempt, p, ha, hk, hcalled, hdriven, rfl⟩
  · exact .of_same h rfl rfl fun _ _ he => absurd he (by simp [sendsOf])
  · obtain ⟨hrel, hdur, hs, hown⟩ := resumes_relays hOk hp h hresumes
    exact
      { relays := hrel
        sends := fun j e he => by
          rcases hs j e he with hok | ⟨k, s, x, hx, ho⟩
          · exact .inl hok
          · exact .inr ⟨k, s, x, hx, .inr ho⟩
        own := fun k x hx => .inr ⟨hown hidle k x hx, .inl hidle⟩
        frontier := (congrArg Durable.nextSlot hdur).ge
        idle := fun _ => .inl hidle }
  · -- the watchdog's probe is never tagged
    have hprobe : (none : Option NodeId) = none ∨ none = leader := .inl rfl
    obtain ⟨hrel, hdur, hs, hown⟩ := started_relays hOk hstarted h.recorders hprobe
    obtain ⟨delay, ⟨counted, hb⟩, -⟩ := hstarted.drives
    exact
      { relays := hrel
        sends := fun j e he => by
          rcases hs j e he with hok | ⟨k, s, x, hx, ho⟩
          · exact .inl hok
          · exact .inr ⟨k, s, x, hx, .inr ho⟩
        own := fun k x hx => absurd rfl (hown k x hx).2
        frontier := (congrArg Durable.nextSlot hdur).ge
        idle := fun hidle => absurd (hidle.symm.trans hb) (by simp) }
  · have hold := h.attempt attempt ha
    obtain ⟨hrel, hem, hsame, hown⟩ := Proposer.onTimer_relays (hOk attempt.slot) hold.proposer hk hcalled
    obtain ⟨hrel', hown'⟩ := driven_relays h ha hdriven hrel hsame hown
    obtain ⟨counted, hb⟩ := hdriven.drives
    refine ⟨hrel', fun j e he => ?_, fun k x hx => .inl (hown' k x hx),
      (congrArg Durable.nextSlot hdriven.keeps.durable).ge, fun hidle => absurd (hidle.symm.trans hb) (by simp)⟩
    obtain ⟨s, x, hx, hok | ho⟩ := hem j e he
    · exact .inl (by rw [hx]; exact hold.slot ▸ hok)
    · exact .inr ⟨attempt.slot, s, x, hold.slot ▸ hx, .inl ⟨attempt, ha, rfl, ho⟩⟩

end Calls

end Queso.Net
