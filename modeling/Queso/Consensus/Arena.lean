/-
All slots of a cluster at once, seen from the protocol: the messages ever sent, the calls each recorder served for each
slot, and the proposer each node hosts. Messages are never removed, so any delay, reordering, loss or duplication is an
order of acts. A recorder serves a request that was sent, a proposer takes a reply that was sent or a timer, and a node
starts (`spawn`) or drops (`retire`) a proposer at any time: the single-slot cluster and the replicated log are both
instances.

`Inv` is the base invariant, which every allowed act keeps (`inv_step`): recorders answer truthfully, what is sent past
step 4 is justified by a quorum of the step before, and a decided proposer has its witness.
-/
import Queso.Lib.Runs
import Queso.Consensus.Moves
import Queso.Consensus.Rounds

namespace Queso

open Register Quorum

variable {V : Type} [LinearOrder V]

structure Arena (V : Type) where
  /-- every message ever sent -/
  sends : List (Envelope (ConcreteMsg V))
  /-- the calls served for each slot by each recorder, in order -/
  calls : ℕ → NodeId → List (ℕ × Proposal V)
  /-- the proposer each node hosts -/
  props : NodeId → Option (Proposer V)

inductive Act (V : Type) where
  | record (src dst : NodeId) (req : RecordRequest V)
  | reply (src dst : NodeId) (resp : RecordResponse V) (draw : NodeId → Draw)
  | timer (i : NodeId) (id : TimerId) (localStep : ℕ) (draw : NodeId → Draw)
  | spawn (i : NodeId) (p : Proposer V)
  | retire (i : NodeId)

namespace Arena

/-- what a recorder that served the calls `l` answers to `req` -/
def answer (l : List (ℕ × Proposal V)) (req : RecordRequest V) : RecordResponse V :=
  let s := (Isr.replay (l ++ [(req.reqStep, req.proposal)])).summary
  ⟨req.slot, req.reqStep, s.step, s.first, s.priorAgg⟩

/-- take over the outcome of a call on the proposer of node `i` -/
def take (a : Arena V) (i : NodeId) : Called V → Arena V
  | .error _ => a
  | .ok (p, fx) => { a with props := Function.update a.props i (some p), sends := a.sends ++ sendsOf i fx }

/-- call the proposer of node `i`, if it hosts one -/
def host (a : Arena V) (i : NodeId) (call : Proposer V → Called V) : Arena V :=
  match a.props i with
  | none => a
  | some p => a.take i (call p)

def step (a : Arena V) : Act V → Arena V
  | .record src dst req =>
    { a with
      calls := Function.update a.calls req.slot
        (Function.update (a.calls req.slot) dst (a.calls req.slot dst ++ [(req.reqStep, req.proposal)]))
      sends := a.sends ++ [⟨dst, src, .response (answer (a.calls req.slot dst) req)⟩] }
  | .reply src dst resp draw => a.host dst fun p => p.onResponse src resp draw
  | .timer i id localStep draw => a.host i fun p => p.onTimer id localStep draw
  | .spawn i p => { a with props := Function.update a.props i (some p) }
  | .retire i => { a with props := Function.update a.props i none }

abbrev run (a : Arena V) (acts : List (Act V)) : Arena V := Runs.run step a acts

def init (props : NodeId → Option (Proposer V)) : Arena V := ⟨[], fun _ _ => [], props⟩

/-- the past of slot `k` -/
def hist (a : Arena V) (k : ℕ) : Hist V where
  calls := a.calls k
  sent := fun s p => ∃ i j, (⟨i, j, .request ⟨k, s, p⟩⟩ : Envelope (ConcreteMsg V)) ∈ a.sends

/-- a proposer of node `i` that did nothing yet -/
structure Fresh (n : ℕ) (i : NodeId) (p : Proposer V) : Prop where
  selfId : p.selfId = i
  total : p.totalReplicas = n
  step : p.step = 0
  decided : p.decided = none
  responses : p.responses = ∅
  sent : p.sent = ∅

/-- the acts a cluster of `n` replicas can take: messages were sent, spawned proposers are fresh, and a hedge timer
fires only for a proposer that was started -/
def Allowed (n : ℕ) (a : Arena V) : Act V → Prop
  | .record src dst req => ⟨src, dst, .request req⟩ ∈ a.sends
  | .reply src dst resp _ => ⟨src, dst, .response resp⟩ ∈ a.sends
  | .timer i id _ _ => id = .hedge → ∀ p, a.props i = some p → 4 ≤ p.step
  | .spawn i p => Fresh n i p
  | .retire _ => True

/-! ## The arena only grows -/

/-- `b` continues `a`: nothing sent or served is taken back -/
structure Le (a b : Arena V) : Prop where
  sends : ∀ e ∈ a.sends, e ∈ b.sends
  calls : ∀ k j, ∃ m, b.calls k j = a.calls k j ++ m

omit [LinearOrder V] in
theorem Le.hist {a b : Arena V} (h : a.Le b) (k : ℕ) : (a.hist k).Le (b.hist k) :=
  ⟨fun j => h.calls k j, fun _ _ ⟨i, j, he⟩ => ⟨i, j, h.sends _ he⟩⟩

omit [LinearOrder V] in
theorem Le.refl (a : Arena V) : a.Le a := ⟨fun _ h => h, fun _ _ => ⟨[], (List.append_nil _).symm⟩⟩

omit [LinearOrder V] in
/-- a call on a proposer either changes nothing or is taken over whole -/
theorem host_cases (a : Arena V) (i : NodeId) (call : Proposer V → Called V) :
    a.host i call = a ∨ ∃ p p' fx, a.props i = some p ∧ call p = .ok (p', fx) ∧
      a.host i call = { a with props := Function.update a.props i (some p'), sends := a.sends ++ sendsOf i fx } := by
  unfold host
  cases hp : a.props i with
  | none => exact .inl rfl
  | some p =>
    dsimp only
    cases hc : call p with
    | error e => exact .inl rfl
    | ok r => exact .inr ⟨p, r.1, r.2, rfl, hc, rfl⟩

omit [LinearOrder V] in
theorem le_host (a : Arena V) (i : NodeId) (call : Proposer V → Called V) : a.Le (a.host i call) := by
  rcases host_cases a i call with h | ⟨p, p', fx, -, -, h⟩
  · rw [h]; exact Le.refl a
  · rw [h]
    exact ⟨fun e he => List.mem_append_left _ he, fun _ _ => ⟨[], (List.append_nil _).symm⟩⟩

theorem le_step (a : Arena V) (act : Act V) : a.Le (a.step act) := by
  cases act with
  | record src dst req =>
    refine ⟨fun e he => List.mem_append_left _ he, fun k j => ?_⟩
    by_cases hk : k = req.slot
    · subst hk
      by_cases hj : j = dst
      · subst hj
        exact ⟨[(req.reqStep, req.proposal)], by simp [step]⟩
      · exact ⟨[], by simp [step, hj]⟩
    · exact ⟨[], by simp [step, hk]⟩
  | reply src dst resp draw => exact le_host a dst _
  | timer i id localStep draw => exact le_host a i _
  | spawn i p => exact ⟨fun _ h => h, fun _ _ => ⟨[], (List.append_nil _).symm⟩⟩
  | retire i => exact ⟨fun _ h => h, fun _ _ => ⟨[], (List.append_nil _).symm⟩⟩

/-! ## The invariant -/

/-- a reply that recorder `j` sent to node `i` tells the truth, now and later -/
structure Told (n : ℕ) (a : Arena V) (j i : NodeId) (r : RecordResponse V) : Prop where
  lt : j < n
  four : 4 ≤ r.reqStep
  le : r.reqStep ≤ r.step
  visited : Visited (a.calls r.slot j) r.step
  first : r.first = firstOf (a.calls r.slot j) r.step
  prior : r.priorAgg = priorOf (a.calls r.slot j) r.step
  /-- a reply at the step of its request acknowledges a request that `i` sent -/
  ack : r.step = r.reqStep → ∃ q, ⟨i, j, .request ⟨r.slot, r.reqStep, q⟩⟩ ∈ a.sends ∧
    (r.reqStep, q) ∈ accepted (a.calls r.slot j)

/-- a decision at step `s`, without the condition that phase 2 spread its proposal -/
def Settled (n : ℕ) (h : Hist V) (s : ℕ) (v : V) : Prop :=
  (∃ p, FastWit n h p ∧ p.value = v) ∨ ∃ p, SlowWit n h s p ∧ p.value = v

/-- the proposer of node `i` stands on what was sent and served -/
structure Seat (n : ℕ) (a : Arena V) (i : NodeId) (p : Proposer V) : Prop where
  selfId : p.selfId = i
  total : p.totalReplicas = n
  started : p.step = 0 ∨ 4 ≤ p.step
  counted : ∀ j r, p.Counted j r → ⟨j, i, .response r⟩ ∈ a.sends ∧ r.slot = p.slot ∧ p.step ≤ r.reqStep
  works : 5 ≤ p.step → Works n (a.hist p.slot) (p.step - 1) p.proposal
  carried : 5 ≤ p.step → p.step % 4 ≠ 0 → (a.hist p.slot).sent p.step p.proposal
  prepared : ∀ r q, p.sent.lookup r = some q →
    r < n ∧ ∃ s, ⟨i, r, .request ⟨p.slot, s, q⟩⟩ ∈ a.sends ∧ (p.step = s ∨ p.step = 4)
  decided : ∀ v, p.decided = some v → Settled n (a.hist p.slot) p.step v
  fast : ∀ v, p.decided = some v → p.step = FIRST_ROUND_STEP →
    ∃ f, FastWit n (a.hist p.slot) f ∧ f.value = v ∧ ∀ j r, p.Counted j r → r.first = some f

structure Inv (n : ℕ) (a : Arena V) : Prop where
  request : ∀ i j req, ⟨i, j, .request req⟩ ∈ a.sends → j < n ∧ 4 ≤ req.reqStep
  called : ∀ k j c, c ∈ a.calls k j → ∃ i, ⟨i, j, .request ⟨k, c.1, c.2⟩⟩ ∈ a.sends
  told : ∀ i j r, ⟨j, i, .response r⟩ ∈ a.sends → Told n a j i r
  seat : ∀ i p, a.props i = some p → Seat n a i p
  works : ∀ k s p, (a.hist k).sent (s + 1) p → 4 ≤ s → Works n (a.hist k) s p
  drawn : ∀ k s p, (a.hist k).sent s p → 5 ≤ s → s % 4 = 0 → p.priority < H

theorem Inv.sound {n : ℕ} {a : Arena V} (h : Inv n a) (k : ℕ) : Sound n (a.hist k) where
  accepted := fun j s p hp => by
    obtain ⟨i, hi⟩ := h.called k j (s, p) (mem_of_accepted hp)
    exact ⟨i, j, hi⟩
  four_le := fun s p ⟨i, j, hp⟩ => (h.request i j _ hp).2
  works := h.works k
  drawn := h.drawn k

section Monotone

variable {n : ℕ} {a b : Arena V}

theorem Told.mono (hab : a.Le b) {i j : NodeId} {r : RecordResponse V} (h : Told n a j i r) : Told n b j i r where
  lt := h.lt
  four := h.four
  le := h.le
  visited := (hab.hist r.slot).visited h.visited
  first := by rw [h.first]; exact ((hab.hist r.slot).firstOf h.visited).symm
  prior := by rw [h.prior]; exact ((hab.hist r.slot).priorOf h.visited).symm
  ack := fun he => by
    obtain ⟨q, hq, hacc⟩ := h.ack he
    exact ⟨q, hab.sends _ hq, (hab.hist r.slot).accepted hacc⟩

theorem Settled.mono {h h' : Hist V} (hle : h.Le h') {s : ℕ} {v : V} (hv : Settled n h s v) : Settled n h' s v := by
  rcases hv with ⟨p, hp, hpv⟩ | ⟨p, hp, hpv⟩
  · exact .inl ⟨p, hp.mono hle, hpv⟩
  · exact .inr ⟨p, hp.mono hle, hpv⟩

theorem Seat.mono (hab : a.Le b) {i : NodeId} {p : Proposer V} (h : Seat n a i p) : Seat n b i p where
  selfId := h.selfId
  total := h.total
  started := h.started
  counted := fun j r hr => by
    obtain ⟨h1, h2⟩ := h.counted j r hr
    exact ⟨hab.sends _ h1, h2⟩
  works := fun h5 => (h.works h5).mono (hab.hist p.slot)
  carried := fun h5 h0 => (hab.hist p.slot).sent _ _ (h.carried h5 h0)
  prepared := fun r q hq => by
    obtain ⟨hr, s, hs, hor⟩ := h.prepared r q hq
    exact ⟨hr, s, hab.sends _ hs, hor⟩
  decided := fun v hv => (h.decided v hv).mono (hab.hist p.slot)
  fast := fun v hv h4 => by
    obtain ⟨f, hf, hfv, hall⟩ := h.fast v hv h4
    exact ⟨f, hf.mono (hab.hist p.slot), hfv, hall⟩

theorem Fresh.seat {i : NodeId} {p : Proposer V} (h : Fresh n i p) (a : Arena V) : Seat n a i p where
  selfId := h.selfId
  total := h.total
  started := .inl h.step
  counted := fun j r hr => by
    unfold Proposer.Counted at hr
    rw [h.responses] at hr
    exact absurd hr (by simp)
  works := fun h5 => by have := h.step; omega
  carried := fun h5 => by have := h.step; omega
  prepared := fun r q hq => by
    rw [h.sent] at hq
    exact absurd hq (by simp)
  decided := fun v hv => by
    rw [h.decided] at hv
    exact absurd hv (by simp)
  fast := fun v hv => by
    rw [h.decided] at hv
    exact absurd hv (by simp)

end Monotone

/-! ## A completed quorum -/

section Quorums

variable {n : ℕ} {a : Arena V} {i : NodeId} {p : Proposer V}

/-- what a level quorum of replies reports is what its recorders hold -/
theorem Seat.reports (h : Inv n a) (hp : Seat n a i p) (hl : p.Level) {j : NodeId} {r : RecordResponse V}
    (hr : p.Counted j r) : Told n a j i r ∧ r.slot = p.slot ∧ r.step = p.step ∧ r.reqStep = p.step := by
  obtain ⟨hsent, hslot, hreq⟩ := hp.counted j r hr
  have htold := h.told i j r hsent
  have hstep := hl.step_eq hr
  have hle := htold.le
  exact ⟨htold, hslot, hstep, by omega⟩

/-- the first proposal that a counted reply reports was sent, at the step that the recorder stood at -/
theorem Seat.first_sent (h : Inv n a) (hp : Seat n a i p) {j : NodeId} {r : RecordResponse V} {q : Proposal V}
    (hr : p.Counted j r) (hf : r.first = some q) : (a.hist p.slot).sent r.step q := by
  obtain ⟨hsent, hslot, -⟩ := hp.counted j r hr
  have htold := h.told i j r hsent
  have hfirst : firstOf ((a.hist p.slot).calls j) r.step = some q := by
    rw [← hf, htold.first, hslot]; rfl
  exact (h.sound p.slot).first_sent hfirst

/-- only steps from 4 on are answered -/
theorem Inv.four_of_reply (h : Inv n a) {src dst : NodeId} {resp : RecordResponse V}
    (hresp : ⟨src, dst, .response resp⟩ ∈ a.sends) (hreq : resp.reqStep = p.step) : 4 ≤ p.step := by
  have hfour := (h.told dst src resp hresp).four
  omega

theorem Seat.gathered (h : Inv n a) (hp : Seat n a i p) (hq : p.Quorate) (hl : p.Level) :
    Gathered n (a.hist p.slot) p.step p.responses.keys.toFinset := by
  constructor
  · refine isQuorum_of_nodup p.responses.keys_nodup (fun j hj => ?_) ?_
    · obtain ⟨r, hr⟩ := Proposer.mem_keys_counted hj
      exact (hp.reports h hl hr).1.lt
    · have hq' := hq
      unfold Proposer.Quorate Proposer.quorumThreshold at hq'
      rwa [hp.total] at hq'
  · intro j hj
    obtain ⟨r, hr⟩ := Proposer.mem_keys_counted (List.mem_toFinset.1 hj)
    obtain ⟨htold, hslot, hstep, -⟩ := hp.reports h hl hr
    have hv := htold.visited
    rw [hslot, hstep] at hv
    exact hv

/-- the best of what the replies report is the greatest over their recorders -/
theorem greatest_of_best {p : Proposer V} {f : RecordResponse V → Option (Proposal V)}
    {g : NodeId → Option (Proposal V)} (hfg : ∀ j r, p.Counted j r → f r = g j) {q : Proposal V}
    (hq : bestOf (p.replies.map f) = some q) : Greatest g p.responses.keys.toFinset q := by
  obtain ⟨hmem, hmax⟩ := bestOf_eq_some.1 hq
  constructor
  · obtain ⟨r, hr, hrq⟩ := List.mem_map.1 hmem
    obtain ⟨j, hj⟩ := Proposer.mem_replies.1 hr
    refine ⟨j, ?_, by rw [← hfg j r hj, hrq]⟩
    rw [List.mem_toFinset]
    exact AList.mem_keys.1 (AList.lookup_isSome.1 (by unfold Proposer.Counted at hj; rw [hj]; rfl))
  · intro j hj x hx
    obtain ⟨r, hr⟩ := Proposer.mem_keys_counted (List.mem_toFinset.1 hj)
    refine hmax x (List.mem_map.2 ⟨r, Proposer.mem_replies.2 ⟨j, hr⟩, ?_⟩)
    rw [hfg j r hr, hx]

/-- the working proposal a completed quorum yields -/
theorem Seat.template (h : Inv n a) (hp : Seat n a i p) (h4 : 4 ≤ p.step) (hq : p.Quorate) (hl : p.Level)
    {q : Proposal V} (hy : p.Yields q) : Template n (a.hist p.slot) p.step q := by
  have hgath := hp.gathered h hq hl
  have hrep := fun j r (hr : p.Counted j r) => hp.reports h hl hr
  unfold Template
  cases hy with
  | first h0 hb =>
    rw [h0]
    refine ⟨_, hgath, greatest_of_best (fun j r hr => ?_) hb⟩
    obtain ⟨htold, hslot, hstep, -⟩ := hrep j r hr
    rw [htold.first, hslot, hstep]
    rfl
  | kept h12 =>
    have hsent := hp.carried (by omega) (by omega)
    rcases h12 with h1 | h2
    · rw [h1]; exact ⟨hsent, _, hgath⟩
    · rw [h2]; exact ⟨hsent, _, hgath⟩
  | prior h3 hb =>
    rw [h3]
    refine ⟨_, hgath, greatest_of_best (fun j r hr => ?_) hb⟩
    obtain ⟨htold, hslot, hstep, -⟩ := hrep j r hr
    rw [htold.prior, hslot, hstep]
    rfl

/-- the fast path fires on one `H` proposal that every reply reports -/
theorem fastPathValue_uniform {p : Proposer V} {v : V} (hv : Proposer.fastPathValue p.replies = some v) :
    ∃ f : Proposal V, f.priority = H ∧ f.value = v ∧ ∀ j r, p.Counted j r → r.first = some f := by
  have hmem := @Proposer.mem_replies V p
  generalize p.replies = l at hv hmem
  unfold Proposer.fastPathValue at hv
  cases l with
  | nil => exact absurd hv (by simp)
  | cons r rs =>
    dsimp only at hv
    cases hf : r.first with
    | none => rw [hf] at hv; exact absurd hv (by simp)
    | some f =>
      rw [hf] at hv
      dsimp only at hv
      split_ifs at hv with hH hall
      refine ⟨f, not_not.1 hH, Option.some.inj hv, fun j r' hr' => ?_⟩
      have hr'f := List.all_eq_true.1 hall r' (hmem.2 ⟨j, hr'⟩)
      cases hf' : r'.first with
      | none => rw [hf'] at hr'f; exact absurd hr'f (by simp)
      | some f' =>
        rw [hf'] at hr'f
        simp only [Bool.and_eq_true, decide_eq_true_eq] at hr'f
        rw [hr'f.2]

/-- the fast path fires on a quorum that captured one `H` proposal at step 4 -/
theorem Seat.captured (h : Inv n a) (hp : Seat n a i p) (h4 : 4 ≤ p.step) (hq : p.Quorate) (hl : p.Level)
    (h0 : p.step % 4 = 0) {v : V} (hv : Proposer.fastPathValue p.replies = some v) :
    ∃ f, FastWit n (a.hist p.slot) f ∧ f.value = v ∧ ∀ j r, p.Counted j r → r.first = some f := by
  have hgath := hp.gathered h hq hl
  obtain ⟨f, hfH, hfv, hall⟩ := fastPathValue_uniform hv
  have hfirst : ∀ j ∈ p.responses.keys.toFinset, firstOf (a.calls p.slot j) p.step = some f := by
    intro j hj
    obtain ⟨r, hr⟩ := Proposer.mem_keys_counted (List.mem_toFinset.1 hj)
    obtain ⟨htold, hslot, hstep, -⟩ := hp.reports h hl hr
    have hrf := htold.first
    rw [hall j r hr, hslot, hstep] at hrf
    exact hrf.symm
  -- past round 1 no phase 0 carries an `H` proposal
  have hfour : p.step = FIRST_ROUND_STEP := by
    by_contra hne
    obtain ⟨j, hj⟩ := hgath.1.nonempty
    have hsent := (h.sound p.slot).first_sent (hfirst j hj)
    have hlt := h.drawn p.slot p.step f hsent (by unfold FIRST_ROUND_STEP at hne; omega) h0
    omega
  rw [hfour] at hfirst
  exact ⟨f, ⟨hfH, _, hgath.1, hfirst⟩, hfv, hall⟩

/-- phase 2 decides on the greatest proposal its quorum gathered from phase 1 -/
theorem Seat.gathers (h : Inv n a) (hp : Seat n a i p) (h4 : 4 ≤ p.step) (hq : p.Quorate) (hl : p.Level)
    (h2 : p.step % 4 = 2) (hb : bestOf (p.replies.map (·.priorAgg)) = some p.proposal) :
    SlowWit n (a.hist p.slot) p.step p.proposal := by
  refine ⟨h2, hp.carried (by omega) (by omega), _, hp.gathered h hq hl, ?_⟩
  refine greatest_of_best (fun j r hr => ?_) hb
  obtain ⟨htold, hslot, hstep, -⟩ := hp.reports h hl hr
  rw [htold.prior, hslot, hstep]
  rfl

/-- a decision by a completed quorum has its witness -/
theorem Seat.settled (h : Inv n a) (hp : Seat n a i p) (h4 : 4 ≤ p.step) (hq : p.Quorate) (hl : p.Level) {v : V}
    (hv : p.Settles v) : Settled n (a.hist p.slot) p.step v := by
  cases hv with
  | fast h0 hf =>
    obtain ⟨f, hfast, hfv, -⟩ := hp.captured h h4 hq hl h0 hf
    exact .inl ⟨f, hfast, hfv⟩
  | slow h2 hb => exact .inr ⟨p.proposal, hp.gathers h h4 hq hl h2 hb, rfl⟩

end Quorums

/-! ## Every act keeps the invariant -/

section Step

variable {n : ℕ} {a : Arena V}

/-- a request that the history backs: past step 4 its proposal is justified, and drawn below `H` in phase 0 -/
structure Backed (n : ℕ) (h : Hist V) (s : ℕ) (x : Proposal V) : Prop where
  four : 4 ≤ s
  works : 5 ≤ s → Works n h (s - 1) x
  drawn : 5 ≤ s → s % 4 = 0 → x.priority < H

theorem Inv.backed (h : Inv n a) {k s : ℕ} {x : Proposal V} (hx : (a.hist k).sent s x) : Backed n (a.hist k) s x where
  four := (h.sound k).four_le s x hx
  works := fun h5 => by
    obtain ⟨t, rfl⟩ : ∃ t, s = t + 1 := ⟨s - 1, by omega⟩
    exact h.works k t x hx (by omega)
  drawn := h.drawn k s x hx

/-- node `i` goes on with the proposer `p'` and sends the requests `new` -/
def proceed (a : Arena V) (i : NodeId) (p' : Proposer V) (new : List (Envelope (ConcreteMsg V))) : Arena V :=
  { a with props := Function.update a.props i (some p'), sends := a.sends ++ new }

omit [LinearOrder V] in
theorem le_proceed (a : Arena V) (i : NodeId) (p' : Proposer V) (new : List (Envelope (ConcreteMsg V))) :
    a.Le (a.proceed i p' new) :=
  ⟨fun _ he => List.mem_append_left _ he, fun _ _ => ⟨[], (List.append_nil _).symm⟩⟩

/-- sending backed requests from a proposer that stands on the result keeps the invariant -/
theorem Inv.proceed (h : Inv n a) {i : NodeId} {p' : Proposer V} {new : List (Envelope (ConcreteMsg V))}
    (hnew : ∀ e ∈ new, ∃ r k s x, e = ⟨i, r, .request ⟨k, s, x⟩⟩ ∧ r < n ∧ Backed n (a.hist k) s x)
    (hseat : Seat n (a.proceed i p' new) i p') : Inv n (a.proceed i p' new) := by
  have hle := le_proceed a i p' new
  have hbacked : ∀ k s x, ((a.proceed i p' new).hist k).sent s x → Backed n (a.hist k) s x := by
    rintro k s x ⟨src, dst, he⟩
    rcases List.mem_append.1 he with he | he
    · exact h.backed ⟨src, dst, he⟩
    · obtain ⟨r, k', s', x', heq, -, hb⟩ := hnew _ he
      simp only [Envelope.mk.injEq, ConcreteMsg.request.injEq, RecordRequest.mk.injEq] at heq
      obtain ⟨-, -, rfl, rfl, rfl⟩ := heq
      exact hb
  constructor
  · intro src dst req he
    rcases List.mem_append.1 he with he | he
    · exact h.request src dst req he
    · obtain ⟨r, k, s, x, heq, hr, hb⟩ := hnew _ he
      simp only [Envelope.mk.injEq, ConcreteMsg.request.injEq] at heq
      obtain ⟨-, rfl, rfl⟩ := heq
      exact ⟨hr, hb.four⟩
  · intro k j c hc
    obtain ⟨src, hsrc⟩ := h.called k j c hc
    exact ⟨src, hle.sends _ hsrc⟩
  · intro dst j r he
    rcases List.mem_append.1 he with he | he
    · exact (h.told dst j r he).mono hle
    · obtain ⟨r', k, s, x, heq, -, -⟩ := hnew _ he
      exact absurd heq (by simp)
  · intro j p hp
    by_cases hj : j = i
    · subst hj
      have : p' = p := by simpa [Arena.proceed] using hp
      rwa [← this]
    · have hp' : a.props j = some p := by simpa [Arena.proceed, hj] using hp
      exact (h.seat j p hp').mono hle
  · intro k s x hx h4
    have hw := (hbacked k (s + 1) x hx).works (by omega)
    exact hw.mono (hle.hist k)
  · intro k s x hx h5 h0
    exact (hbacked k s x hx).drawn h5 h0

/-- a call that sends nothing -/
theorem Inv.rests (h : Inv n a) {i : NodeId} {p' : Proposer V} (hseat : Seat n a i p') : Inv n (a.proceed i p' []) :=
  h.proceed (fun _ he => absurd he (by simp)) (hseat.mono (le_proceed a i p' []))

/-- a proposer may begin step `s` with the working proposal `q` -/
def Ready (n : ℕ) (h : Hist V) (s : ℕ) (q : Proposal V) : Prop := s = 4 ∨ 5 ≤ s ∧ Works n h (s - 1) q

/-- what a ready proposer prepares is backed -/
theorem Ready.backed {h : Hist V} {p : Proposer V} (hr : Ready n h p.step p.proposal) (draw : NodeId → Draw)
    (r : NodeId) : Backed n h p.step (p.prepare draw r) where
  four := by rcases hr with h4 | ⟨h5, -⟩ <;> omega
  works := fun h5 => by
    rcases hr with h4 | ⟨-, q, hq, hv, heq⟩
    · omega
    · refine ⟨q, hq, by rw [hv, Proposer.prepare_value], fun h0 => ?_⟩
      have hs : p.step - 1 + 1 = p.step := by omega
      rw [hs] at h0 heq
      rw [Proposer.prepare_later h0, heq h0]
  drawn := fun h5 h0 => Proposer.prepare_drawn h0 (by unfold FIRST_ROUND_STEP; omega) draw r

/-- beginning a step that the proposer is ready for keeps the invariant -/
theorem Inv.begins (h : Inv n a) {i : NodeId} {p : Proposer V} {draw : NodeId → Draw} (hself : p.selfId = i)
    (htotal : p.totalReplicas = n) (hd : p.decided = none) (hr : Ready n (a.hist p.slot) p.step p.proposal) :
    Inv n (a.proceed i (p.beginStep draw).1 (sendsOf i (p.beginStep draw).2)) := by
  have hle := le_proceed a i (p.beginStep draw).1 (sendsOf i (p.beginStep draw).2)
  have hsent : ∀ r < n, ⟨i, r, .request ⟨p.slot, p.step, p.prepare draw r⟩⟩ ∈
      (a.proceed i (p.beginStep draw).1 (sendsOf i (p.beginStep draw).2)).sends := fun r hrn =>
    List.mem_append_right _ ((Proposer.mem_sendsOf_beginStep p draw).2 ⟨r, by rwa [htotal], rfl⟩)
  refine h.proceed (fun e he => ?_) ?_
  · obtain ⟨r, hrn, rfl⟩ := (Proposer.mem_sendsOf_beginStep p draw).1 he
    exact ⟨r, _, _, _, rfl, by rwa [← htotal], hr.backed draw r⟩
  · refine
      { selfId := hself
        total := htotal
        started := ?_
        counted := ?_
        works := ?_
        carried := ?_
        prepared := ?_
        decided := ?_
        fast := ?_ }
    · rcases hr with h4 | ⟨h5, -⟩
      · exact .inr (by simp [h4])
      · exact .inr (by simp; omega)
    · intro j r hc
      exact absurd hc (by simp [Proposer.Counted])
    · intro h5
      rcases hr with h4 | ⟨-, hw⟩
      · simp at h5; omega
      · exact hw.mono (hle.hist p.slot)
    · intro h5 h0
      rcases hr with h4 | ⟨-, q, hq, -⟩
      · simp at h5; omega
      · -- the quorum behind the working proposal shows that there are recorders to send to
        obtain ⟨Q, hQ⟩ := hq.gathered
        obtain ⟨j, hj⟩ := hQ.1.nonempty
        have hjs := hsent j (hQ.1.lt hj)
        rw [Proposer.prepare_later (p := p) h0] at hjs
        exact ⟨i, j, hjs⟩
    · intro r q hq
      rw [Proposer.beginStep_sent] at hq
      split_ifs at hq with hrn
      rw [htotal] at hrn
      obtain rfl := Option.some.inj hq
      exact ⟨hrn, p.step, hsent r hrn, .inl rfl⟩
    · intro v hv
      rw [Proposer.beginStep_decided, hd] at hv
      exact absurd hv (by simp)
    · intro v hv
      rw [Proposer.beginStep_decided, hd] at hv
      exact absurd hv (by simp)

theorem Seat.noted {src i : NodeId} {p : Proposer V} {resp : RecordResponse V} (hp : Seat n a i p)
    (hd : p.decided = none) (hresp : ⟨src, i, .response resp⟩ ∈ a.sends) (hslot : resp.slot = p.slot)
    (hreq : resp.reqStep = p.step) : Seat n a i (p.noted src resp) := by
  have hnone : (p.noted src resp).decided = none := hd
  refine { hp with counted := fun j r hr => ?_, fast := fun v hv => by rw [hnone] at hv; exact absurd hv (by simp) }
  rcases Proposer.counted_noted hr with hold | ⟨rfl, rfl⟩
  · exact hp.counted j r hold
  · exact ⟨hresp, hslot, hreq.ge⟩

theorem Inv.reply (h : Inv n a) {src dst : NodeId} {resp : RecordResponse V} {draw : NodeId → Draw}
    (hresp : ⟨src, dst, .response resp⟩ ∈ a.sends) : Inv n (a.step (.reply src dst resp draw)) := by
  unfold step
  dsimp only
  rcases host_cases a dst fun p => p.onResponse src resp draw with hsame | ⟨p, p', fx, hp, hcall, hnext⟩
  · rwa [hsame]
  rw [hnext]
  have hseat := h.seat dst p hp
  rcases Proposer.onResponse_moves hcall with ⟨rfl, rfl⟩ | ⟨hd, hslot, hreq, hans⟩
  · exact h.rests hseat
  have hnoted : Seat n a dst (p.noted src resp) := hseat.noted hd hresp hslot hreq
  have h4 : 4 ≤ p.step := h.four_of_reply hresp hreq
  cases hans with
  | waits => exact h.rests hnoted
  | @advances q hq hl hy =>
    refine h.begins hnoted.selfId hnoted.total hd (.inr ⟨by show 5 ≤ p.step + 1; omega, q, ?_, rfl, fun _ => rfl⟩)
    exact hnoted.template h h4 hq hl hy
  | @jumps j r q hr hlt hf =>
    have hlt' : p.step < r.step := hlt
    have hb := h.backed (hnoted.first_sent h hr hf)
    refine h.begins hnoted.selfId hnoted.total hd (.inr ⟨by show 5 ≤ r.step; omega, ?_⟩)
    exact hb.works (by omega)
  | @decides v hq hl hv =>
    refine h.rests { hnoted with decided := fun w hw => ?_, fast := fun w hw h4' => ?_ }
    · obtain rfl : v = w := Option.some.inj hw
      exact hnoted.settled h h4 hq hl hv
    · obtain rfl : v = w := Option.some.inj hw
      cases hv with
      | fast h0 hf =>
        obtain ⟨f, hfast, hfv, hall⟩ := hnoted.captured h h4 hq hl h0 hf
        exact ⟨f, hfast.mono (Hist.Le.refl _), hfv, hall⟩
      | slow h2 =>
        have h42 : (p.noted src resp).step % 4 = 2 := h2
        rw [show (p.noted src resp).step = FIRST_ROUND_STEP from h4'] at h42
        exact absurd h42 (by decide)

theorem Inv.timer (h : Inv n a) {i : NodeId} {id : TimerId} {localStep : ℕ} {draw : NodeId → Draw}
    (hhedge : id = .hedge → ∀ p, a.props i = some p → 4 ≤ p.step) : Inv n (a.step (.timer i id localStep draw)) := by
  unfold step
  dsimp only
  rcases host_cases a i fun p => p.onTimer id localStep draw with hsame | ⟨p, p', fx, hp, hcall, hnext⟩
  · rwa [hsame]
  rw [hnext]
  have hseat := h.seat i p hp
  cases Proposer.onTimer_moves hcall with
  | @quiet _ x _ hfx _ =>
    rw [hseat.selfId] at hfx
    rw [hfx]
    have hsame : Seat n a i { p with lastSeenProgress := x } := { hseat with }
    exact h.rests hsame
  | restarts hd ha => exact h.begins hseat.selfId hseat.total hd (.inl rfl)
  | rewinds hd ha =>
    have h45 : ¬ 5 ≤ FIRST_ROUND_STEP := by decide
    refine h.rests
      { hseat with
        started := .inr le_rfl
        counted := fun j r hr => ?_
        works := fun h5 => absurd h5 h45
        carried := fun h5 => absurd h5 h45
        prepared := fun r q hq => ?_
        decided := fun v hv => absurd (hd.symm.trans hv) (by simp)
        fast := fun v hv => absurd (hd.symm.trans hv) (by simp) }
    · obtain ⟨hsent, hslot, -⟩ := hseat.counted j r hr
      exact ⟨hsent, hslot, (h.told i j r hsent).four⟩
    · obtain ⟨hr, s, hs, -⟩ := hseat.prepared r q hq
      exact ⟨hr, s, hs, .inr rfl⟩
  | activates hd hf =>
    have h4 := hhedge rfl p hp
    refine h.begins hseat.selfId hseat.total hd ?_
    rcases h4.eq_or_lt with h4 | h5
    · exact .inl h4.symm
    · exact .inr ⟨h5, hseat.works h5⟩
  | resends hd ha hfx =>
    refine h.proceed (fun e he => ?_) (Seat.mono (le_proceed a i _ _) { hseat with })
    obtain ⟨r, q, hq, rfl⟩ := hfx i e he
    obtain ⟨hr, s, hs, hor⟩ := hseat.prepared r q hq
    refine ⟨r, p.slot, p.step, q, rfl, hr, ?_⟩
    rcases hor with heq | h4
    · rw [heq]; exact h.backed ⟨i, r, hs⟩
    · exact ⟨h4.ge, fun h5 => by omega, fun h5 => by omega⟩

/-- a recorder answers with what it then holds -/
theorem told_answer {a : Arena V} {src dst : NodeId} {req : RecordRequest V}
    (hreq : ⟨src, dst, .request req⟩ ∈ a.sends) (hlt : dst < n) (h4 : 4 ≤ req.reqStep) :
    Told n (a.step (.record src dst req)) dst src (answer (a.calls req.slot dst) req) := by
  have hcalls : (a.step (.record src dst req)).calls req.slot dst =
      a.calls req.slot dst ++ [(req.reqStep, req.proposal)] := by simp [step]
  have hans : answer (a.calls req.slot dst) req =
      ⟨req.slot, req.reqStep, stepOf (a.calls req.slot dst ++ [(req.reqStep, req.proposal)]),
        firstOf (a.calls req.slot dst ++ [(req.reqStep, req.proposal)])
          (stepOf (a.calls req.slot dst ++ [(req.reqStep, req.proposal)])),
        priorOf (a.calls req.slot dst ++ [(req.reqStep, req.proposal)])
          (stepOf (a.calls req.slot dst ++ [(req.reqStep, req.proposal)]))⟩ := by
    unfold answer
    rw [replay_eq]
    rfl
  have hstep : req.reqStep ≤ stepOf (a.calls req.slot dst ++ [(req.reqStep, req.proposal)]) := by
    rw [stepOf_snoc]
    split_ifs with hlt
    · exact hlt.le
    · exact le_rfl
  rw [hans]
  refine
    { lt := hlt
      four := h4
      le := hstep
      visited := ?_
      first := by rw [hcalls]
      prior := by rw [hcalls]
      ack := fun heq => ?_ }
  · show Visited _ _
    rw [hcalls]
    exact visited_stepOf (lt_of_lt_of_le (by omega) hstep)
  · refine ⟨req.proposal, List.mem_append_left _ hreq, ?_⟩
    rw [hcalls, accepted_snoc, if_neg]
    · exact List.mem_append_right _ (List.mem_singleton.2 rfl)
    · -- were the call obsolete, the register would be past its step
      intro hobs
      have heq' : stepOf (a.calls req.slot dst ++ [(req.reqStep, req.proposal)]) = req.reqStep := heq
      rw [stepOf_snoc, if_pos hobs] at heq'
      exact absurd heq' (by simpa using (ne_of_gt hobs))

theorem Inv.record (h : Inv n a) {src dst : NodeId} {req : RecordRequest V}
    (hreq : ⟨src, dst, .request req⟩ ∈ a.sends) : Inv n (a.step (.record src dst req)) := by
  have hle := le_step a (.record src dst req)
  obtain ⟨hlt, h4⟩ := h.request src dst req hreq
  have hold : ∀ i j req', (⟨i, j, .request req'⟩ : Envelope (ConcreteMsg V)) ∈
      (a.step (.record src dst req)).sends → ⟨i, j, .request req'⟩ ∈ a.sends := by
    intro i j req' he
    rcases List.mem_append.1 he with he | he
    · exact he
    · exact absurd (List.mem_singleton.1 he) (by simp)
  constructor
  · exact fun i j req' he => h.request i j req' (hold i j req' he)
  · intro k j c hc
    by_cases hkj : k = req.slot ∧ j = dst
    · obtain ⟨rfl, rfl⟩ := hkj
      have hc' : c ∈ a.calls req.slot j ++ [(req.reqStep, req.proposal)] := by simpa [step] using hc
      rcases List.mem_append.1 hc' with hc' | hc'
      · obtain ⟨i, hi⟩ := h.called _ _ c hc'
        exact ⟨i, hle.sends _ hi⟩
      · obtain rfl := List.mem_singleton.1 hc'
        exact ⟨src, hle.sends _ hreq⟩
    · have hc' : c ∈ a.calls k j := by
        by_cases hk : k = req.slot
        · subst hk
          have hj : j ≠ dst := fun hj => hkj ⟨rfl, hj⟩
          simpa [step, hj] using hc
        · simpa [step, hk] using hc
      obtain ⟨i, hi⟩ := h.called k j c hc'
      exact ⟨i, hle.sends _ hi⟩
  · intro i j r he
    rcases List.mem_append.1 he with he | he
    · exact (h.told i j r he).mono hle
    · have heq := List.mem_singleton.1 he
      simp only [Envelope.mk.injEq, ConcreteMsg.response.injEq] at heq
      obtain ⟨rfl, rfl, rfl⟩ := heq
      exact told_answer hreq hlt h4
  · exact fun i p hp => (h.seat i p hp).mono hle
  · rintro k s p ⟨i, j, he⟩ hs
    exact (h.works k s p ⟨i, j, hold i j _ he⟩ hs).mono (hle.hist k)
  · rintro k s p ⟨i, j, he⟩ h5 h0
    exact h.drawn k s p ⟨i, j, hold i j _ he⟩ h5 h0

theorem Inv.hosting (h : Inv n a) {props : NodeId → Option (Proposer V)}
    (hprops : ∀ i p, props i = some p → a.props i = some p ∨ Fresh n i p) : Inv n { a with props := props } := by
  have hle : a.Le { a with props := props } := ⟨fun _ he => he, fun _ _ => ⟨[], (List.append_nil _).symm⟩⟩
  refine
    { request := h.request
      called := h.called
      told := fun i j r he => (h.told i j r he).mono hle
      seat := fun i p hp => ?_
      works := h.works
      drawn := h.drawn }
  rcases hprops i p hp with hold | hfresh
  · exact (h.seat i p hold).mono hle
  · exact hfresh.seat _

/-- **Step lemma.** Every allowed act keeps the invariant. -/
theorem inv_step (h : Inv n a) {act : Act V} (hact : Allowed n a act) : Inv n (a.step act) := by
  cases act with
  | record src dst req => exact h.record hact
  | reply src dst resp draw => exact h.reply hact
  | timer i id localStep draw => exact h.timer hact
  | spawn i p =>
    refine h.hosting fun j q hq => ?_
    by_cases hj : j = i
    · subst hj
      have : p = q := by simpa using hq
      exact .inr (this ▸ hact)
    · exact .inl (by simpa [hj] using hq)
  | retire i =>
    refine h.hosting fun j q hq => ?_
    by_cases hj : j = i
    · subst hj; simp at hq
    · exact .inl (by simpa [hj] using hq)

theorem inv_init {props : NodeId → Option (Proposer V)} (hprops : ∀ i p, props i = some p → Fresh n i p) :
    Inv n (init props) where
  request := fun i j req he => absurd he (by simp [init])
  called := fun k j c hc => absurd hc (by simp [init])
  told := fun i j r he => absurd he (by simp [init])
  seat := fun i p hp => (hprops i p hp).seat _
  works := fun k s p ⟨i, j, he⟩ => absurd he (by simp [init])
  drawn := fun k s p ⟨i, j, he⟩ => absurd he (by simp [init])

end Step

end Arena

end Queso
