/-
What phases 1 and 2 must deliver for agreement, and when the code delivers it.

A reply names the step of the request it answers and nothing else. A proposer that ends phase 1 or 2 on a quorum of such
replies therefore takes it for granted that each recorder counted accepted, at that step, a proposal no smaller than its
own. `Covered` says that this holds of an act.

Results:
- `spread_step`, `spread_run`: along covered acts, whatever reaches phase 2 was spread in phase 1, and a decision meets
  the agreement argument of its slot;
- `decisions_agree`: then any two decisions of a slot are on one value;
- `solo_step`, `Solo.covered`: a node that starts one proposer for each slot, once, never meets an uncovered act: all the
  requests it ever sent at its present step carry its present proposal.
-/
import Queso.Consensus.Arena

namespace Queso

open Register Quorum

variable {V : Type} [LinearOrder V]

/-- every recorder counted accepted, at the proposer's step, a proposal no smaller than the proposer's -/
def Proposer.Attested (calls : NodeId → List (ℕ × Proposal V)) (p : Proposer V) : Prop :=
  ∀ e ∈ p.responses.entries, ∃ c ∈ accepted (calls e.1), c.1 = p.step ∧ p.proposal ≤ c.2

/-- if the reply of `src` completes phase 1 or 2, it does so on recorders that attest the proposer's proposal -/
def Proposer.Covers (calls : NodeId → List (ℕ × Proposal V)) (p : Proposer V) (src : NodeId)
    (resp : RecordResponse V) : Prop :=
  p.decided = none → resp.slot = p.slot → resp.reqStep = p.step →
    (p.noted src resp).Quorate → (p.noted src resp).Level → p.step % 4 = 1 ∨ p.step % 4 = 2 →
    (p.noted src resp).Attested calls

instance (calls : NodeId → List (ℕ × Proposal V)) (p : Proposer V) : Decidable (p.Attested calls) := by
  unfold Proposer.Attested; infer_instance

instance (calls : NodeId → List (ℕ × Proposal V)) (p : Proposer V) (src : NodeId) (resp : RecordResponse V) :
    Decidable (p.Covers calls src resp) := by
  unfold Proposer.Covers; infer_instance

namespace Arena

variable {n : ℕ} {a : Arena V}

def Covered (a : Arena V) : Act V → Prop
  | .reply src dst resp _ => ∀ p, a.props dst = some p → p.Covers (a.calls p.slot) src resp
  | _ => True

/-- what reached phase 2 was spread, and so was what a hosted proposer decided -/
structure Spreads (n : ℕ) (a : Arena V) : Prop where
  spreading : ∀ k, Spreading n (a.hist k)
  decided : ∀ i p v, a.props i = some p → p.decided = some v → Decides n (a.hist p.slot) v

/-- a request that phase 1 prepared: if it is for phase 2, its proposal was spread -/
def Primed (n : ℕ) (h : Hist V) (s : ℕ) (x : Proposal V) : Prop := s % 4 = 2 → Spread n h (s - 1) x

theorem Spreads.primed (hs : Spreads n a) {k s : ℕ} {x : Proposal V} (hx : (a.hist k).sent s x) :
    Primed n (a.hist k) s x := by
  intro h2
  obtain ⟨t, rfl⟩ : ∃ t, s = t + 1 := ⟨s - 1, by omega⟩
  exact hs.spreading k t x hx (by omega)

theorem Spreads.proceed (hs : Spreads n a) {i : NodeId} {p' : Proposer V} {new : List (Envelope (ConcreteMsg V))}
    (hnew : ∀ e ∈ new, ∃ r k s x, e = ⟨i, r, .request ⟨k, s, x⟩⟩ ∧ Primed n (a.hist k) s x)
    (hdec : ∀ v, p'.decided = some v → Decides n (a.hist p'.slot) v) : Spreads n (a.proceed i p' new) := by
  have hle := le_proceed a i p' new
  constructor
  · rintro k s x ⟨src, dst, he⟩ h1
    have hprimed : Primed n (a.hist k) (s + 1) x := by
      rcases List.mem_append.1 he with he | he
      · exact hs.primed ⟨src, dst, he⟩
      · obtain ⟨r, k', s', x', heq, hb⟩ := hnew _ he
        simp only [Envelope.mk.injEq, ConcreteMsg.request.injEq, RecordRequest.mk.injEq] at heq
        obtain ⟨-, -, rfl, rfl, rfl⟩ := heq
        exact hb
    exact (hprimed (by omega)).mono (hle.hist k)
  · intro j p v hp hv
    by_cases hj : j = i
    · subst hj
      obtain rfl : p' = p := by simpa [Arena.proceed] using hp
      exact (hdec v hv).mono (hle.hist p'.slot)
    · have hp' : a.props j = some p := by simpa [Arena.proceed, hj] using hp
      exact (hs.decided j p v hp' hv).mono (hle.hist p.slot)

/-- a call that sends nothing -/
theorem Spreads.rests (hs : Spreads n a) {i : NodeId} {p' : Proposer V}
    (hdec : ∀ v, p'.decided = some v → Decides n (a.hist p'.slot) v) : Spreads n (a.proceed i p' []) :=
  hs.proceed (fun _ he => absurd he (by simp)) hdec

/-- beginning a step with a primed working proposal -/
theorem Spreads.begins (hs : Spreads n a) {i : NodeId} {p : Proposer V} {draw : NodeId → Draw}
    (hd : p.decided = none) (hp : Primed n (a.hist p.slot) p.step p.proposal) :
    Spreads n (a.proceed i (p.beginStep draw).1 (sendsOf i (p.beginStep draw).2)) := by
  refine hs.proceed (fun e he => ?_) (fun v hv => ?_)
  · obtain ⟨r, -, rfl⟩ := (Proposer.mem_sendsOf_beginStep p draw).1 he
    refine ⟨r, _, _, _, rfl, fun h2 => ?_⟩
    rw [Proposer.prepare_later (by omega)]
    exact hp h2
  · rw [Proposer.beginStep_decided, hd] at hv
    exact absurd hv (by simp)

/-- a covered quorum spread the proposer's own proposal -/
theorem spread_of_covered (h : Inv n a) {src i : NodeId} {p : Proposer V} {resp : RecordResponse V}
    (hseat : Seat n a i (p.noted src resp)) (hcov : p.Covers (a.calls p.slot) src resp) (hd : p.decided = none)
    (hslot : resp.slot = p.slot) (hreq : resp.reqStep = p.step) (hq : (p.noted src resp).Quorate)
    (hl : (p.noted src resp).Level) (h12 : p.step % 4 = 1 ∨ p.step % 4 = 2) :
    Spread n (a.hist p.slot) p.step p.proposal := by
  refine ⟨_, (hseat.gathered h hq hl).1, fun j hj => ?_⟩
  obtain ⟨r, hr⟩ := Proposer.mem_keys_counted (List.mem_toFinset.1 hj)
  obtain ⟨⟨s, q⟩, hacc, hs, hle⟩ := hcov hd hslot hreq hq hl h12 ⟨j, r⟩ (Proposer.counted_iff.1 hr)
  obtain rfl : s = p.step := hs
  exact ⟨q, hle, hacc⟩

theorem Spreads.reply (h : Inv n a) (hs : Spreads n a) {src dst : NodeId} {resp : RecordResponse V}
    {draw : NodeId → Draw} (hresp : ⟨src, dst, .response resp⟩ ∈ a.sends)
    (hcov : ∀ p, a.props dst = some p → p.Covers (a.calls p.slot) src resp) :
    Spreads n (a.step (.reply src dst resp draw)) := by
  unfold step
  dsimp only
  rcases host_cases a dst fun p => p.onResponse src resp draw with hsame | ⟨p, p', fx, hp, hcall, hnext⟩
  · rwa [hsame]
  rw [hnext]
  have hseat := h.seat dst p hp
  have hdec := hs.decided dst p
  rcases Proposer.onResponse_moves hcall with ⟨rfl, rfl⟩ | ⟨hd, hslot, hreq, hans⟩
  · exact hs.rests (fun v hv => hdec v hp hv)
  have hnoted : Seat n a dst (p.noted src resp) := hseat.noted hd hresp hslot hreq
  have h4 : 4 ≤ p.step := h.four_of_reply hresp hreq
  have hspread := spread_of_covered h hnoted (hcov p hp) hd hslot hreq
  cases hans with
  | waits => exact hs.rests (fun v hv => hdec v hp hv)
  | @advances q hq hl hy =>
    refine hs.begins hd fun h2 => ?_
    have h2' : (p.step + 1) % 4 = 2 := h2
    have hq' : q = p.proposal := by
      cases hy with
      | first h0 => have : p.step % 4 = 0 := h0; omega
      | kept => rfl
      | prior h3 => have : p.step % 4 = 3 := h3; omega
    rw [hq']
    exact hspread hq hl (by omega)
  | @jumps j r q hr hlt hf =>
    exact hs.begins hd (hs.primed (hnoted.first_sent h hr hf))
  | @decides v hq hl hv =>
    have hdecides : Decides n (a.hist p.slot) v := by
      cases hv with
      | fast h0 hf =>
        obtain ⟨f, hfast, hfv, -⟩ := hnoted.captured h h4 hq hl h0 hf
        exact .inl ⟨f, hfast, hfv⟩
      | slow h2 hb =>
        have hslow := hnoted.gathers h h4 hq hl h2 hb
        exact .inr ⟨p.step, p.proposal, hslow, hspread hq hl (.inr h2), rfl⟩
    refine hs.rests (fun w hw => ?_)
    obtain rfl : v = w := Option.some.inj hw
    exact hdecides

theorem Spreads.timer (h : Inv n a) (hs : Spreads n a) {i : NodeId} {id : TimerId} {localStep : ℕ}
    {draw : NodeId → Draw} (hhedge : id = .hedge → ∀ p, a.props i = some p → 4 ≤ p.step) :
    Spreads n (a.step (.timer i id localStep draw)) := by
  unfold step
  dsimp only
  rcases host_cases a i fun p => p.onTimer id localStep draw with hsame | ⟨p, p', fx, hp, hcall, hnext⟩
  · rwa [hsame]
  rw [hnext]
  have hseat := h.seat i p hp
  have hdec := hs.decided i p
  cases Proposer.onTimer_moves hcall with
  | @quiet _ x _ hfx _ =>
    rw [hseat.selfId] at hfx
    rw [hfx]
    exact hs.rests (fun v hv => hdec v hp hv)
  | restarts hd ha =>
    have h42 : ¬ FIRST_ROUND_STEP % 4 = 2 := by decide
    exact hs.begins hd (fun h2 => absurd h2 h42)
  | rewinds hd ha => exact hs.rests (fun v hv => hdec v hp hv)
  | activates hd hf =>
    refine hs.begins hd fun h2 => ?_
    have h4 := hhedge rfl p hp
    exact hs.primed (hseat.carried (by omega) (by omega)) h2
  | resends hd ha hfx =>
    refine hs.proceed (fun e he => ?_) (fun v hv => hdec v hp hv)
    obtain ⟨r, q, hq, rfl⟩ := hfx i e he
    obtain ⟨hr, s, hsent, hor⟩ := hseat.prepared r q hq
    refine ⟨r, p.slot, p.step, q, rfl, fun h2 => ?_⟩
    rcases hor with heq | h4
    · rw [heq] at h2 ⊢
      exact hs.primed ⟨i, r, hsent⟩ h2
    · omega

/-- **Step lemma.** A covered act keeps what is spread. -/
theorem spread_step (h : Inv n a) (hs : Spreads n a) {act : Act V} (hact : Allowed n a act) (hcov : Covered a act) :
    Spreads n (a.step act) := by
  have hle := le_step a act
  cases act with
  | record src dst req =>
    constructor
    · rintro k s x ⟨i, j, he⟩ h1
      rcases List.mem_append.1 he with he | he
      · exact (hs.spreading k s x ⟨i, j, he⟩ h1).mono (hle.hist k)
      · exact absurd (List.mem_singleton.1 he) (by simp)
    · exact fun i p v hp hv => (hs.decided i p v hp hv).mono (hle.hist p.slot)
  | reply src dst resp draw => exact hs.reply h hact hcov
  | timer i id localStep draw => exact hs.timer h hact
  | spawn i p =>
    refine ⟨hs.spreading, fun j q v hq hv => ?_⟩
    by_cases hj : j = i
    · subst hj
      obtain rfl : p = q := by simpa [step] using hq
      rw [Fresh.decided hact] at hv
      exact absurd hv (by simp)
    · exact hs.decided j q v (by simpa [step, hj] using hq) hv
  | retire i =>
    refine ⟨hs.spreading, fun j q v hq hv => ?_⟩
    by_cases hj : j = i
    · subst hj; simp [step] at hq
    · exact hs.decided j q v (by simpa [step, hj] using hq) hv

theorem spread_init {props : NodeId → Option (Proposer V)} (hprops : ∀ i p, props i = some p → Fresh n i p) :
    Spreads n (init props) where
  spreading := fun k s p ⟨i, j, he⟩ => absurd he (by simp [init])
  decided := fun i p v hp hv => by
    rw [(hprops i p hp).decided] at hv
    exact absurd hv (by simp)

/-- **Run lemma.** Along covered acts every decision meets the agreement argument of its slot. -/
theorem spread_run {acts : List (Act V)} (h : Inv n a) (hs : Spreads n a)
    (hacts : Runs.Along step (fun a act => Allowed n a act ∧ Covered a act) a acts) :
    Inv n (a.run acts) ∧ Spreads n (a.run acts) :=
  Runs.run_invariant (I := fun a => Inv n a ∧ Spreads n a)
    (fun _ _ hi hact => ⟨inv_step hi.1 hact.1, spread_step hi.1 hi.2 hact.1 hact.2⟩) ⟨h, hs⟩ hacts

/-- two decisions of a slot are on one value, if the fast ones are on the greatest proposal of step 4 -/
theorem decisions_agree (h : Inv n a) (hs : Spreads n a) {k : ℕ} (htop : FastTop n (a.hist k)) {v w : V}
    (hv : Decides n (a.hist k) v) (hw : Decides n (a.hist k) w) : v = w :=
  agreement (h.sound k) (hs.spreading k) htop hv hw

/-! ## One proposer for each node and slot, started once -/

/-- a kickoff finds a proposer that was never started, and a proposer is spawned for a slot its node never sent for -/
def Once (a : Arena V) : Act V → Prop
  | .timer i .kickoff _ _ => ∀ p, a.props i = some p → p.step = 0
  | .spawn i p => ∀ j s x, ⟨i, j, .request ⟨p.slot, s, x⟩⟩ ∉ a.sends
  | _ => True

/-- a node never sent past its present step, and at that step nothing but its present proposal -/
def Solo (a : Arena V) : Prop :=
  ∀ i p, a.props i = some p → ∀ j s x, ⟨i, j, .request ⟨p.slot, s, x⟩⟩ ∈ a.sends →
    s ≤ p.step ∧ (s = p.step → s % 4 ≠ 0 → x = p.proposal)

/-- a node alone on its slot is covered: the replies it counts answer its own present proposal -/
theorem Solo.covered (h : Inv n a) (ho : Solo a) {act : Act V} (hact : Allowed n a act) : Covered a act := by
  cases act with
  | reply src dst resp draw =>
    rintro p hp hd hslot hreq hq hl h12 ⟨j, r⟩ he
    have hr := Proposer.counted_iff.2 he
    have hnoted := (h.seat dst p hp).noted hd hact hslot hreq
    obtain ⟨htold, hrslot, hstep, hrreq⟩ := hnoted.reports h hl hr
    obtain ⟨q, hq, hacc⟩ := htold.ack (hstep.trans hrreq.symm)
    rw [hrslot, hrreq] at hq hacc
    have hqp : q = p.proposal := (ho dst p hp j p.step q hq).2 rfl (by omega)
    exact ⟨_, hacc, rfl, hqp.ge⟩
  | record => trivial
  | timer => trivial
  | spawn => trivial
  | retire => trivial

omit [LinearOrder V] in
theorem Solo.proceed (ho : Solo a) {i : NodeId} {p p' : Proposer V} {new : List (Envelope (ConcreteMsg V))}
    (hslot : p'.slot = p.slot)
    (hold : ∀ j s x, ⟨i, j, .request ⟨p.slot, s, x⟩⟩ ∈ a.sends →
      s ≤ p'.step ∧ (s = p'.step → s % 4 ≠ 0 → x = p'.proposal))
    (hnew : ∀ e ∈ new, ∃ r x, e = ⟨i, r, .request ⟨p'.slot, p'.step, x⟩⟩ ∧ (p'.step % 4 ≠ 0 → x = p'.proposal)) :
    Solo (a.proceed i p' new) := by
  intro k q hq j s x he
  by_cases hk : k = i
  · subst hk
    obtain rfl : p' = q := by simpa [Arena.proceed] using hq
    rcases List.mem_append.1 he with he | he
    · rw [hslot] at he
      exact hold j s x he
    · obtain ⟨r, y, heq, hy⟩ := hnew _ he
      simp only [Envelope.mk.injEq, ConcreteMsg.request.injEq, RecordRequest.mk.injEq] at heq
      obtain ⟨-, -, -, rfl, rfl⟩ := heq
      exact ⟨le_rfl, fun _ => hy⟩
  · have hq' : a.props k = some q := by simpa [Arena.proceed, hk] using hq
    rcases List.mem_append.1 he with he | he
    · exact ho k q hq' j s x he
    · obtain ⟨r, y, heq, -⟩ := hnew _ he
      simp only [Envelope.mk.injEq] at heq
      exact absurd heq.1 hk

omit [LinearOrder V] in
/-- a call that sends nothing -/
theorem Solo.rests (ho : Solo a) {i : NodeId} {p p' : Proposer V} (hslot : p'.slot = p.slot)
    (hold : ∀ j s x, ⟨i, j, .request ⟨p.slot, s, x⟩⟩ ∈ a.sends →
      s ≤ p'.step ∧ (s = p'.step → s % 4 ≠ 0 → x = p'.proposal)) : Solo (a.proceed i p' []) :=
  ho.proceed hslot hold fun _ he => absurd he (by simp)

omit [LinearOrder V] in
/-- beginning a step past everything sent so far, or the present one again with the same proposal -/
theorem Solo.begins (ho : Solo a) {i : NodeId} {p p₀ : Proposer V} {draw : NodeId → Draw} (hslot : p₀.slot = p.slot)
    (hold : ∀ j s x, ⟨i, j, .request ⟨p.slot, s, x⟩⟩ ∈ a.sends →
      s ≤ p₀.step ∧ (s = p₀.step → s % 4 ≠ 0 → x = p₀.proposal)) :
    Solo (a.proceed i (p₀.beginStep draw).1 (sendsOf i (p₀.beginStep draw).2)) := by
  refine ho.proceed (p := p) hslot hold fun e he => ?_
  obtain ⟨r, -, rfl⟩ := (Proposer.mem_sendsOf_beginStep p₀ draw).1 he
  exact ⟨r, _, rfl, fun h0 => Proposer.prepare_later (p := p₀) h0 draw r⟩

theorem Solo.reply (ho : Solo a) {src dst : NodeId} {resp : RecordResponse V}
    {draw : NodeId → Draw} : Solo (a.step (.reply src dst resp draw)) := by
  unfold step
  dsimp only
  rcases host_cases a dst fun p => p.onResponse src resp draw with hsame | ⟨p, p', fx, hp, hcall, hnext⟩
  · rwa [hsame]
  rw [hnext]
  have hp' := ho dst p hp
  rcases Proposer.onResponse_moves hcall with ⟨rfl, rfl⟩ | ⟨hd, hslot, hreq, hans⟩
  · exact ho.rests rfl hp'
  cases hans with
  | waits => exact ho.rests (p := p) rfl hp'
  | decides => exact ho.rests (p := p) rfl hp'
  | advances =>
    refine ho.begins (p := p) rfl fun j s x he => ?_
    have hle := (hp' j s x he).1
    exact ⟨hle.trans (Nat.le_succ _), fun heq => absurd heq (by show s ≠ p.step + 1; omega)⟩
  | @jumps j r q hr hlt hf =>
    refine ho.begins (p := p) rfl fun j s x he => ?_
    have hle := (hp' j s x he).1
    have hlt' : p.step < r.step := hlt
    exact ⟨hle.trans hlt'.le, fun heq => absurd heq (by show s ≠ r.step; omega)⟩

theorem Solo.timer (h : Inv n a) (ho : Solo a) {i : NodeId} {id : TimerId} {localStep : ℕ} {draw : NodeId → Draw}
    (honce : id = .kickoff → ∀ p, a.props i = some p → p.step = 0) :
    Solo (a.step (.timer i id localStep draw)) := by
  unfold step
  dsimp only
  rcases host_cases a i fun p => p.onTimer id localStep draw with hsame | ⟨p, p', fx, hp, hcall, hnext⟩
  · rwa [hsame]
  rw [hnext]
  have hseat := h.seat i p hp
  have hp' := ho i p hp
  -- a proposer at step 0 has sent nothing for its slot
  have hnothing : p.step = 0 → ∀ j s x, (⟨i, j, .request ⟨p.slot, s, x⟩⟩ : Envelope (ConcreteMsg V)) ∉ a.sends := by
    intro h0 j s x he
    have hle := (hp' j s x he).1
    have h4 := (h.request i j _ he).2
    have h4' : 4 ≤ s := h4
    omega
  cases Proposer.onTimer_moves hcall with
  | @quiet _ x _ hfx _ =>
    rw [hseat.selfId] at hfx
    rw [hfx]
    exact ho.rests (p := p) rfl hp'
  | restarts hd ha =>
    have h0 := honce rfl p hp
    exact ho.begins (p := p) rfl fun j s x he => absurd he (hnothing h0 j s x)
  | rewinds hd ha =>
    have h0 := honce rfl p hp
    exact ho.rests (p := p) rfl (fun j s x he => absurd he (hnothing h0 j s x))
  | activates hd hf => exact ho.begins (p := p) rfl hp'
  | resends hd ha hfx =>
    refine ho.proceed (p := p) rfl hp' fun e he => ?_
    obtain ⟨r, q, hq, rfl⟩ := hfx i e he
    obtain ⟨-, s, hs, hor⟩ := hseat.prepared r q hq
    refine ⟨r, q, rfl, fun h0 => ?_⟩
    have h0' : p.step % 4 ≠ 0 := h0
    rcases hor with heq | h4
    · exact (hp' r s q hs).2 heq.symm (by rwa [← heq])
    · omega

/-- **Step lemma.** A node that starts its one proposer once stays alone on its slot. -/
theorem solo_step (h : Inv n a) (ho : Solo a) {act : Act V} (hact : Allowed n a act) (honce : Once a act) :
    Solo (a.step act) := by
  cases act with
  | record src dst req =>
    intro i p hp j s x he
    rcases List.mem_append.1 he with he | he
    · exact ho i p hp j s x he
    · exact absurd (List.mem_singleton.1 he) (by simp)
  | reply src dst resp draw => exact ho.reply
  | timer i id localStep draw => exact ho.timer h (fun hid p hp => by subst hid; exact honce p hp)
  | spawn i p =>
    intro k q hq j s x he
    by_cases hk : k = i
    · subst hk
      obtain rfl : p = q := by simpa [step] using hq
      exact absurd he (honce j s x)
    · exact ho k q (by simpa [step, hk] using hq) j s x he
  | retire i =>
    intro k q hq j s x he
    by_cases hk : k = i
    · subst hk; simp [step] at hq
    · exact ho k q (by simpa [step, hk] using hq) j s x he

omit [LinearOrder V] in
theorem solo_init (props : NodeId → Option (Proposer V)) : Solo (init props) :=
  fun i p hp j s x he => absurd he (by simp [init])

end Arena

end Queso
