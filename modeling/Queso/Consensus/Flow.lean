/-
Where requests and working proposals come from: the values that move, and the `H` tag.

`new_request` says of every request an act sends that it repeats a proposal sent before, or carries the value of one
under a priority drawn below `H`, or begins round 1 with its proposer's own value. Only the last kind can be a new `H`
proposal, and only the leader makes it.

Results:
- `flow_step`: the values that move are those that proposers were started with;
- `tag_step`: every `H` proposal is the leader's;
- `first_step`: with one leader, unless a quorum of recorders froze first values of step 4 below `H`, everything sent
  past step 4 and every `H` proposal carries the value the leader was spawned with;
- `fastTop`: hence a fast-decided proposal is the greatest sent at step 4, whatever is restarted;
- `decided_frozen`: a decided proposer keeps its decision and its step.
-/
import Queso.Consensus.Arena

namespace Queso

open Register Quorum

variable {V : Type} [LinearOrder V]

namespace Arena

variable {n : ℕ} {a : Arena V}

/-! ## New requests -/

/-- what a proposer sends when it begins round 1 -/
structure Opens (a : Arena V) (act : Act V) (i : NodeId) (p : Proposer V) (x : Proposal V) : Prop where
  hosted : a.props i = some p
  act : ∃ id l draw, act = .timer i id l draw ∧ p.Reopens id l
  value : x.value = p.proposal.value
  tag : x.priority < H ∨ p.leader = some i ∧ x = ⟨p.proposal.value, H, i⟩

/-- the origin of a request for slot `k` that an act newly sends -/
inductive Made (a : Arena V) (act : Act V) (i : NodeId) (k s : ℕ) (x : Proposal V) : Prop where
  | copied {t} (hx : (a.hist k).sent t x)
  | drawn {t y} (hs : 5 ≤ s) (hx : x.priority < H) (hy : (a.hist k).sent t y) (hv : y.value = x.value)
  | opened {p} (hs : s = FIRST_ROUND_STEP) (hk : p.slot = k) (hp : Opens a act i p x)

/-- a working proposal past step 4 was sent before, as it is -/
theorem Seat.working_sent (h : Inv n a) {i : NodeId} {p : Proposer V} (hp : Seat n a i p) (h5 : 5 ≤ p.step) :
    ∃ t y, (a.hist p.slot).sent t y ∧ y.value = p.proposal.value ∧ (p.step % 4 ≠ 0 → y = p.proposal) := by
  obtain ⟨q, hq, hv, heq⟩ := hp.works h5
  have hs : p.step - 1 + 1 = p.step := by omega
  rw [hs] at heq
  rcases (h.sound p.slot).template_sent hq with hsent | ⟨-, hsent⟩
  · exact ⟨_, q, hsent, hv, heq⟩
  · exact ⟨_, q, hsent, hv, heq⟩

omit [LinearOrder V] in
/-- what a proposer that begins a step past 4 prepares from a proposal sent before -/
theorem made_of_sent {act : Act V} {i : NodeId} {p : Proposer V} (h5 : 5 ≤ p.step)
    (hw : ∃ t y, (a.hist p.slot).sent t y ∧ y.value = p.proposal.value ∧ (p.step % 4 ≠ 0 → y = p.proposal))
    (draw : NodeId → Draw) (r : NodeId) : Made a act i p.slot p.step (p.prepare draw r) := by
  obtain ⟨t, y, hy, hv, heq⟩ := hw
  by_cases h0 : p.step % 4 = 0
  · have hlt := Proposer.prepare_drawn h0 (by unfold FIRST_ROUND_STEP; omega) draw r
    exact .drawn h5 hlt hy (by rw [hv, Proposer.prepare_value])
  · rw [Proposer.prepare_later h0, ← heq h0]
    exact .copied hy

omit [LinearOrder V] in
theorem made_of_opening {act : Act V} {i : NodeId} {p p₀ : Proposer V} (hself : p.selfId = i)
    (hp : a.props i = some p) (hact : ∃ id l draw, act = .timer i id l draw ∧ p.Reopens id l)
    (hp₀ : p₀ = p.movedTo FIRST_ROUND_STEP p.proposal) (draw : NodeId → Draw) (r : NodeId) :
    Made a act i p.slot FIRST_ROUND_STEP (p₀.prepare draw r) := by
  subst hp₀
  refine .opened rfl rfl ⟨hp, hact, Proposer.prepare_value _ draw r, ?_⟩
  rcases Proposer.prepare_first (p := p.movedTo FIRST_ROUND_STEP p.proposal) rfl draw r with hlt | ⟨hl, hx⟩
  · exact .inl hlt
  · have hl' : p.leader = some p.selfId := hl
    have hx' : (p.movedTo FIRST_ROUND_STEP p.proposal).prepare draw r = ⟨p.proposal.value, H, p.selfId⟩ := hx
    rw [hself] at hl' hx'
    exact .inr ⟨hl', hx'⟩

/-- **All a new request can be.** -/
theorem new_request (h : Inv n a) {act : Act V} (hact : Allowed n a act) {i j : NodeId} {k s : ℕ} {x : Proposal V}
    (he : ⟨i, j, .request ⟨k, s, x⟩⟩ ∈ (a.step act).sends) :
    ⟨i, j, .request ⟨k, s, x⟩⟩ ∈ a.sends ∨ Made a act i k s x := by
  -- a step begun by node `m`'s proposer sends what it prepares
  have hbegin : ∀ {m : NodeId} {p : Proposer V} {draw : NodeId → Draw},
      (⟨i, j, .request ⟨k, s, x⟩⟩ : Envelope (ConcreteMsg V)) ∈ a.sends ++ sendsOf m (p.beginStep draw).2 →
      (∀ r, Made a act m p.slot p.step (p.prepare draw r)) →
      ⟨i, j, .request ⟨k, s, x⟩⟩ ∈ a.sends ∨ Made a act i k s x := by
    intro m p draw he hmade
    rcases List.mem_append.1 he with he | he
    · exact .inl he
    · obtain ⟨r, -, heq⟩ := (Proposer.mem_sendsOf_beginStep p draw).1 he
      simp only [Envelope.mk.injEq, ConcreteMsg.request.injEq, RecordRequest.mk.injEq] at heq
      obtain ⟨rfl, rfl, rfl, rfl, rfl⟩ := heq
      exact .inr (hmade j)
  cases act with
  | record src dst req =>
    rcases List.mem_append.1 he with he | he
    · exact .inl he
    · exact absurd (List.mem_singleton.1 he) (by simp)
  | spawn => exact .inl he
  | retire => exact .inl he
  | reply src dst resp draw =>
    unfold step at he
    dsimp only at he
    rcases host_cases a dst fun p => p.onResponse src resp draw with hsame | ⟨p, p', fx, hp, hcall, hnext⟩
    · rw [hsame] at he; exact .inl he
    rw [hnext] at he
    have hseat := h.seat dst p hp
    rcases Proposer.onResponse_moves hcall with ⟨rfl, rfl⟩ | ⟨hd, hslot, hreq, hans⟩
    · exact .inl (by simpa [sendsOf] using he)
    have hnoted : Seat n a dst (p.noted src resp) := hseat.noted hd hact hslot hreq
    have h4 : 4 ≤ p.step := h.four_of_reply hact hreq
    cases hans with
    | waits => exact .inl (by simpa [sendsOf] using he)
    | decides => exact .inl (by simpa [sendsOf] using he)
    | @advances q hq hl hy =>
      refine hbegin he fun r => made_of_sent (by show 5 ≤ p.step + 1; omega) ?_ draw r
      rcases (h.sound p.slot).template_sent (hnoted.template h h4 hq hl hy) with hsent | ⟨-, hsent⟩
      · exact ⟨_, q, hsent, rfl, fun _ => rfl⟩
      · exact ⟨_, q, hsent, rfl, fun _ => rfl⟩
    | @jumps m r q hr hlt hf =>
      have hlt' : p.step < r.step := hlt
      refine hbegin he fun j => made_of_sent (by show 5 ≤ r.step; omega) ?_ draw j
      exact ⟨r.step, q, hnoted.first_sent h hr hf, rfl, fun _ => rfl⟩
  | timer m id localStep draw =>
    unfold step at he
    dsimp only at he
    rcases host_cases a m fun p => p.onTimer id localStep draw with hsame | ⟨p, p', fx, hp, hcall, hnext⟩
    · rw [hsame] at he; exact .inl he
    rw [hnext] at he
    have hseat := h.seat m p hp
    cases Proposer.onTimer_moves hcall with
    | @quiet _ x _ hfx _ =>
      rw [hseat.selfId] at hfx
      rw [hfx] at he
      exact .inl (by simpa using he)
    | restarts hd ha =>
      refine hbegin he fun r => made_of_opening hseat.selfId hp ⟨_, _, _, rfl, hd, .inl ⟨rfl, ha⟩⟩ rfl draw r
    | rewinds hd ha => exact .inl (by simpa [sendsOf] using he)
    | activates hd hf =>
      refine hbegin he fun r => ?_
      have h4 := hact rfl p hp
      rcases h4.eq_or_lt with h4 | h5
      · have hp₀ : p = p.movedTo FIRST_ROUND_STEP p.proposal := by
          unfold Proposer.movedTo FIRST_ROUND_STEP
          rw [h4]
        rw [show p.step = FIRST_ROUND_STEP from h4.symm]
        exact made_of_opening hseat.selfId hp ⟨_, _, _, rfl, hd, .inr ⟨rfl, h4.symm, hf⟩⟩ hp₀ draw r
      · exact made_of_sent h5 (hseat.working_sent h h5) draw r
    | resends hd ha hfx =>
      rcases List.mem_append.1 he with he | he
      · exact .inl he
      · obtain ⟨r, q, hq, heq⟩ := hfx m _ he
        obtain ⟨hr, t, ht, -⟩ := hseat.prepared r q hq
        simp only [Envelope.mk.injEq, ConcreteMsg.request.injEq, RecordRequest.mk.injEq] at heq
        obtain ⟨rfl, rfl, rfl, rfl, rfl⟩ := heq
        exact .inr (.copied ⟨_, _, ht⟩)

/-! ## Hosted proposers -/

/-- what an act at node `i` keeps of its proposer -/
structure Kept (act : Act V) (i : NodeId) (p p' : Proposer V) : Prop where
  slot : p'.slot = p.slot
  leader : p'.leader = p.leader
  back : p'.step = 0 → p.step = 0
  away : p.step = 0 → p'.step = 0 ∨ ∃ l draw, act = .timer i .kickoff l draw
  rises : p.step ≤ p'.step ∨ ∃ l draw, act = .timer i .kickoff l draw

omit [LinearOrder V] in
theorem Kept.refl (act : Act V) (i : NodeId) (p : Proposer V) : Kept act i p p :=
  ⟨rfl, rfl, fun h0 => h0, fun h0 => .inl h0, .inl le_rfl⟩

/-- the proposer a node hosts after an act: a spawned one, or the one it hosted, with its working proposal kept or
replaced past step 4; only a kickoff takes it out of step 0 -/
theorem new_props (h : Inv n a) {act : Act V} (hact : Allowed n a act) {i : NodeId} {p' : Proposer V}
    (hp' : (a.step act).props i = some p') :
    act = .spawn i p' ∨ ∃ p, a.props i = some p ∧ Kept act i p p' ∧
      (p'.proposal = p.proposal ∨ 5 ≤ p'.step ∧ ∃ t, (a.hist p.slot).sent t p'.proposal) := by
  cases act with
  | record src dst req => exact .inr ⟨p', hp', .refl _ _ _, .inl rfl⟩
  | spawn j p =>
    by_cases hj : i = j
    · subst hj
      obtain rfl : p = p' := by simpa [step] using hp'
      exact .inl rfl
    · exact .inr ⟨p', by simpa [step, hj] using hp', .refl _ _ _, .inl rfl⟩
  | retire j =>
    by_cases hj : i = j
    · subst hj; simp [step] at hp'
    · exact .inr ⟨p', by simpa [step, hj] using hp', .refl _ _ _, .inl rfl⟩
  | reply src dst resp draw =>
    unfold step at hp'
    dsimp only at hp'
    rcases host_cases a dst fun p => p.onResponse src resp draw with hsame | ⟨p, q', fx, hp, hcall, hnext⟩
    · rw [hsame] at hp'; exact .inr ⟨p', hp', .refl _ _ _, .inl rfl⟩
    rw [hnext] at hp'
    by_cases hi : i = dst
    · subst hi
      obtain rfl : q' = p' := by simpa using hp'
      refine .inr ⟨p, hp, ?_⟩
      have hseat := h.seat i p hp
      rcases Proposer.onResponse_moves hcall with ⟨rfl, rfl⟩ | ⟨hd, hslot, hreq, hans⟩
      · exact ⟨.refl _ _ _, .inl rfl⟩
      have hnoted : Seat n a i (p.noted src resp) := hseat.noted hd hact hslot hreq
      have h4 : 4 ≤ p.step := h.four_of_reply hact hreq
      have hkept : ∀ {q : Proposer V}, q.slot = p.slot → q.leader = p.leader → p.step ≤ q.step →
          Kept (.reply src i resp draw) i p q := fun h1 h2 h3 =>
        ⟨h1, h2, fun h0 => by omega, fun h0 => by omega, .inl h3⟩
      cases hans with
      | waits => exact ⟨hkept rfl rfl le_rfl, .inl rfl⟩
      | decides => exact ⟨hkept rfl rfl le_rfl, .inl rfl⟩
      | @advances q hq hl hy =>
        refine ⟨hkept rfl rfl (Nat.le_succ _), .inr ⟨by show 5 ≤ p.step + 1; omega, ?_⟩⟩
        rcases (h.sound p.slot).template_sent (hnoted.template h h4 hq hl hy) with hsent | ⟨-, hsent⟩
        · exact ⟨_, hsent⟩
        · exact ⟨_, hsent⟩
      | @jumps m r q hr hlt hf =>
        have hlt' : p.step < r.step := hlt
        exact ⟨hkept rfl rfl hlt'.le, .inr ⟨by show 5 ≤ r.step; omega, r.step, hnoted.first_sent h hr hf⟩⟩
    · exact .inr ⟨p', by simpa [hi] using hp', .refl _ _ _, .inl rfl⟩
  | timer j id localStep draw =>
    unfold step at hp'
    dsimp only at hp'
    rcases host_cases a j fun p => p.onTimer id localStep draw with hsame | ⟨p, q', fx, hp, hcall, hnext⟩
    · rw [hsame] at hp'; exact .inr ⟨p', hp', .refl _ _ _, .inl rfl⟩
    rw [hnext] at hp'
    by_cases hi : i = j
    · subst hi
      obtain rfl : q' = p' := by simpa using hp'
      refine .inr ⟨p, hp, ?_⟩
      cases Proposer.onTimer_moves hcall with
      | quiet => exact ⟨⟨rfl, rfl, fun h0 => h0, fun h0 => .inl h0, .inl le_rfl⟩, .inl rfl⟩
      | restarts =>
        have hkick : ∃ l draw', (Act.timer i .kickoff localStep draw : Act V) = .timer i .kickoff l draw' := ⟨_, _, rfl⟩
        exact ⟨⟨rfl, rfl, fun h0 => absurd h0 (by show 4 ≠ 0; decide), fun _ => .inr hkick, .inr hkick⟩, .inl rfl⟩
      | rewinds =>
        have hkick : ∃ l draw', (Act.timer i .kickoff localStep draw : Act V) = .timer i .kickoff l draw' := ⟨_, _, rfl⟩
        exact ⟨⟨rfl, rfl, fun h0 => absurd h0 (by show 4 ≠ 0; decide), fun _ => .inr hkick, .inr hkick⟩, .inl rfl⟩
      | activates => exact ⟨⟨rfl, rfl, fun h0 => h0, fun h0 => .inl h0, .inl le_rfl⟩, .inl rfl⟩
      | resends => exact ⟨⟨rfl, rfl, fun h0 => h0, fun h0 => .inl h0, .inl le_rfl⟩, .inl rfl⟩
    · exact .inr ⟨p', by simpa [hi] using hp', .refl _ _ _, .inl rfl⟩

/-! ## Values -/

/-- every value that moves in a slot, or that a started proposer works on, is one that `Ok` allows there -/
structure Flows (Ok : ℕ → V → Prop) (a : Arena V) : Prop where
  sent : ∀ k s x, (a.hist k).sent s x → Ok k x.value
  hosted : ∀ i p, a.props i = some p → p.step ≠ 0 → Ok p.slot p.proposal.value

theorem flow_step {Ok : ℕ → V → Prop} (h : Inv n a) (hf : Flows Ok a) {act : Act V} (hact : Allowed n a act)
    (hkick : ∀ i l draw p, act = .timer i .kickoff l draw → a.props i = some p → p.step = 0 →
      Ok p.slot p.proposal.value) : Flows Ok (a.step act) where
  sent := fun k s x ⟨i, j, he⟩ => by
    rcases new_request h hact he with hold | hmade
    · exact hf.sent k s x ⟨i, j, hold⟩
    · cases hmade with
      | copied hx => exact hf.sent k _ x hx
      | drawn hs hx hy hv => rw [← hv]; exact hf.sent k _ _ hy
      | @opened p hs hk hp =>
        rw [hp.value, ← hk]
        by_cases h0 : p.step = 0
        · obtain ⟨id, l, draw, rfl, -, ⟨rfl, -⟩ | ⟨-, h4, -⟩⟩ := hp.act
          · exact hkick i l draw p rfl hp.hosted h0
          · rw [h4] at h0; exact absurd h0 (by decide)
        · exact hf.hosted i p hp.hosted h0
  hosted := fun i p' hp' hne => by
    rcases new_props h hact hp' with hsp | ⟨p, hp, hkept, hor⟩
    · subst hsp
      exact absurd (Fresh.step hact) hne
    · rw [hkept.slot]
      rcases hor with heq | ⟨-, t, ht⟩
      · rw [heq]
        by_cases h0 : p.step = 0
        · rcases hkept.away h0 with h0' | ⟨l, draw, rfl⟩
          · exact absurd h0' hne
          · exact hkick i l draw p rfl hp h0
        · exact hf.hosted i p hp h0
      · exact hf.sent _ t _ ht

/-- a decided value is one that moved -/
theorem Flows.decided {Ok : ℕ → V → Prop} (h : Inv n a) (hf : Flows Ok a) {k s : ℕ} {v : V}
    (hv : Settled n (a.hist k) s v) : Ok k v := by
  rcases hv with ⟨p, ⟨-, Q, hQ, hfirst⟩, rfl⟩ | ⟨p, hp, rfl⟩
  · obtain ⟨j, hj⟩ := hQ.nonempty
    exact hf.sent k _ p ((h.sound k).first_sent (hfirst j hj))
  · exact hf.sent k s p hp.2.1

/-- every value that moves in a slot, or that a hosted proposer works on, is one that `Ok` allows there -/
structure Carries (Ok : ℕ → V → Prop) (a : Arena V) : Prop where
  flows : Flows Ok a
  fresh : ∀ i p, a.props i = some p → Ok p.slot p.proposal.value

theorem carry_step {Ok : ℕ → V → Prop} (h : Inv n a) (hc : Carries Ok a) {act : Act V} (hact : Allowed n a act)
    (hspawn : ∀ i p, act = .spawn i p → Ok p.slot p.proposal.value) : Carries Ok (a.step act) where
  flows := flow_step h hc.flows hact fun i _ _ p _ hp _ => hc.fresh i p hp
  fresh := fun i p' hp' => by
    rcases new_props h hact hp' with hsp | ⟨p, hp, hkept, hor⟩
    · exact hspawn i p' hsp
    · rw [hkept.slot]
      rcases hor with heq | ⟨-, t, ht⟩
      · rw [heq]; exact hc.fresh i p hp
      · exact hc.flows.sent _ t _ ht

omit [LinearOrder V] in
theorem Carries.mono {Ok Ok' : ℕ → V → Prop} (hle : ∀ k v, Ok k v → Ok' k v) (h : Carries Ok a) : Carries Ok' a :=
  ⟨⟨fun k s x hx => hle k _ (h.flows.sent k s x hx), fun i p hp h0 => hle _ _ (h.flows.hosted i p hp h0)⟩,
    fun i p hp => hle _ _ (h.fresh i p hp)⟩

/-! ## Who sends for a slot -/

/-- node `i` sends for slot `k`, and hosts a proposer of it, only if `R i k` -/
structure Within (R : NodeId → ℕ → Prop) (a : Arena V) : Prop where
  sent : ∀ i j k s x, ⟨i, j, .request ⟨k, s, x⟩⟩ ∈ a.sends → R i k
  hosted : ∀ i p, a.props i = some p → R i p.slot

/-- a new request is sent by a node that hosts a proposer of its slot -/
theorem new_sender (h : Inv n a) {act : Act V} {i j : NodeId} {k s : ℕ} {x : Proposal V}
    (he : ⟨i, j, .request ⟨k, s, x⟩⟩ ∈ (a.step act).sends) :
    ⟨i, j, .request ⟨k, s, x⟩⟩ ∈ a.sends ∨ ∃ p, a.props i = some p ∧ p.slot = k := by
  have hcall : ∀ {m : NodeId} {call : Proposer V → Called V},
      (⟨i, j, .request ⟨k, s, x⟩⟩ : Envelope (ConcreteMsg V)) ∈ (a.host m call).sends →
      (∀ p p' fx, a.props m = some p → call p = .ok (p', fx) → Proposer.Requests m p.slot fx) →
      ⟨i, j, .request ⟨k, s, x⟩⟩ ∈ a.sends ∨ ∃ p, a.props i = some p ∧ p.slot = k := by
    intro m call he hreq
    rcases host_cases a m call with hsame | ⟨p, p', fx, hp, hc, hnext⟩
    · rw [hsame] at he; exact .inl he
    · rw [hnext] at he
      rcases List.mem_append.1 he with he | he
      · exact .inl he
      · obtain ⟨r, t, y, heq⟩ := hreq p p' fx hp hc _ he
        simp only [Envelope.mk.injEq, ConcreteMsg.request.injEq, RecordRequest.mk.injEq] at heq
        obtain ⟨rfl, -, rfl, -, -⟩ := heq
        exact .inr ⟨p, hp, rfl⟩
  cases act with
  | record src dst req =>
    rcases List.mem_append.1 he with he | he
    · exact .inl he
    · exact absurd (List.mem_singleton.1 he) (by simp)
  | spawn => exact .inl he
  | retire => exact .inl he
  | reply src dst resp draw => exact hcall he fun p p' fx _ hc => Proposer.onResponse_requests hc dst
  | timer m id localStep draw =>
    refine hcall he fun p p' fx hp hc => ?_
    have hreq := Proposer.onTimer_requests hc
    rwa [(h.seat m p hp).selfId] at hreq

theorem within_step {R : NodeId → ℕ → Prop} (h : Inv n a) (hw : Within R a) {act : Act V} (hact : Allowed n a act)
    (hspawn : ∀ i p, act = .spawn i p → R i p.slot) : Within R (a.step act) where
  sent := fun i j k s x he => by
    rcases new_sender h he with hold | ⟨p, hp, rfl⟩
    · exact hw.sent i j k s x hold
    · exact hw.hosted i p hp
  hosted := fun i p' hp' => by
    rcases new_props h hact hp' with hsp | ⟨p, hp, hkept, -⟩
    · exact hspawn i p' hsp
    · rw [hkept.slot]; exact hw.hosted i p hp

omit [LinearOrder V] in
theorem Within.mono {R R' : NodeId → ℕ → Prop} (hle : ∀ i k, R i k → R' i k) (h : Within R a) : Within R' a :=
  ⟨fun i j k s x he => hle i k (h.sent i j k s x he), fun i p hp => hle i _ (h.hosted i p hp)⟩

/-! ## The `H` tag -/

/-- no priority exceeds `H` -/
def Capped (a : Arena V) : Prop := ∀ k s x, (a.hist k).sent s x → x.priority ≤ H

theorem cap_step (h : Inv n a) (hc : Capped a) {act : Act V} (hact : Allowed n a act) : Capped (a.step act) := by
  rintro k s x ⟨i, j, he⟩
  rcases new_request h hact he with hold | hmade
  · exact hc k s x ⟨i, j, hold⟩
  · cases hmade with
    | copied hx => exact hc k _ x hx
    | drawn hs hx => exact hx.le
    | opened hs hk hp =>
      rcases hp.tag with hlt | ⟨-, rfl⟩
      · exact hlt.le
      · exact le_rfl

/-- every `H` proposal of slot `k` is the leader's -/
def Tagged (leader : Option NodeId) (k : ℕ) (a : Arena V) : Prop :=
  ∀ s x, (a.hist k).sent s x → H ≤ x.priority → leader = some x.origin

/-- who takes itself for the leader of slot `k` is the leader -/
def Led (leader : Option NodeId) (k : ℕ) (a : Arena V) : Prop :=
  ∀ i p, a.props i = some p → p.slot = k → p.leader = some i → leader = some i

theorem led_step {leader : Option NodeId} {k : ℕ} (h : Inv n a) (hl : Led leader k a) {act : Act V}
    (hact : Allowed n a act)
    (hspawn : ∀ i p, act = .spawn i p → p.slot = k → p.leader = some i → leader = some i) :
    Led leader k (a.step act) := by
  intro i p' hp' hk hlead
  rcases new_props h hact hp' with hsp | ⟨p, hp, hkept, -⟩
  · exact hspawn i p' hsp hk hlead
  · exact hl i p hp (hkept.slot ▸ hk) (hkept.leader ▸ hlead)

theorem tag_step {leader : Option NodeId} {k : ℕ} (h : Inv n a) (hl : Led leader k a) (ht : Tagged leader k a)
    {act : Act V} (hact : Allowed n a act) : Tagged leader k (a.step act) := by
  rintro s x ⟨i, j, he⟩ hH
  rcases new_request h hact he with hold | hmade
  · exact ht s x ⟨i, j, hold⟩ hH
  · cases hmade with
    | copied hx => exact ht _ x hx hH
    | drawn hs hx => omega
    | opened hs hk hp =>
      rcases hp.tag with hlt | ⟨hlead, rfl⟩
      · omega
      · exact hl i _ hp.hosted hk hlead

/-! ## One leader, restarted or not -/

/-- a quorum of recorders froze first values of step 4 below `H` -/
def Plain (n : ℕ) (h : Hist V) : Prop :=
  ∃ Q, IsQuorum n Q ∧ ∀ j ∈ Q, ∃ p, firstOf (h.calls j) FIRST_ROUND_STEP = some p ∧ p.priority < H

omit [LinearOrder V] in
theorem Plain.mono {h h' : Hist V} (hle : h.Le h') (hp : Plain n h) : Plain n h' := by
  obtain ⟨Q, hQ, hfirst⟩ := hp
  refine ⟨Q, hQ, fun j hj => ?_⟩
  obtain ⟨p, hp, hlt⟩ := hfirst j hj
  exact ⟨p, by rw [hle.firstOf ⟨p, firstOf_mem hp⟩, hp], hlt⟩

/-- past step 4, and among `H` proposals, everything carries `v₀`; and so does the leader's working proposal -/
structure FirstValue (leader : Option NodeId) (v₀ : Option V) (k : ℕ) (a : Arena V) : Prop where
  sent : ∀ s x, (a.hist k).sent s x → 5 ≤ s ∨ H ≤ x.priority → some x.value = v₀
  hosted : ∀ i p, a.props i = some p → p.slot = k → leader = some i → some p.proposal.value = v₀

/-- unless step 4 is frozen plain, a quorum of any step yields the one value there is -/
theorem works_value {h : Hist V} (hs : Sound n h) (hplain : ¬ Plain n h) {v₀ : Option V} {s : ℕ} {q : Proposal V}
    (hsent : ∀ t ≤ s, ∀ x, h.sent t x → 5 ≤ t ∨ H ≤ x.priority → some x.value = v₀) (h4 : 4 ≤ s)
    (hq : Works n h s q) : some q.value = v₀ := by
  obtain ⟨q', hq', hv, -⟩ := hq
  rw [← hv]
  rcases h4.eq_or_lt with rfl | h5
  · obtain ⟨Q, hQ, ⟨i, -, hi⟩, hmax⟩ : BestFirst n h 4 q' := hq'
    -- some member of the quorum holds an `H` proposal, and the best is no smaller
    have hH : ∃ j ∈ Q, ∃ p, firstOf (h.calls j) 4 = some p ∧ H ≤ p.priority := by
      by_contra hno
      push Not at hno
      refine hplain ⟨Q, hQ.1, fun j hj => ?_⟩
      obtain ⟨p, hp⟩ := (hQ.2 j hj).firstOf (by decide)
      exact ⟨p, hp, hno j hj p hp⟩
    obtain ⟨j, hj, p, hp, hpH⟩ := hH
    have hle := Proposal.priority_le (hmax j hj p hp)
    exact hsent 4 le_rfl q' (hs.first_sent hi) (.inr (hpH.trans hle))
  · rcases hs.template_sent hq' with hx | ⟨h3, hx⟩
    · exact hsent s le_rfl q' hx (.inl h5)
    · exact hsent (s - 1) (by omega) q' hx (.inl (by omega))

theorem first_step {leader : Option NodeId} {v₀ : Option V} {k : ℕ} (h : Inv n a) (hl : Led leader k a)
    (hf : Plain n (a.hist k) ∨ FirstValue leader v₀ k a) {act : Act V} (hact : Allowed n a act)
    (hspawn : ∀ i p, act = .spawn i p → p.slot = k → leader = some i → some p.proposal.value = v₀) :
    Plain n ((a.step act).hist k) ∨ FirstValue leader v₀ k (a.step act) := by
  have hle := (le_step a act).hist k
  by_cases hplain : Plain n ((a.step act).hist k)
  · exact .inl hplain
  have hf := hf.resolve_left fun hp => hplain (hp.mono hle)
  have hnext := inv_step h hact
  have hsound := hnext.sound k
  -- an `H` proposal of step 4 is repeated, or tagged by the leader on its working proposal
  have hfour : ∀ x, ((a.step act).hist k).sent 4 x → H ≤ x.priority → some x.value = v₀ := by
    rintro x ⟨i, j, he⟩ hH
    rcases new_request h hact he with hmem | hmade
    · exact hf.sent 4 x ⟨i, j, hmem⟩ (.inr hH)
    · cases hmade with
      | copied hx => exact hf.sent _ x hx (.inr hH)
      | drawn hs => exact absurd hs (by decide)
      | opened hs hk hp =>
        rcases hp.tag with hlt | ⟨hlead, rfl⟩
        · omega
        · exact hf.hosted i _ hp.hosted hk (hl i _ hp.hosted hk hlead)
  have hall : ∀ s x, ((a.step act).hist k).sent s x → 5 ≤ s ∨ H ≤ x.priority → some x.value = v₀ := by
    intro s
    induction s using Nat.strong_induction_on with
    | _ s ih =>
      intro x hx hor
      have h4 := hsound.four_le s x hx
      rcases h4.eq_or_lt with rfl | h5
      · exact hfour x hx (hor.resolve_left (by decide))
      · obtain ⟨t, rfl⟩ : ∃ t, s = t + 1 := ⟨s - 1, by omega⟩
        have hw := hsound.works t x hx (by omega)
        exact works_value hsound hplain (fun u hu y hy hyor => ih u (by omega) y hy hyor) (by omega) hw
  refine .inr ⟨hall, fun i p' hp' hk hlead => ?_⟩
  rcases new_props h hact hp' with hsp | ⟨p, hp, hkept, heq | ⟨h5, -⟩⟩
  · exact hspawn i p' hsp hk hlead
  · rw [heq]; exact hf.hosted i p hp (hkept.slot ▸ hk) hlead
  · have hw := (hnext.seat i p' hp').works h5
    rw [hk] at hw
    exact works_value hsound hplain (fun u _ y hy hyor => hall u y hy hyor) (by omega) hw

/-- **One leader's fast decisions are on the greatest proposal of step 4**, restarted or not. -/
theorem fastTop {leader : Option NodeId} {v₀ : Option V} {k : ℕ} (h : Inv n a) (hc : Capped a) (ht : Tagged leader k a)
    (hf : Plain n (a.hist k) ∨ FirstValue leader v₀ k a) : FastTop n (a.hist k) := by
  intro p hp q hq
  have hsound := h.sound k
  -- a fast quorum meets every quorum that is frozen plain
  have hplain : ¬ Plain n (a.hist k) := by
    rintro ⟨R, hR, hlow⟩
    obtain ⟨hpH, Q, hQ, hfirst⟩ := hp
    obtain ⟨j, hjQ, hjR⟩ := quorum_inter hQ hR
    obtain ⟨x, hx, hxlt⟩ := hlow j hjR
    have hxp : x = p := Option.some.inj (hx.symm.trans (hfirst j hjQ))
    rw [hxp, hpH] at hxlt
    exact lt_irrefl _ hxlt
  have hf := hf.resolve_left hplain
  have hpsent : (a.hist k).sent FIRST_ROUND_STEP p := by
    obtain ⟨-, Q, hQ, hfirst⟩ := hp
    obtain ⟨j, hj⟩ := hQ.nonempty
    exact hsound.first_sent (hfirst j hj)
  by_cases hqH : H ≤ q.priority
  · -- both carry the leader's tag and the leader's first value
    have hqprio : q.priority = H := le_antisymm (hc k _ q hq) hqH
    have hqlead := ht _ q hq hqH
    have hplead := ht _ p hpsent hp.1.ge
    have hqv := hf.sent _ q hq (.inr hqH)
    have hpv := hf.sent _ p hpsent (.inr hp.1.ge)
    have heq : q = p := by
      cases q
      cases p
      simp only [Proposal.mk.injEq]
      exact ⟨Option.some.inj (hqv.trans hpv.symm), hqprio.trans hp.1.symm,
        Option.some.inj (hqlead.symm.trans hplead)⟩
    exact heq.le
  · exact Proposal.le_of_priority_lt (by rw [hp.1]; omega)

/-! ## A decided proposer -/

/-- a decided proposer is frozen: its decision, its step and its working proposal stay -/
theorem decided_frozen {act : Act V} {i : NodeId} {p p' : Proposer V} {v : V} (hp : a.props i = some p)
    (hd : p.decided = some v) (hp' : (a.step act).props i = some p') (hact : ∀ q, act ≠ .spawn i q) :
    p'.decided = some v ∧ p'.step = p.step := by
  have hsame : a.props i = some p' → p'.decided = some v ∧ p'.step = p.step := by
    intro h
    obtain rfl : p = p' := Option.some.inj (hp.symm.trans h)
    exact ⟨hd, rfl⟩
  cases act with
  | record src dst req => exact hsame hp'
  | spawn j q =>
    by_cases hj : i = j
    · subst hj; exact absurd rfl (hact q)
    · exact hsame (by simpa [step, hj] using hp')
  | retire j =>
    by_cases hj : i = j
    · subst hj; simp [step] at hp'
    · exact hsame (by simpa [step, hj] using hp')
  | reply src dst resp draw =>
    unfold step at hp'
    dsimp only at hp'
    rcases host_cases a dst fun p => p.onResponse src resp draw with hsm | ⟨q, q', fx, hq, hcall, hnext⟩
    · rw [hsm] at hp'; exact hsame hp'
    rw [hnext] at hp'
    by_cases hi : i = dst
    · subst hi
      obtain rfl : q' = p' := by simpa using hp'
      obtain rfl : p = q := Option.some.inj (hp.symm.trans hq)
      rcases Proposer.onResponse_moves hcall with ⟨rfl, rfl⟩ | ⟨hnone, -⟩
      · exact ⟨hd, rfl⟩
      · rw [hd] at hnone; exact absurd hnone (by simp)
    · exact hsame (by simpa [hi] using hp')
  | timer j id localStep draw =>
    unfold step at hp'
    dsimp only at hp'
    rcases host_cases a j fun p => p.onTimer id localStep draw with hsm | ⟨q, q', fx, hq, hcall, hnext⟩
    · rw [hsm] at hp'; exact hsame hp'
    rw [hnext] at hp'
    by_cases hi : i = j
    · subst hi
      obtain rfl : q' = p' := by simpa using hp'
      obtain rfl : p = q := Option.some.inj (hp.symm.trans hq)
      cases Proposer.onTimer_moves hcall with
      | quiet => exact ⟨hd, rfl⟩
      | restarts hnone => rw [hd] at hnone; exact absurd hnone (by simp)
      | rewinds hnone => rw [hd] at hnone; exact absurd hnone (by simp)
      | activates hnone => rw [hd] at hnone; exact absurd hnone (by simp)
      | resends hnone => rw [hd] at hnone; exact absurd hnone (by simp)
    · exact hsame (by simpa [hi] using hp')

end Arena

end Queso
