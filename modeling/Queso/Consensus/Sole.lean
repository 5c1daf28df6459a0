/-
One `H` proposal for each slot, across all proposers that a slot ever sees.

A node that takes itself for a slot's leader must be the leader, and it must start that proposer on a slot it never sent
for. Then `sole_step` says that all `H` proposals of the slot stay one and the same, whatever else is started there
without a leader, and `Sole.fastTop` that a fast decision is on the greatest proposal of step 4.
-/
import Queso.Consensus.Flow

namespace Queso

open Register Quorum

variable {V : Type} [LinearOrder V]

namespace Arena

variable {n : ℕ} {a : Arena V}

/-- node `i` sent no request for slot `k` -/
def Untouched (a : Arena V) (i : NodeId) (k : ℕ) : Prop := ∀ j s x, ⟨i, j, .request ⟨k, s, x⟩⟩ ∉ a.sends

/-- a proposer is started once, and one that takes itself for the leader is started by the leader, on a slot it never
sent for -/
def Heads (L : ℕ → Option NodeId) (a : Arena V) : Act V → Prop
  | .timer i id _ _ => id = .kickoff → ∀ p, a.props i = some p → p.step = 0
  | .spawn i p => p.leader = some i → L p.slot = some i ∧ a.Untouched i p.slot
  | _ => True

/-- `L` names the leaders of the slots, and every `H` proposal is its slot's only one, sent by the leader itself -/
structure Sole (L : ℕ → Option NodeId) (a : Arena V) : Prop where
  capped : Capped a
  tagged : ∀ k s x, (a.hist k).sent s x → H ≤ x.priority →
    L k = some x.origin ∧ ∃ j t, ⟨x.origin, j, .request ⟨k, t, x⟩⟩ ∈ a.sends
  unique : ∀ k s t x y, (a.hist k).sent s x → (a.hist k).sent t y → H ≤ x.priority → H ≤ y.priority → x = y
  leads : ∀ i p, a.props i = some p → p.leader = some i → L p.slot = some i
  works : ∀ i p, a.props i = some p → p.leader = some i → p.step ≤ FIRST_ROUND_STEP →
    ∀ s x, (a.hist p.slot).sent s x → H ≤ x.priority → x.value = p.proposal.value

omit [LinearOrder V] in
/-- leaders that are named later do not matter to the slots named so far -/
theorem Sole.mono {L L' : ℕ → Option NodeId} (hL : ∀ k i, L k = some i → L' k = some i) (h : Sole L a) :
    Sole L' a where
  capped := h.capped
  tagged := fun k s x hx hH => ⟨hL k _ (h.tagged k s x hx hH).1, (h.tagged k s x hx hH).2⟩
  unique := h.unique
  leads := fun i p hp hl => hL _ _ (h.leads i p hp hl)
  works := h.works

/-- an `H` request that an act newly sends is the opening of the leader's proposer, at most at step 4 so far -/
theorem new_tagged {L : ℕ → Option NodeId} (h : Inv n a) {act : Act V} (hact : Allowed n a act)
    (hheads : Heads L a act) {i j : NodeId} {k s : ℕ} {x : Proposal V}
    (he : ⟨i, j, .request ⟨k, s, x⟩⟩ ∈ (a.step act).sends) (hH : H ≤ x.priority) :
    (∃ t, (a.hist k).sent t x) ∨ ∃ p id l draw, act = .timer i id l draw ∧ a.props i = some p ∧ p.slot = k ∧
      p.leader = some i ∧ p.step ≤ FIRST_ROUND_STEP ∧ x = ⟨p.proposal.value, H, i⟩ := by
  rcases new_request h hact he with hold | hmade
  · exact .inl ⟨s, i, j, hold⟩
  · cases hmade with
    | copied hx => exact .inl ⟨_, hx⟩
    | drawn hs hx => omega
    | @opened p hs hk hp =>
      rcases hp.tag with hlt | ⟨hlead, hx⟩
      · omega
      · obtain ⟨id, l, draw, rfl, -, hor⟩ := hp.act
        refine .inr ⟨p, id, l, draw, rfl, hp.hosted, hk, hlead, ?_, hx⟩
        rcases hor with ⟨hid, -⟩ | ⟨-, h4, -⟩
        · have h0 := hheads hid p hp.hosted
          omega
        · exact h4.le

omit [LinearOrder V] in
/-- what the leader's proposer opens with is the `H` proposal that the slot already has, if any -/
theorem Sole.eq {L : ℕ → Option NodeId} (hs : Sole L a) {i : NodeId} {p : Proposer V} {s : ℕ} {x : Proposal V}
    (hp : a.props i = some p) (hl : p.leader = some i) (hst : p.step ≤ FIRST_ROUND_STEP)
    (hx : (a.hist p.slot).sent s x) (hH : H ≤ x.priority) : x = ⟨p.proposal.value, H, i⟩ := by
  have hv := hs.works i p hp hl hst s x hx hH
  have hprio : x.priority = H := le_antisymm (hs.capped _ _ _ hx) hH
  have horig : x.origin = i := Option.some.inj ((hs.tagged _ _ _ hx hH).1.symm.trans (hs.leads i p hp hl))
  rw [← hv, ← hprio, ← horig]

/-- **Step lemma.** The `H` proposal of a slot stays the only one. -/
theorem sole_step {L : ℕ → Option NodeId} (h : Inv n a) (hs : Sole L a) {act : Act V} (hact : Allowed n a act)
    (hheads : Heads L a act) : Sole L (a.step act) := by
  have hle := le_step a act
  have htag : ∀ k s x, ((a.step act).hist k).sent s x → H ≤ x.priority →
      L k = some x.origin ∧ ∃ j t, ⟨x.origin, j, .request ⟨k, t, x⟩⟩ ∈ (a.step act).sends := by
    rintro k s x ⟨i, j, he⟩ hH
    rcases new_tagged h hact hheads he hH with ⟨t, hx⟩ | ⟨p, id, l, draw, rfl, hp, hk, hlead, -, rfl⟩
    · obtain ⟨hL, j, t, hj⟩ := hs.tagged k t x hx hH
      exact ⟨hL, j, t, hle.sends _ hj⟩
    · exact ⟨by rw [← hk]; exact hs.leads i p hp hlead, j, s, he⟩
  constructor
  · exact cap_step h hs.capped hact
  · exact htag
  · rintro k s t x y ⟨i, j, hx⟩ ⟨i', j', hy⟩ hHx hHy
    rcases new_tagged h hact hheads hx hHx with ⟨u, hxo⟩ | ⟨p, id, l, draw, rfl, hp, hk, hlead, hst, rfl⟩
    · rcases new_tagged h hact hheads hy hHy with ⟨u', hyo⟩ | ⟨q, id', l', draw', rfl, hq, hk', hlead', hst', rfl⟩
      · exact hs.unique k u u' x y hxo hyo hHx hHy
      · exact hs.eq hq hlead' hst' (hk' ▸ hxo) hHx
    · rcases new_tagged h hact hheads hy hHy with ⟨u', hyo⟩ | ⟨q, id', l', draw', heq, hq, -, -, -, rfl⟩
      · exact (hs.eq hp hlead hst (hk ▸ hyo) hHy).symm
      · -- both are the opening of one proposer
        simp only [Act.timer.injEq] at heq
        obtain ⟨rfl, -⟩ := heq
        rw [Option.some.inj (hp.symm.trans hq)]
  · intro i p' hp' hl
    rcases new_props h hact hp' with rfl | ⟨p, hp, hkept, -⟩
    · exact (hheads hl).1
    · rw [hkept.slot]
      exact hs.leads i p hp (hkept.leader ▸ hl)
  · rintro i p' hp' hl hst s x ⟨m, j, he⟩ hH
    rcases new_props h hact hp' with rfl | ⟨p, hp, hkept, heq⟩
    · -- nothing the leader could have tagged was sent for the slot
      obtain ⟨hL, hfree⟩ := hheads hl
      rcases new_tagged h hact hheads he hH with ⟨t, hx⟩ | ⟨q, id, l, draw, heq, -⟩
      · obtain ⟨hLx, j', t', hj'⟩ := hs.tagged _ _ _ hx hH
        rw [← Option.some.inj (hL.symm.trans hLx)] at hj'
        exact absurd hj' (hfree j' t' x)
      · exact absurd heq (by simp)
    · have hv : p'.proposal = p.proposal := heq.resolve_right fun h5 => by
        have h4 : p'.step ≤ 4 := hst
        omega
      have hst' : p.step ≤ FIRST_ROUND_STEP := by
        rcases hkept.rises with hle' | ⟨l, draw, rfl⟩
        · exact hle'.trans hst
        · rw [hheads rfl p hp]; decide
      have hl' : p.leader = some i := hkept.leader ▸ hl
      rw [hv]
      rw [hkept.slot] at he
      rcases new_tagged h hact hheads he hH with ⟨t, hx⟩ | ⟨q, id, l, draw, -, hq, hk, hlead, -, rfl⟩
      · exact hs.works i p hp hl' hst' t x hx hH
      · -- the opening proposer is this one, since both lead the slot
        have hL := hs.leads m q hq hlead
        rw [hk, hs.leads i p hp hl'] at hL
        obtain rfl := Option.some.inj hL
        rw [Option.some.inj (hp.symm.trans hq)]

/-- an `H` proposal, and what a leader's proposer opens with, carries a value that `Ok` allows -/
structure Tags (Ok : V → Prop) (a : Arena V) : Prop where
  sent : ∀ k s x, (a.hist k).sent s x → H ≤ x.priority → Ok x.value
  hosted : ∀ i p, a.props i = some p → p.leader = some i → p.step ≤ FIRST_ROUND_STEP → Ok p.proposal.value

theorem tags_step {Ok : V → Prop} {L : ℕ → Option NodeId} (h : Inv n a) (ht : Tags Ok a) {act : Act V}
    (hact : Allowed n a act) (hheads : Heads L a act)
    (hspawn : ∀ i p, act = .spawn i p → p.leader = some i → Ok p.proposal.value) : Tags Ok (a.step act) where
  sent := fun k s x ⟨i, j, he⟩ hH => by
    rcases new_tagged h hact hheads he hH with ⟨t, hx⟩ | ⟨p, id, l, draw, -, hp, -, hlead, hst, rfl⟩
    · exact ht.sent k t x hx hH
    · exact ht.hosted i p hp hlead hst
  hosted := fun i p' hp' hl hst => by
    rcases new_props h hact hp' with hsp | ⟨p, hp, hkept, heq⟩
    · exact hspawn i p' hsp hl
    · have hv : p'.proposal = p.proposal := heq.resolve_right fun h5 => by
        have h4 : p'.step ≤ 4 := hst
        omega
      rw [hv]
      refine ht.hosted i p hp (hkept.leader ▸ hl) ?_
      rcases hkept.rises with hle | ⟨l, draw, rfl⟩
      · exact hle.trans hst
      · rw [hheads rfl p hp]; decide

omit [LinearOrder V] in
theorem Tags.mono {Ok Ok' : V → Prop} (hle : ∀ v, Ok v → Ok' v) (h : Tags Ok a) : Tags Ok' a :=
  ⟨fun k s x hx hH => hle _ (h.sent k s x hx hH), fun i p hp hl hst => hle _ (h.hosted i p hp hl hst)⟩

/-- **One `H` proposal makes fast decisions greatest.** -/
theorem Sole.fastTop {L : ℕ → Option NodeId} (h : Inv n a) (hs : Sole L a) (k : ℕ) : FastTop n (a.hist k) := by
  intro p hp q hq
  obtain ⟨hpH, Q, hQ, hfirst⟩ := hp
  obtain ⟨j, hj⟩ := hQ.nonempty
  have hsent := (h.sound k).first_sent (hfirst j hj)
  by_cases hqH : H ≤ q.priority
  · exact (hs.unique k _ _ q p hq hsent hqH hpH.ge).le
  · exact Proposal.le_of_priority_lt (by omega)

omit [LinearOrder V] in
theorem sole_init {L : ℕ → Option NodeId} : Sole L (init (V := V) fun _ => none) where
  capped := fun k s x ⟨i, j, he⟩ => absurd he (by simp [init])
  tagged := fun k s x ⟨i, j, he⟩ => absurd he (by simp [init])
  unique := fun k s t x y ⟨i, j, he⟩ => absurd he (by simp [init])
  leads := fun i p hp => absurd hp (by simp [init])
  works := fun i p hp => absurd hp (by simp [init])

end Arena

end Queso
