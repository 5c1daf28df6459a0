/-
The lock-step driver of Algorithm 1 refines the TLA+ model `QuePaxaAbstract`.

A round of the driver is a round of the model: the live replicas' draws, with the origin as the tie break, give every
replica its place among `1..N` (`rank`), the three calls of `tcast` are three outcomes, and a replica that crashed goes on
in the model as one that is never heard. What the contract of `tcast` leaves out and the model asks for is that a replica
receives whole inputs: `tcast_whole`.

- `Plays`: what one round computes, from its three calls;
- `Plays.round`: the model takes the same round;
- `lockstep_refines`: every run of the driver in which no replica comes back is a run of the model, with priorities redrawn
  each round, that ends with the same candidates and decisions.
-/
import Queso.Consensus.Slot
import Queso.Spec.Abstract

namespace Queso.Algorithm

open Sim Spec

variable {V : Type} [LinearOrder V]

/-! ## Whole inputs -/

/-- each replica received a union of whole inputs -/
def Whole (live : List NodeId) (inputs : Sets V) (res : TcastResult V) : Prop :=
  ∀ i ∈ live, ∀ S, res.r i = some S →
    ∃ T : Finset NodeId, (∀ j ∈ T, j ∈ live) ∧ S = T.biUnion fun j => (inputs j).getD ∅

section Calls

variable (scheduler : Sim.Envelope (ProposalSet V) → SchedulerCtx → Decision) (rng : ℕ → UInt64)
  {live : List NodeId} {inputs : Sets V} {k k' : Net V} {n : ℕ} {res : TcastResult V}

theorem whole_of_carrying (h : Carrying (Sends live inputs) live k) (b : ProposalSet V) :
    Whole live inputs ⟨fun i => if i ∈ live then some (union k i) else none, b⟩ := by
  intro i hi S hS
  dsimp only at hS
  rw [if_pos hi] at hS
  obtain rfl := Option.some.inj hS
  have hgot : ∀ src ∈ (received k i).keys, src ∈ live ∧ (received k i).lookup src = inputs src := fun src hsrc => by
    obtain ⟨P, hP⟩ := Option.isSome_iff_exists.1 (AList.lookup_isSome.2 hsrc)
    obtain ⟨hlive, hin⟩ := h.mail i hi src P hP
    exact ⟨hlive, hP.trans hin.symm⟩
  refine ⟨(received k i).keys.toFinset, fun j hj => (hgot j (List.mem_toFinset.1 hj)).1, ?_⟩
  exact Finset.biUnion_congr rfl fun j hj => by rw [(hgot j (List.mem_toFinset.1 hj)).2]

/-- **A replica receives whole inputs**: a mailbox holds what its sources sent, and nothing is cut up. -/
theorem tcast_whole (h : Idle live k) (hin : ∀ i ∈ live, (inputs i).isSome)
    (hok : tcast (link scheduler rng) live n inputs k = .ok (res, k')) : Whole live inputs res := by
  unfold tcast at hok
  split at hok
  · cases hok
  · split at hok
    · cases hok
    · split at hok
      · cases hok
      · have hsends : ∀ pair ∈ pairs live, Sends live inputs pair.1 ((inputs pair.1).getD ∅) := fun pair hpair => by
          obtain ⟨P, hP⟩ := Option.isSome_iff_exists.1 (hin pair.1 (mem_pairs.1 hpair).1)
          exact ⟨(mem_pairs.1 hpair).1, by rw [hP]; rfl⟩
        obtain ⟨hcarry, hidle⟩ := seed_spec h hin
        rcases retry_spec scheduler rng MAX_TCAST_RETRIES hcarry hidle hsends (fun _ hpair => hpair)
          (fun _ hpair => .inl hpair) with hfail | ⟨k₁, hk₁, hcarry₁, -⟩
        · rw [hfail] at hok
          cases hok
        · rw [hk₁] at hok
          obtain ⟨rfl, rfl⟩ := Prod.mk.inj (Except.ok.inj hok)
          exact whole_of_carrying hcarry₁ _

end Calls

/-! ## What a round computes -/

/-- a round of the driver, from its calls -/
structure Plays (c c' : Cluster V) (r : Round V) : Prop where
  meets : r.Meets c.replicas.length
  live : r.live = c.live
  whole : Whole c.live r.inputs2 r.call2
  proposes : ∀ i ∈ c.live, ∃ st priority, c.state i = some st ∧ r.p i = some ⟨st.v, priority, i⟩
  settles : ∃ uBest, best r.call3.b = some uBest ∧ c'.state = c.settleAll r uBest
  members : c'.live = c.live ∧ c'.replicas = c.replicas

section Rounds

variable (scheduler : Sim.Envelope (ProposalSet V) → SchedulerCtx → Decision) (rng : ℕ → UInt64)
  {c c' : Cluster V} {r : Round V} {k k' : Net V} {live : List NodeId} {n : ℕ} {p : NodeId → Option (Proposal V)}

theorem disseminate_whole (h : Idle live k) (hlive : live.Nodup) (hmajority : n < 2 * live.length)
    (hp : ∀ i ∈ live, (p i).isSome)
    (hok : Cluster.disseminate (link scheduler rng) live n p k = .ok (r, k')) : Whole live r.inputs2 r.call2 := by
  unfold Cluster.disseminate at hok
  split at hok
  · cases hok
  · next call1 k₁ hcall1 =>
    split at hok
    · cases hok
    · next call2 k₂ hcall2 =>
      split at hok
      · cases hok
      · obtain ⟨rfl, -⟩ := Prod.mk.inj (Except.ok.inj hok)
        rcases tcast_spec scheduler rng h hlive hmajority (fun i hi => Option.isSome_map.trans (hp i hi)) with
          hfail | ⟨res, k₁', hcall, hdel, hidle, -⟩
        · rw [hfail] at hcall1
          cases hcall1
        · rw [hcall] at hcall1
          obtain ⟨rfl, rfl⟩ := Prod.mk.inj (Except.ok.inj hcall1)
          refine tcast_whole scheduler rng hidle (fun i hi => ?_) hcall2
          obtain ⟨S, hS, -⟩ := hdel.majority i hi
          show (res.r i).isSome
          rw [hS]
          rfl

omit [LinearOrder V] in
theorem proposals_eq {i : NodeId} {q : Proposal V} (h : c.proposals k i = some q) :
    ∃ st priority, c.state i = some st ∧ q = ⟨st.v, priority, i⟩ := by
  unfold Cluster.proposals at h
  split at h
  · next st priority hst _ =>
    split_ifs at h
    exact ⟨st, _, hst, (Option.some.inj h).symm⟩
  · cases h

theorem runRound_plays (h : Standing c) (hr : c.runRound (link scheduler rng) = .ok (r, c')) : Plays c c' r := by
  obtain ⟨hidle, -, hdrawn⟩ := drawPriorities_spec scheduler rng h.idle
  rcases runRound_cases scheduler rng h with ⟨-, hfail⟩ | ⟨hmajority, hfail | ⟨r₁, c₁, w, hok, hmeets, hconcludes, -⟩⟩
  · rw [hfail] at hr
    cases hr
  · rw [hfail] at hr
    cases hr
  obtain ⟨rfl, rfl⟩ := Prod.mk.inj (Except.ok.inj (hok.symm.trans hr))
  have hsome : ∀ i ∈ c.live,
      (c.proposals (Cluster.drawPriorities (link scheduler rng) c.live c.kernel) i).isSome := fun i hi =>
    proposals_isSome hi (h.known i hi) (hdrawn i hi)
  unfold Cluster.runRound at hr
  dsimp only at hr
  split at hr
  · cases hr
  · split at hr
    · cases hr
    · next r₀ k₀ hcalls =>
      rcases disseminate_spec scheduler rng hidle.takePriorities h.distinct hmajority hsome with
        hfail | ⟨r', k', hcalls', hlive, hp, -⟩
      · rw [hfail] at hcalls
        cases hcalls
      obtain ⟨rfl, rfl⟩ := Prod.mk.inj (Except.ok.inj (hcalls'.symm.trans hcalls))
      have hwhole := disseminate_whole scheduler rng hidle.takePriorities h.distinct hmajority hsome hcalls
      split at hr
      · cases hr
      · next uBest hbest =>
        split at hr
        · cases hr
        · obtain ⟨rfl, rfl⟩ := Prod.mk.inj (Except.ok.inj hr)
          refine
            { meets := hmeets
              live := hlive
              whole := hwhole
              proposes := fun i hi => ?_
              settles := ⟨uBest, hbest, rfl⟩
              members := ⟨rfl, rfl⟩ }
          obtain ⟨q, hq⟩ := Option.isSome_iff_exists.1 (hsome i hi)
          obtain ⟨st, priority, hst, rfl⟩ := proposals_eq hq
          exact ⟨st, priority, hst, by show r'.p i = _; rw [hp, hq]⟩

end Rounds

/-! ## Priorities as places -/

section Places

variable {members : List NodeId} (priority : NodeId → ℕ)

/-- what the order of proposals compares first -/
def place (i : NodeId) : ℕ ×ₗ ℕ := toLex (priority i, i)

/-- the place of a replica's proposal among all of the round, in `1..N` -/
def rank (members : List NodeId) (i : NodeId) : ℕ :=
  (Finset.univ.filter fun j : {j // j ∈ members} => place priority j ≤ place priority i).card

theorem place_injective : Function.Injective (place priority) := fun i j h => by
  simp only [place, toLex_inj, Prod.mk.injEq] at h
  exact h.2

theorem rank_mono {i j : NodeId} (h : place priority i ≤ place priority j) :
    rank priority members i ≤ rank priority members j :=
  Finset.card_le_card fun x hx => by
    rw [Finset.mem_filter] at hx ⊢
    exact ⟨hx.1, hx.2.trans h⟩

theorem rank_lt {i j : NodeId} (hj : j ∈ members) (h : place priority i < place priority j) :
    rank priority members i < rank priority members j := by
  refine Finset.card_lt_card ((Finset.ssubset_iff_of_subset fun x hx => ?_).2 ⟨⟨j, hj⟩, by simp, ?_⟩)
  · rw [Finset.mem_filter] at hx ⊢
    exact ⟨hx.1, hx.2.trans h.le⟩
  · simpa using h

theorem rank_injective {i j : NodeId} (hi : i ∈ members) (hj : j ∈ members)
    (h : rank priority members i = rank priority members j) : i = j := by
  rcases lt_trichotomy (place priority i) (place priority j) with hlt | heq | hlt
  · exact absurd h (rank_lt priority hj hlt).ne
  · exact place_injective priority heq
  · exact absurd h.symm (rank_lt priority hi hlt).ne

/-- the places of the replicas are an assignment of priorities of the model -/
theorem rank_injection : Abstract.Injection fun i : {i // i ∈ members} => rank priority members i where
  range := fun i => ⟨Finset.card_pos.2 ⟨i, by simp⟩, Finset.card_le_univ _⟩
  inj := fun i j h => Subtype.ext (rank_injective priority i.2 j.2 h)

end Places

/-! ## Proposals of a round, in the model -/

section Round

variable {c c' : Cluster V} {r : Round V}

/-- the priority a replica drew -/
def Round.priority (r : Round V) (i : NodeId) : ℕ := ((r.p i).map (·.priority)).getD 0

/-- a proposal of the round in the model -/
def Round.ranked (r : Round V) (members : List NodeId) (q : Proposal V) : Abstract.Proposal V :=
  ⟨q.value, rank r.priority members q.origin⟩

/-- some live replica proposed it in this round -/
def Round.Offered (r : Round V) (q : Proposal V) : Prop := ∃ i ∈ r.live, r.p i = some q

theorem Plays.origin (h : Plays c c' r) {i : NodeId} (hi : i ∈ r.live) {q : Proposal V} (hq : r.p i = some q) :
    q.origin = i ∧ r.priority i = q.priority := by
  obtain ⟨st, priority, -, hp⟩ := h.proposes i (h.live ▸ hi)
  rw [hp] at hq
  obtain rfl := Option.some.inj hq
  exact ⟨rfl, by unfold Round.priority; rw [hp]; rfl⟩

/-- the places of the round order its proposals as the code does -/
theorem Plays.ranked_mono (h : Plays c c' r) {q q' : Proposal V} (hq : r.Offered q) (hq' : r.Offered q') (hle : q ≤ q')
    (members : List NodeId) : (r.ranked members q).pri ≤ (r.ranked members q').pri := by
  obtain ⟨i, hi, hp⟩ := hq
  obtain ⟨i', hi', hp'⟩ := hq'
  obtain ⟨rfl, hprio⟩ := h.origin hi hp
  obtain ⟨rfl, hprio'⟩ := h.origin hi' hp'
  refine rank_mono _ ?_
  unfold place
  rw [hprio, hprio']
  rw [Prod.Lex.toLex_le_toLex]
  rcases Proposal.le_iff.1 hle with hlt | ⟨heq, hlt | ⟨horigin, -⟩⟩
  · exact .inl hlt
  · exact .inr ⟨heq, hlt.le⟩
  · exact .inr ⟨heq, horigin.le⟩

theorem Plays.ranked_inj (h : Plays c c' r) {members : List NodeId} (hmem : ∀ i ∈ r.live, i ∈ members)
    {q q' : Proposal V} (hq : r.Offered q) (hq' : r.Offered q') (heq : r.ranked members q = r.ranked members q') :
    q = q' := by
  obtain ⟨i, hi, hp⟩ := hq
  obtain ⟨i', hi', hp'⟩ := hq'
  obtain ⟨rfl, -⟩ := h.origin hi hp
  obtain ⟨rfl, -⟩ := h.origin hi' hp'
  have horigin := rank_injective _ (hmem _ hi) (hmem _ hi') (congrArg (·.pri) heq)
  rw [horigin, hp'] at hp
  exact (Option.some.inj hp).symm

theorem Plays.first_offered (h : Plays c c' r) {i : NodeId} (hi : i ∈ r.live) {S : ProposalSet V}
    (hS : r.call1.r i = some S) {q : Proposal V} (hq : q ∈ S) : r.Offered q := by
  obtain ⟨j, hj, P, hP, hmem⟩ := h.meets.first.genuine i hi S hS q hq
  obtain ⟨q', hq', rfl⟩ := Option.map_eq_some_iff.1 hP
  exact ⟨j, hj, by rw [hq', Finset.mem_singleton.1 hmem]⟩

theorem Plays.second_offered (h : Plays c c' r) {i : NodeId} (hi : i ∈ r.live) {S : ProposalSet V}
    (hS : r.call2.r i = some S) {q : Proposal V} (hq : q ∈ S) : r.Offered q := by
  obtain ⟨j, hj, P, hP, hmem⟩ := h.meets.second.genuine i hi S hS q hq
  exact h.first_offered hj hP hmem

theorem Plays.shared_offered (h : Plays c c' r) {q : Proposal V} (hq : q ∈ r.call2.b) : r.Offered q := by
  obtain ⟨j, hj, hB, -⟩ := h.meets.second.universal
  exact h.first_offered hj hB hq

/-- a set of the round in the model -/
def Round.inModel (r : Round V) (members : List NodeId) (S : ProposalSet V) : Finset (Abstract.Proposal V) :=
  S.image (r.ranked members)

/-- what a replica receives in the first call; one that is not live, what is shared in the second -/
def Round.first (r : Round V) (i : NodeId) : ProposalSet V := if i ∈ r.live then (r.call1.r i).getD ∅ else r.call2.b

/-- what a replica receives in the second call; one that is not live, everything -/
def Round.second (r : Round V) (i : NodeId) : ProposalSet V :=
  if i ∈ r.live then (r.call2.r i).getD ∅ else r.live.toFinset.biUnion fun j => (r.call1.r j).getD ∅

omit [LinearOrder V] in
theorem Round.first_live {i : NodeId} (hi : i ∈ r.live) : r.first i = (r.call1.r i).getD ∅ := if_pos hi

theorem Round.second_live {i : NodeId} (hi : i ∈ r.live) : r.second i = (r.call2.r i).getD ∅ := if_pos hi

/-- the first call as the model has it: what a majority proposed, and one proposal that everybody received -/
theorem Plays.first_spec (h : Plays c c' r) (i : NodeId) :
    (∀ q ∈ r.first i, r.Offered q) ∧
      ∃ S : Finset NodeId, c.replicas.length < 2 * S.card ∧ ∀ j ∈ S, j ∈ r.live ∧ ∃ q, r.p j = some q ∧ q ∈ r.first i := by
  have hset : ∃ k ∈ r.live, r.call1.r k = some (r.first i) := by
    by_cases hi : i ∈ r.live
    · obtain ⟨S, hS, -⟩ := h.meets.first.majority i hi
      exact ⟨i, hi, by rw [Round.first_live hi, hS]; rfl⟩
    · obtain ⟨j, hj, hB, -⟩ := h.meets.second.universal
      exact ⟨j, hj, by rw [Round.first, if_neg hi]; exact hB⟩
  obtain ⟨k, hk, hset⟩ := hset
  refine ⟨fun q hq => h.first_offered hk hset hq, ?_⟩
  obtain ⟨P, hP, S, hcard, hS⟩ := h.meets.first.majority k hk
  obtain rfl := Option.some.inj (hset.symm.trans hP)
  refine ⟨S, hcard, fun j hj => ?_⟩
  obtain ⟨hlive, Q, hQ, hsub⟩ := hS j hj
  obtain ⟨q, hq, rfl⟩ := Option.map_eq_some_iff.1 hQ
  exact ⟨hlive, q, hq, hsub (Finset.mem_singleton_self q)⟩

/-- one proposal is in everything received in the first call -/
theorem Plays.first_universal (h : Plays c c' r) : ∃ j ∈ r.live, ∃ q, r.p j = some q ∧ ∀ i, q ∈ r.first i := by
  obtain ⟨j, hj, hB, hall⟩ := h.meets.first.universal
  obtain ⟨q, hq, hqB⟩ := Option.map_eq_some_iff.1 hB
  have hin : ∀ k ∈ r.live, ∀ S, r.call1.r k = some S → q ∈ S := fun k hk S hS =>
    hall k hk S hS (hqB ▸ Finset.mem_singleton_self q)
  refine ⟨j, hj, q, hq, fun i => ?_⟩
  by_cases hi : i ∈ r.live
  · obtain ⟨S, hS, -⟩ := h.meets.first.majority i hi
    rw [Round.first_live hi, hS]
    exact hin i hi S hS
  · obtain ⟨k, hk, hkB, -⟩ := h.meets.second.universal
    rw [Round.first, if_neg hi]
    exact hin k hk _ hkB

/-- the second call as the model has it: the whole inputs of some live replicas, a majority among them -/
theorem Plays.second_spec (h : Plays c c' r) (hlive : c.live.Nodup) (i : NodeId) :
    ∃ T S : Finset NodeId, (∀ j ∈ T, j ∈ r.live) ∧ (∀ j ∈ S, j ∈ r.live) ∧ c.replicas.length < 2 * S.card ∧
      r.second i = T.biUnion r.first ∧ ∀ j ∈ S, r.first j ⊆ r.second i := by
  by_cases hi : i ∈ r.live
  · obtain ⟨E, hE, S, hcard, hS⟩ := h.meets.second.majority i hi
    obtain ⟨T, hT, heq⟩ := h.whole i (h.live ▸ hi) E hE
    rw [← h.live] at hT
    refine ⟨T, S, hT, fun j hj => (hS j hj).1, hcard, ?_, fun j hj => ?_⟩
    · rw [Round.second_live hi, hE]
      exact heq.trans (Finset.biUnion_congr rfl fun j hj => (Round.first_live (hT j hj)).symm)
    · obtain ⟨hj, P, hP, hsub⟩ := hS j hj
      have hP' : r.call1.r j = some P := hP
      rw [Round.second_live hi, hE, Round.first_live hj, hP']
      exact hsub
  · have heq : r.second i = r.live.toFinset.biUnion r.first := by
      rw [Round.second, if_neg hi]
      exact Finset.biUnion_congr rfl fun j hj => (Round.first_live (List.mem_toFinset.1 hj)).symm
    have hcard : c.replicas.length < 2 * r.live.toFinset.card := by
      rw [List.toFinset_card_of_nodup (h.live ▸ hlive)]
      exact h.meets.majority
    refine ⟨r.live.toFinset, r.live.toFinset, fun j => List.mem_toFinset.1, fun j => List.mem_toFinset.1, hcard, heq,
      fun j hj => ?_⟩
    rw [heq]
    exact Finset.subset_biUnion_of_mem r.first hj

/-- what the second call shares is the input of one replica and in everything received -/
theorem Plays.second_universal (h : Plays c c' r) :
    (∃ j ∈ r.live, r.first j = r.call2.b) ∧ ∀ i, r.call2.b ⊆ r.second i := by
  obtain ⟨j, hj, hB, hall⟩ := h.meets.second.universal
  have hfirst : r.first j = r.call2.b := by
    have hB' : r.call1.r j = some r.call2.b := hB
    rw [Round.first_live hj, hB']
    rfl
  refine ⟨⟨j, hj, hfirst⟩, fun i => ?_⟩
  by_cases hi : i ∈ r.live
  · obtain ⟨E, hE, -⟩ := h.meets.second.majority i hi
    rw [Round.second_live hi, hE]
    exact hall i hi E hE
  · rw [Round.second, if_neg hi, ← hfirst, Round.first_live hj]
    exact Finset.subset_biUnion_of_mem (fun j => (r.call1.r j).getD ∅) (List.mem_toFinset.2 hj)

end Round

/-! ## The simulation -/

section Simulation

variable {members : List NodeId} {c c' : Cluster V} {r : Round V} {a : Abstract.State {i // i ∈ members} V} {M : ℕ}

theorem majority_of {S : Finset NodeId} (hS : ∀ j ∈ S, j ∈ members) (hcard : members.length < 2 * S.card)
    {Z : Finset {i // i ∈ members}} (hZ : ∀ j : {i // i ∈ members}, j.1 ∈ S → j ∈ Z) : Abstract.Majority Z := by
  have hle : Fintype.card {i // i ∈ members} ≤ members.length := by
    rw [Fintype.card_of_subtype members.toFinset fun x => List.mem_toFinset]
    exact List.toFinset_card_le members
  have hsub : S ⊆ Z.image Subtype.val := fun j hj => Finset.mem_image.2 ⟨⟨j, hS j hj⟩, hZ _ hj, rfl⟩
  have := (Finset.card_le_card hsub).trans Finset.card_image_le
  unfold Abstract.Majority
  omega

/-- between two rounds the model holds the candidates and the decisions of the live replicas, and every decision -/
structure Matches (members : List NodeId) (c : Cluster V) (a : Abstract.State {i // i ∈ members} V) : Prop where
  phase : a.phase = 1
  replicas : c.replicas = members
  live : ∀ i ∈ c.live, i ∈ members
  held : ∀ i : {i // i ∈ members}, i.1 ∈ c.live →
    ∃ st, c.state i = some st ∧ st.v = a.v i ∧ st.decided = a.decided i
  kept : ∀ i : {i // i ∈ members}, ∀ w, c.decided i = some w → a.decided i = some w

/-- the model with the places of the round as its priorities -/
def Round.drawn (r : Round V) (a : Abstract.State {i // i ∈ members} V) : Abstract.State {i // i ∈ members} V :=
  { a with pri := fun i => rank r.priority members i }

theorem Matches.prop_live (h : Matches members c a) (hr : Plays c c' r) {i : {i // i ∈ members}} (hi : i.1 ∈ r.live)
    {q : Proposal V} (hq : r.p i = some q) : (r.drawn a).prop i = r.ranked members q := by
  obtain ⟨st, hst, hv, -⟩ := h.held i (hr.live ▸ hi)
  obtain ⟨st', priority, hst', hp⟩ := hr.proposes i (hr.live ▸ hi)
  obtain rfl := Option.some.inj (hst'.symm.trans hst)
  obtain rfl := Option.some.inj (hp.symm.trans hq)
  show (⟨a.v i, _⟩ : Abstract.Proposal V) = ⟨st'.v, _⟩
  rw [hv]
  rfl

theorem Matches.mem_live (h : Matches members c a) (hr : Plays c c' r) {i : NodeId} (hi : i ∈ r.live) : i ∈ members :=
  h.live i (hr.live ▸ hi)

theorem Matches.offers (h : Matches members c a) (hr : Plays c c' r) {S : ProposalSet V}
    (hS : ∀ q ∈ S, r.Offered q) : r.inModel members S ⊆ (r.drawn a).offers := by
  intro x hx
  obtain ⟨q, hq, rfl⟩ := Finset.mem_image.1 hx
  obtain ⟨i, hi, hp⟩ := hS q hq
  exact Finset.mem_image.2 ⟨⟨i, h.mem_live hr hi⟩, Finset.mem_univ _, h.prop_live hr hi hp⟩

theorem best_le {S : ProposalSet V} {q : Proposal V} (h : best S = some q) : ∀ x ∈ S, x ≤ q := by
  unfold best at h
  split_ifs at h
  obtain rfl := Option.some.inj h
  exact fun x hx => Finset.le_max' S x hx

variable [Nonempty V]

/-- **The best of a set is the best of it in the model.** -/
theorem Matches.best (h : Matches members c a) (hr : Plays c c' r) {S : ProposalSet V} (hS : ∀ q ∈ S, r.Offered q)
    {q : Proposal V} (hq : best S = some q) : Abstract.Best (r.inModel members S) = r.ranked members q := by
  have hmem := best_mem hq
  refine Abstract.best_eq (s := r.drawn a) (rank_injection _) (h.offers hr hS) (Finset.mem_image_of_mem _ hmem) ?_
  intro x hx
  obtain ⟨y, hy, rfl⟩ := Finset.mem_image.1 hx
  exact hr.ranked_mono (hS y hy) (hS q hmem) (best_le hq y hy) members

omit [Nonempty V] in
/-- the model's first tcast of the round -/
theorem Matches.phase1 (h : Matches members c a) (hr : Plays c c' r) (hround : a.round ≤ M) :
    Abstract.Phase1 M (r.drawn a)
      { r.drawn a with P := fun i => r.inModel members (r.first i), phase := 2 } := by
  obtain ⟨j, hj, q, hq, hall⟩ := hr.first_universal
  have hprop := h.prop_live hr (i := ⟨j, h.mem_live hr hj⟩) hj hq
  refine ⟨h.phase, hround, fun i => r.inModel members (r.first i), (r.drawn a).In1 ⟨j, h.mem_live hr hj⟩, ⟨_, rfl⟩,
    fun i => ?_, ?_⟩
  · -- the replicas whose proposals the set holds are a majority
    obtain ⟨hoff, S, hcard, hS⟩ := hr.first_spec i
    refine ⟨Finset.univ.filter fun k => (r.drawn a).prop k ∈ r.inModel members (r.first i), ?_, ?_⟩
    · refine majority_of (S := S) (fun k hk => h.mem_live hr (hS k hk).1) (h.replicas ▸ hcard) fun k hk => ?_
      obtain ⟨hk, q, hq, hmem⟩ := hS k.1 hk
      refine Finset.mem_filter.2 ⟨Finset.mem_univ k, ?_⟩
      rw [h.prop_live hr hk hq]
      exact Finset.mem_image_of_mem _ hmem
    · ext x
      simp only [Finset.mem_biUnion, Finset.mem_filter, Finset.mem_univ, true_and, Abstract.State.In1,
        Finset.mem_singleton]
      constructor
      · intro hx
        obtain ⟨k, -, rfl⟩ := Finset.mem_image.1 (h.offers hr hoff hx)
        exact ⟨k, hx, rfl⟩
      · rintro ⟨k, hk, rfl⟩
        exact hk
  · refine congrArg (fun P => { r.drawn a with P := P, phase := 2 }) (funext fun i => ?_)
    refine (Finset.union_eq_left.2 (Finset.singleton_subset_iff.2 ?_)).symm
    rw [hprop]
    exact Finset.mem_image_of_mem _ (hall i)

omit [Nonempty V] in
/-- the second call is an outcome of the model -/
theorem Matches.outcome2 (h : Matches members c a) (hr : Plays c c' r) (hlive : c.live.Nodup) :
    Abstract.Outcome (R := {i // i ∈ members}) (fun i => r.inModel members (r.first i))
      (fun i => r.inModel members (r.second i)) fun _ => r.inModel members r.call2.b := by
  refine Abstract.outcome_iff.2 ⟨fun i => ?_, fun i => ?_⟩
  · obtain ⟨T, S, hT, hS, hcard, heq, hsub⟩ := hr.second_spec hlive i
    refine ⟨Finset.univ.filter fun k => k.1 ∈ T, Finset.univ.filter fun k => k.1 ∈ S,
      majority_of (fun j hj => h.mem_live hr (hS j hj)) (h.replicas ▸ hcard) fun j hj =>
        Finset.mem_filter.2 ⟨Finset.mem_univ j, hj⟩, ?_, fun k hk => ?_⟩
    · rw [heq]
      ext x
      simp only [Round.inModel, Finset.mem_image, Finset.mem_biUnion, Finset.mem_filter, Finset.mem_univ, true_and]
      constructor
      · rintro ⟨q, ⟨j, hj, hq⟩, rfl⟩
        exact ⟨⟨j, h.mem_live hr (hT j hj)⟩, hj, q, hq, rfl⟩
      · rintro ⟨j, hj, q, hq, rfl⟩
        exact ⟨q, ⟨j.1, hj, hq⟩, rfl⟩
    · exact Finset.image_subset_image (hsub k.1 (Finset.mem_filter.1 hk).2)
  · obtain ⟨⟨j, hj, heq⟩, hall⟩ := hr.second_universal
    refine ⟨⟨j, h.mem_live hr hj⟩, by rw [heq], fun k => ?_⟩
    rw [heq]
    exact Finset.image_subset_image (hall k.1)

/-- the model after the round -/
noncomputable def Round.played (r : Round V) (a : Abstract.State {i // i ∈ members} V) :
    Abstract.State {i // i ∈ members} V :=
  Abstract.settled
    { r.drawn a with
      P := fun _ => ∅
      E := fun i => r.inModel members (r.second i)
      PP := fun _ => r.inModel members r.call2.b
      phase := 3 }
    (fun _ => r.inModel members r.call2.b) fun _ => r.inModel members r.call2.b

/-- **The model takes the same round.** -/
theorem Matches.steps (h : Matches members c a) (hr : Plays c c' r) (hlive : c.live.Nodup) (hround : a.round ≤ M) :
    Relation.ReflTransGen (Abstract.Step M) a (r.played a) := by
  have hdraw : Abstract.Step M a (r.drawn a) := .inr ⟨h.phase, _, rank_injection r.priority, rfl⟩
  have hne : Nonempty {i // i ∈ members} := by
    obtain ⟨j, hj, -⟩ := hr.first_universal
    exact ⟨⟨j, h.mem_live hr hj⟩⟩
  refine (((Relation.ReflTransGen.single hdraw).tail (.inl (.inl (h.phase1 hr hround)))).tail
    (.inl (.inr (.inl ⟨rfl, _, _, h.outcome2 hr hlive, rfl⟩)))).tail (.inl (.inr (.inr (.inl ⟨rfl, _, _, ?_, rfl⟩))))
  exact Abstract.outcome_const _

theorem Round.played_decided {i : {i // i ∈ members}} : (r.played a).decided i =
    if a.decided i ≠ none then a.decided i
    else if Abstract.Best (r.inModel members (r.second i)) = Abstract.Best (r.inModel members r.call2.b)
      then some (Abstract.Best (r.inModel members r.call2.b)).val else none := rfl

/-- a live replica decides in the round when it does in the model -/
theorem Matches.decides (h : Matches members c a) (hr : Plays c c' r) {uBest : Proposal V}
    (hbest : Algorithm.best r.call2.b = some uBest) {i : {i // i ∈ members}} (hi : i.1 ∈ r.live) :
    bestAt r.call2.r i = some uBest ↔
      Abstract.Best (r.inModel members (r.second i)) = Abstract.Best (r.inModel members r.call2.b) := by
  obtain ⟨E, hE, -⟩ := hr.meets.second.majority i hi
  have hoff : ∀ q ∈ E, r.Offered q := fun q hq => hr.second_offered hi hE hq
  have hsecond : r.second i = E := by rw [Round.second_live hi, hE]; rfl
  obtain ⟨eBest, heBest⟩ := Option.isSome_iff_exists.1 (bestAt_isSome hr.meets hi).2
  have hEbest : Algorithm.best E = some eBest := by
    unfold bestAt at heBest
    rw [hE] at heBest
    exact heBest
  rw [heBest, hsecond, h.best hr hoff hEbest, h.best hr (fun _ => hr.shared_offered) hbest, Option.some_inj]
  constructor
  · rintro rfl
    rfl
  · exact hr.ranked_inj (fun j hj => h.mem_live hr hj) (hoff _ (best_mem hEbest)) (hr.shared_offered (best_mem hbest))

theorem Matches.round (h : Matches members c a) (hr : Plays c c' r) : Matches members c' (r.played a) := by
  obtain ⟨uBest, hbest, hstate⟩ := hr.settles
  have hshared : Algorithm.best r.call2.b = some uBest := by rw [← hr.meets.universal_eq]; exact hbest
  have hvalue := h.best hr (fun _ => hr.shared_offered) hshared
  have hheld : ∀ i : {i // i ∈ members}, i.1 ∈ c'.live →
      ∃ st, c'.state i = some st ∧ st.v = (r.played a).v i ∧ st.decided = (r.played a).decided i := by
    intro i hi
    rw [hr.members.1] at hi
    obtain ⟨st, hst, -, hdec⟩ := h.held i hi
    obtain ⟨st', hst', hv', hdec'⟩ := settleAll_spec hr.meets hr.live hbest hi hst
    refine ⟨st', by rw [hstate, hst'], hv'.trans ?_, ?_⟩
    · show _ = (Abstract.Best (r.inModel members r.call2.b)).val
      rw [hvalue]
      rfl
    · have hiff := h.decides hr hshared (i := i) (hr.live.symm ▸ hi)
      have hnow : i.1 ∈ c.live.filter (c.decidesNow r uBest) ↔
          st.decided = none ∧ bestAt r.call2.r i = some uBest := by
        simp [Cluster.decidesNow, decided_of hst, hi]
      rw [Round.played_decided, hvalue, ← hdec]
      rcases hdec' with ⟨hnot, hsame⟩ | ⟨hmem, hnone, hsome⟩
      · rw [hsame]
        by_cases hnone : st.decided = none
        · rw [if_neg (by simp [hnone]), if_neg, hnone]
          rw [← hvalue, ← hiff]
          exact fun hb => hnot (hnow.2 ⟨hnone, hb⟩)
        · rw [if_pos hnone]
      · rw [if_neg (by simp [hnone]), if_pos, hsome]
        · rfl
        · rw [← hvalue, ← hiff]
          exact (hnow.1 hmem).2
  refine
    { phase := rfl
      replicas := hr.members.2.trans h.replicas
      live := fun i hi => h.live i (hr.members.1 ▸ hi)
      held := hheld
      kept := fun i w hw => ?_ }
  by_cases hi : i.1 ∈ c'.live
  · obtain ⟨st, hst, -, hdec⟩ := hheld i hi
    rw [decided_of hst] at hw
    exact hdec.symm.trans hw
  · -- one that is not live keeps what it decided
    have hsame : c'.state i = c.state i := by
      rw [hstate]
      exact if_neg (hr.members.1 ▸ hi)
    have hold : a.decided i = some w := h.kept i w (by unfold Cluster.decided at hw ⊢; rwa [hsame] at hw)
    rw [Round.played_decided, hold]
    rfl

omit [LinearOrder V] [Nonempty V] in
/-- the model knows no faults -/
theorem Matches.faulted (h : Matches members c a) (hf : Faulted (fun _ => False) c c') : Matches members c' a where
  phase := h.phase
  replicas := hf.replicas.trans h.replicas
  live := fun i hi => h.live i ((hf.live i hi).resolve_right id)
  held := fun i hi => by rw [hf.state]; exact h.held i ((hf.live i hi).resolve_right id)
  kept := fun i w hw => h.kept i w (by rw [← hf.decided]; exact hw)

/-- from `a` the model runs as many rounds and ends with what `c'` holds -/
def Simulated (M : ℕ) (a : Abstract.State {i // i ∈ members} V) (rounds : ℕ) (c' : Cluster V) : Prop :=
  ∃ a' : Abstract.State {i // i ∈ members} V, Relation.ReflTransGen (Abstract.Step M) a a' ∧
    a'.round = a.round + rounds ∧ a'.inp = a.inp ∧ Matches members c' a'

theorem Simulated.stutter (h : Matches members c a) (hf : Faulted (fun _ => False) c c') : Simulated M a 0 c' :=
  ⟨a, .refl, rfl, rfl, h.faulted hf⟩

omit [LinearOrder V] [Nonempty V] in
theorem faulted_refl (c : Cluster V) : Faulted (fun _ => False) c c := ⟨rfl, rfl, fun _ hi => .inl hi⟩

variable (scheduler : Sim.Envelope (ProposalSet V) → SchedulerCtx → Decision) (rng : ℕ → UInt64) {rs : List (Round V)}

theorem runRound_simulated (h : Matches members c a) (hs : Standing c) (hround : a.round ≤ M)
    (hr : c.runRound (link scheduler rng) = .ok (r, c')) : Simulated M a 1 c' := by
  have hplays := runRound_plays scheduler rng hs hr
  exact ⟨r.played a, h.steps hplays hs.distinct hround, rfl, rfl, h.round hplays⟩

theorem runSlot_simulated (maxRounds : ℕ) (h : Matches members c a) (hs : Standing c)
    (hround : a.round + rs.length ≤ M + 1) (hr : c.runSlot (link scheduler rng) maxRounds = .ok (rs, c')) :
    Simulated M a rs.length c' := by
  induction maxRounds generalizing c rs a with
  | zero =>
    obtain ⟨rfl, rfl⟩ := Prod.mk.inj (Except.ok.inj hr)
    exact .stutter h (faulted_refl c)
  | succ maxRounds ih =>
    unfold Cluster.runSlot at hr
    split_ifs at hr
    · obtain ⟨rfl, rfl⟩ := Prod.mk.inj (Except.ok.inj hr)
      exact .stutter h (faulted_refl c)
    · split at hr
      · cases hr
      · next r c₁ hfirst =>
        split at hr
        · cases hr
        · next rs' c₂ hrest =>
          obtain ⟨rfl, rfl⟩ := Prod.mk.inj (Except.ok.inj hr)
          rw [List.length_cons] at hround ⊢
          obtain ⟨a₁, hrun, hcount, hinp, hm⟩ := runRound_simulated (M := M) scheduler rng h hs (by omega) hfirst
          obtain ⟨-, hstanding⟩ := runRound_trail scheduler rng (fun _ => False) hs hfirst
          obtain ⟨a₂, hrun', hcount', hinp', hm'⟩ := ih hm hstanding (by omega) hrest
          exact ⟨a₂, hrun.trans hrun', by omega, hinp'.trans hinp, hm'⟩

theorem step_simulated {op : ClusterOp} (h : Matches members c a) (hs : Standing c) (hback : ∀ id, op ≠ .restart id)
    (hround : a.round + rs.length ≤ M + 1) (hr : c.step (link scheduler rng) op = .ok (rs, c')) :
    Simulated M a rs.length c' := by
  cases op with
  | crash id =>
    obtain ⟨rfl, rfl⟩ := Prod.mk.inj (Except.ok.inj hr)
    exact .stutter h (crash_faulted _ id c)
  | restart id => exact absurd rfl (hback id)
  | partition groupA groupB =>
    obtain ⟨rfl, rfl⟩ := Prod.mk.inj (Except.ok.inj hr)
    exact .stutter h ⟨rfl, rfl, fun _ hi => .inl hi⟩
  | heal =>
    obtain ⟨rfl, rfl⟩ := Prod.mk.inj (Except.ok.inj hr)
    exact .stutter h ⟨rfl, rfl, fun _ hi => .inl hi⟩
  | runRound =>
    unfold Cluster.step at hr
    dsimp only at hr
    split at hr
    · cases hr
    · next r c₁ hfirst =>
      obtain ⟨rfl, rfl⟩ := Prod.mk.inj (Except.ok.inj hr)
      have hle : a.round + 1 ≤ M + 1 := hround
      exact runRound_simulated scheduler rng h hs (by omega) hfirst
  | runSlot maxRounds => exact runSlot_simulated scheduler rng maxRounds h hs hround hr

theorem drive_simulated {ops : List ClusterOp} (h : Matches members c a) (hs : Standing c)
    (hback : ∀ id, .restart id ∉ ops) (hround : a.round + rs.length ≤ M + 1)
    (hr : c.drive (link scheduler rng) ops = .ok (rs, c')) : Simulated M a rs.length c' := by
  induction ops generalizing c rs a with
  | nil =>
    obtain ⟨rfl, rfl⟩ := Prod.mk.inj (Except.ok.inj hr)
    exact .stutter h (faulted_refl c)
  | cons op ops ih =>
    unfold Cluster.drive at hr
    split at hr
    · cases hr
    · next rs₁ c₁ hfirst =>
      split at hr
      · cases hr
      · next rs₂ c₂ hrest =>
        obtain ⟨rfl, rfl⟩ := Prod.mk.inj (Except.ok.inj hr)
        rw [List.length_append] at hround ⊢
        have hnot : ∀ id, op ≠ .restart id := fun id heq => hback id (heq ▸ List.mem_cons_self)
        obtain ⟨a₁, hrun, hcount, hinp, hm⟩ := step_simulated (M := M) scheduler rng h hs hnot (by omega) hfirst
        obtain ⟨-, hstanding⟩ : Trail (fun _ => False) c rs₁ c₁ ∧ Standing c₁ := step_trail scheduler rng hs
          (fun i hi => absurd hi (hnot i)) hfirst
        obtain ⟨a₂, hrun', hcount', hinp', hm'⟩ :=
          ih hm hstanding (fun id hid => hback id (List.mem_cons_of_mem _ hid)) (by omega) hrest
        exact ⟨a₂, hrun.trans hrun', by omega, hinp'.trans hinp, hm'⟩

omit [LinearOrder V] [Nonempty V] in
/-- a new cluster, in the model -/
theorem matches_new (initialValues : AList fun _ : NodeId => V) :
    ∃ a : Abstract.State {i // i ∈ (Cluster.new initialValues).replicas} V, Abstract.Init a ∧
      (∀ i : {i // i ∈ (Cluster.new initialValues).replicas}, initialValues.lookup i.1 = some (a.inp i)) ∧ Matches _ (Cluster.new initialValues) a := by
  have hknown : ∀ i : {i // i ∈ (Cluster.new initialValues).replicas}, ∃ v, initialValues.lookup i.1 = some v := fun i =>
    Option.isSome_iff_exists.1 (AList.lookup_isSome.2 ((List.mem_insertionSort _).1 i.2))
  choose v hv using hknown
  refine ⟨⟨fun i => rank (fun _ => 0) _ i, v, v, fun _ => none, 1, 1, fun _ => ∅, fun _ => ∅, fun _ => ∅⟩,
    ⟨rank_injection _, rfl, rfl, rfl, rfl, rfl, rfl, rfl⟩, hv, ?_⟩
  refine
    { phase := rfl
      replicas := rfl
      live := fun i hi => hi
      held := fun i _ => ⟨⟨v i, none, 0⟩, ?_, rfl, rfl⟩
      kept := fun i w hw => by rw [decided_new] at hw; cases hw }
  show (initialValues.lookup i.1).map _ = _
  rw [hv i]
  rfl

/-- **The lock-step driver refines the TLA+ model.** Every run in which no replica comes back is, round for round, a run of
the model with priorities redrawn: it starts from the same values and ends with the same candidate and decision at each
live replica, and with every decision of one that crashed. -/
theorem lockstep_refines (initialValues : AList fun _ : NodeId => V) (ops : List ClusterOp)
    (hback : ∀ id, .restart id ∉ ops) {rs : List (Round V)} {c : Cluster V}
    (hr : (Cluster.new initialValues).drive (link scheduler rng) ops = .ok (rs, c)) :
    ∃ a : Abstract.State {i // i ∈ (Cluster.new initialValues).replicas} V,
      Abstract.ReachableRedrawn rs.length a ∧ a.round = rs.length + 1 ∧
        (∀ i : {i // i ∈ (Cluster.new initialValues).replicas}, initialValues.lookup i.1 = some (a.inp i)) ∧ Matches _ c a := by
  obtain ⟨a₀, hinit, hinp, hm⟩ := matches_new initialValues
  have hround : a₀.round = 1 := by
    obtain ⟨-, -, -, hround, -⟩ := hinit
    exact hround
  obtain ⟨a, hrun, hcount, hinp', hm'⟩ := drive_simulated (M := rs.length) scheduler rng hm (standing_new initialValues)
    hback (by omega) hr
  exact ⟨a, ⟨a₀, hinit, hrun⟩, by omega, fun i => by rw [hinp']; exact hinp i, hm'⟩

/-- three replicas that prefer different values -/
def threeValues : AList fun _ : NodeId => ℕ := ((∅ : AList fun _ : NodeId => ℕ).insert 0 10).insert 1 11 |>.insert 2 12

/-- three replicas, one of which crashes after the first round, and a second round: the model has both rounds -/
theorem lockstep_refines_crash :
    ∃ rs c, (Cluster.new threeValues).drive
      (link (fun e _ => if e.info.src = 2 ∧ e.info.id < 20 then .drop else .deliver (1 + e.info.id % 5)) UInt64.ofNat)
      [.runRound, .crash 1, .runSlot 4] = .ok (rs, c) ∧ rs.length = 2 ∧
      ∃ a : Abstract.State {i // i ∈ (Cluster.new threeValues).replicas} ℕ,
        Abstract.ReachableRedrawn 2 a ∧ a.round = 3 ∧ Matches _ c a := by
  have hrun : (match (Cluster.new threeValues).drive
      (link (fun e _ => if e.info.src = 2 ∧ e.info.id < 20 then .drop else .deliver (1 + e.info.id % 5)) UInt64.ofNat)
      [.runRound, .crash 1, .runSlot 4] with
      | .error _ => false
      | .ok (rs, _) => decide (rs.length = 2)) = true := by
    decide +kernel
  split at hrun
  · cases hrun
  · next rs c hok =>
    have hlen := of_decide_eq_true hrun
    obtain ⟨a, hreach, hround, -, hm⟩ := lockstep_refines _ _ _ _ (by simp) hok
    rw [hlen] at hreach hround
    exact ⟨rs, c, hok, hlen, a, hreach, hround, hm⟩

end Simulation

end Queso.Algorithm
