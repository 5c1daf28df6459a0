/-
The TLA+ model `QuePaxaAbstract`: Algorithm 1 in lock step, one action for each of the three tcasts of a round.

The sets of replicas and values, the number of rounds and all choices are arbitrary here, where TLC takes 3 replicas, 2
values and 2 rounds. `Redraw` is not an action of the TLA+ model: it gives the replicas other priorities between two
rounds, as the algorithm does each round and the model does not.

Results:
- `outcome_iff`: the choices of a tcast yield exactly the outcomes the two guarantees (G1) and (G2) permit;
- `Outcome.crux`, `best_pivot`: `U_i ⊆ C_j ⊆ E_i`, and `best(E_i) = best(U_i)` fixes `best` of every set between;
- `inv_step`: what every action keeps, redrawn priorities included;
- `spec_safe`: in every state reached, with any number of rounds and priorities redrawn or not, the invariants of the
  model hold, no in-action assertion fails and no step changes a decision.
-/
import Mathlib.Tactic
import Mathlib.Data.Finset.Card
import Mathlib.Data.Fintype.Card
import Mathlib.Logic.Relation

namespace Queso.Spec.Abstract

/-! ## The model -/

structure Proposal (V : Type) where
  val : V
  pri : ℕ
deriving DecidableEq

/-- a set of proposals for each replica -/
abbrev Sets (R V : Type) := R → Finset (Proposal V)

structure State (R V : Type) where
  pri : R → ℕ
  inp : R → V
  v : R → V
  decided : R → Option V
  round : ℕ
  phase : ℕ
  P : Sets R V
  E : Sets R V
  PP : Sets R V

variable {R V : Type} [Fintype R] [DecidableEq V]

/-- `f ∈ Injections` -/
structure Injection (f : R → ℕ) : Prop where
  range : ∀ a, 1 ≤ f a ∧ f a ≤ Fintype.card R
  inj : Function.Injective f

/-- `Z ∈ Majorities` -/
def Majority (Z : Finset R) : Prop := Fintype.card R < 2 * Z.card

/-- the unions of the whole inputs of some majority of senders -/
def RVals (In : Sets R V) : Set (Finset (Proposal V)) := {S | ∃ Z : Finset R, Majority Z ∧ S = Z.biUnion In}

/-- the whole inputs -/
def InVals (In : Sets R V) : Set (Finset (Proposal V)) := Set.range In

/-- a tcast with inputs `In`: each replica receives `base_i ∪ M` and names the input `B_i`, `M` being all inputs named -/
def Outcome (In Rec B : Sets R V) : Prop :=
  ∃ base : Sets R V, (∀ i, base i ∈ RVals In) ∧ (∀ i, B i ∈ InVals In) ∧ ∀ i, Rec i = base i ∪ Finset.univ.biUnion B

namespace State

omit [Fintype R] [DecidableEq V] in
/-- `p_i = <v_i, priority_i>` -/
def prop (s : State R V) (i : R) : Proposal V := ⟨s.v i, s.pri i⟩

/-- the inputs of the first tcast -/
def In1 (s : State R V) : Sets R V := fun i => {s.prop i}

end State

/-- `CHOOSE p \in S : \A q \in S : q.pri <= p.pri` -/
noncomputable def Best [Nonempty V] (S : Finset (Proposal V)) : Proposal V :=
  have : Nonempty (Proposal V) := ⟨⟨Classical.arbitrary V, 0⟩⟩
  Classical.epsilon fun p => p ∈ S ∧ ∀ q ∈ S, q.pri ≤ p.pri

def Init (s : State R V) : Prop :=
  Injection s.pri ∧ s.v = s.inp ∧ s.decided = (fun _ => none) ∧ s.round = 1 ∧ s.phase = 1 ∧
    s.P = (fun _ => ∅) ∧ s.E = (fun _ => ∅) ∧ s.PP = fun _ => ∅

/-- `(P, _) <- tcast({p})`: one input `b` reached everybody -/
def Phase1 (maxRound : ℕ) (s s' : State R V) : Prop :=
  s.phase = 1 ∧ s.round ≤ maxRound ∧
    ∃ base : Sets R V, ∃ b ∈ InVals s.In1, (∀ i, base i ∈ RVals s.In1) ∧
      s' = { s with P := fun i => base i ∪ b, phase := 2 }

/-- `(E, P') <- tcast(P)` -/
def Phase2 (s s' : State R V) : Prop :=
  s.phase = 2 ∧ ∃ E PP, Outcome s.P E PP ∧ s' = { s with P := fun _ => ∅, E := E, PP := PP, phase := 3 }

/-- `v <- best(C).value`, and the decision where `best(E) = best(U)` -/
noncomputable def settled [Nonempty V] (s : State R V) (C U : Sets R V) : State R V :=
  { s with
    v := fun i => (Best (C i)).val
    decided := fun i =>
      if s.decided i ≠ none then s.decided i
      else if Best (s.E i) = Best (U i) then some (Best (C i)).val else none
    E := fun _ => ∅
    PP := fun _ => ∅
    round := s.round + 1
    phase := 1 }

/-- `(C, U) <- tcast(P')` -/
def Phase3 [Nonempty V] (s s' : State R V) : Prop :=
  s.phase = 3 ∧ ∃ C U, Outcome s.PP C U ∧ s' = settled s C U

def Done (maxRound : ℕ) (s s' : State R V) : Prop := s.phase = 1 ∧ maxRound < s.round ∧ s' = s

def Next [Nonempty V] (maxRound : ℕ) (s s' : State R V) : Prop :=
  Phase1 maxRound s s' ∨ Phase2 s s' ∨ Phase3 s s' ∨ Done maxRound s s'

/-- the replicas draw their priorities anew at the start of a round -/
def Redraw (s s' : State R V) : Prop := s.phase = 1 ∧ ∃ pri : R → ℕ, Injection pri ∧ s' = { s with pri := pri }

/-- a step of the model, or of the algorithm that redraws its priorities each round -/
def Step [Nonempty V] (maxRound : ℕ) (s s' : State R V) : Prop := Next maxRound s s' ∨ Redraw s s'

/-- a run of the TLA+ model leads to `s` -/
def Reachable [Nonempty V] (maxRound : ℕ) (s : State R V) : Prop :=
  ∃ s₀, Init s₀ ∧ Relation.ReflTransGen (Next maxRound) s₀ s

/-- a run that redraws priorities leads to `s` -/
def ReachableRedrawn [Nonempty V] (maxRound : ℕ) (s : State R V) : Prop :=
  ∃ s₀, Init s₀ ∧ Relation.ReflTransGen (Step maxRound) s₀ s

/-! ## What is checked -/

structure TypeOK (maxRound : ℕ) (s : State R V) : Prop where
  pri : Injection s.pri
  round : 1 ≤ s.round ∧ s.round ≤ maxRound + 1
  phase : 1 ≤ s.phase ∧ s.phase ≤ 3
  sets : ∀ i, ∀ p ∈ s.P i ∪ s.E i ∪ s.PP i, 1 ≤ p.pri ∧ p.pri ≤ Fintype.card R

omit [Fintype R] [DecidableEq V] in
def Agreement (s : State R V) : Prop :=
  ∀ i j, s.decided i ≠ none ∧ s.decided j ≠ none → s.decided i = s.decided j

omit [Fintype R] [DecidableEq V] in
def Validity (s : State R V) : Prop := ∀ i, s.decided i ≠ none → ∃ j, s.decided i = some (s.inp j)

omit [Fintype R] [DecidableEq V] in
def DecisionUnanimity (s : State R V) : Prop := ∀ i j, s.decided i ≠ none → some (s.v j) = s.decided i

omit [Fintype R] [DecidableEq V] in
/-- the action property, of one step -/
def DecideOnce (s s' : State R V) : Prop := ∀ i, s.decided i ≠ none → s'.decided i = s.decided i

/-- Lemma B.4: the set is larger than half of the replicas -/
def Wide (R : Type) [Fintype R] (S : Finset (Proposal V)) : Prop := Fintype.card R / 2 < S.card

/-- the assertions of the three actions, for every choice a state has -/
structure Asserts [Nonempty V] (s : State R V) : Prop where
  phase1 : s.phase = 1 → ∀ base : Sets R V, ∀ b ∈ InVals s.In1, (∀ i, base i ∈ RVals s.In1) → ∀ i, Wide R (base i ∪ b)
  phase2 : s.phase = 2 → ∀ E PP, Outcome s.P E PP → ∀ i, Wide R (E i) ∧ Wide R (PP i)
  phase3 : s.phase = 3 → ∀ C U, Outcome s.PP C U →
    (∀ i j, U i ⊆ C j ∧ C j ⊆ s.E i) ∧ (∀ i, Wide R (C i) ∧ Wide R (U i)) ∧
      ∀ i j, Best (s.E i) = Best (U i) → Best (U i) = Best (C j) ∧ Best (C j) = Best (s.E i)

/-! ## The outcomes of a tcast -/

section Tcast

variable {In Rec B : Sets R V}

theorem RVals.wide {S : Finset (Proposal V)} (hS : S ∈ RVals In) (hwide : ∀ i, Wide R (In i)) : Wide R S := by
  obtain ⟨Z, hZ, rfl⟩ := hS
  obtain ⟨i, hi⟩ : Z.Nonempty := Finset.card_pos.1 (by unfold Majority at hZ; omega)
  exact lt_of_lt_of_le (hwide i) (Finset.card_le_card (Finset.subset_biUnion_of_mem In hi))

omit [DecidableEq V] in
theorem InVals.wide {S : Finset (Proposal V)} (hS : S ∈ InVals In) (hwide : ∀ i, Wide R (In i)) : Wide R S := by
  obtain ⟨i, rfl⟩ := hS
  exact hwide i

omit [DecidableEq V] in
theorem Wide.mono {S T : Finset (Proposal V)} (hS : Wide R S) (hST : S ⊆ T) : Wide R T :=
  lt_of_lt_of_le hS (Finset.card_le_card hST)

omit [DecidableEq V] in
theorem Wide.nonempty {S : Finset (Proposal V)} (hS : Wide R S) : S.Nonempty :=
  Finset.card_pos.1 (Nat.zero_lt_of_lt hS)

/-- every input named reached every replica -/
theorem Outcome.named (h : Outcome In Rec B) (i j : R) : B i ⊆ Rec j := by
  obtain ⟨base, -, -, hrec⟩ := h
  rw [hrec]
  exact (Finset.subset_biUnion_of_mem B (Finset.mem_univ i)).trans Finset.subset_union_right

/-- nothing is received that is not in some input -/
theorem Outcome.within (h : Outcome In Rec B) {S : Finset (Proposal V)} (hIn : ∀ k, In k ⊆ S) (i : R) :
    Rec i ⊆ S ∧ B i ⊆ S := by
  obtain ⟨base, hbase, hB, hrec⟩ := h
  have hBS : ∀ m, B m ⊆ S := fun m => by
    obtain ⟨k, hk⟩ := hB m
    exact hk ▸ hIn k
  refine ⟨?_, hBS i⟩
  obtain ⟨Z, -, hZ⟩ := hbase i
  rw [hrec, hZ]
  exact Finset.union_subset (Finset.biUnion_subset.2 fun k _ => hIn k) (Finset.biUnion_subset.2 fun m _ => hBS m)

theorem Outcome.wide (h : Outcome In Rec B) (hwide : ∀ i, Wide R (In i)) (i : R) : Wide R (Rec i) ∧ Wide R (B i) := by
  have hB : Wide R (B i) := by
    obtain ⟨-, -, hB, -⟩ := h
    exact InVals.wide (hB i) hwide
  exact ⟨hB.mono (h.named i i), hB⟩

/-- a union over more senders than a majority is one over a majority -/
theorem majority_union [DecidableEq R] {Z T : Finset R} (hZ : Majority Z) : Majority (T ∪ Z) :=
  lt_of_lt_of_le hZ (Nat.mul_le_mul_left 2 (Finset.card_le_card Finset.subset_union_right))

/-- **The choices of a tcast are exactly its guarantees.** (G1): a replica receives a union of whole inputs that includes
those of a majority. (G2): each replica names the whole input of some replica that everyone received. -/
theorem outcome_iff : Outcome In Rec B ↔
    (∀ i, ∃ T Z : Finset R, Majority Z ∧ Rec i = T.biUnion In ∧ ∀ k ∈ Z, In k ⊆ Rec i) ∧
      ∀ i, ∃ j, B i = In j ∧ ∀ k, In j ⊆ Rec k := by
  classical
  constructor
  · intro h
    refine ⟨fun i => ?_, fun i => ?_⟩
    · obtain ⟨base, hbase, hB, hrec⟩ := h
      obtain ⟨Z, hZ, hbaseZ⟩ := hbase i
      choose src hsrc using hB
      refine ⟨Z ∪ Finset.univ.image src, Z, hZ, ?_, fun k hk => ?_⟩
      · rw [hrec, hbaseZ, Finset.union_biUnion, Finset.image_biUnion]
        exact congrArg _ (Finset.biUnion_congr rfl fun m _ => (hsrc m).symm)
      · rw [hrec, hbaseZ]
        exact (Finset.subset_biUnion_of_mem In hk).trans Finset.subset_union_left
    · have hnamed := h.named i
      obtain ⟨-, -, hB, -⟩ := h
      obtain ⟨j, hj⟩ := hB i
      exact ⟨j, hj.symm, fun k => hj ▸ hnamed k⟩
  · rintro ⟨hG1, hG2⟩
    refine ⟨Rec, fun i => ?_, fun i => ?_, fun i => ?_⟩
    · -- the majority's inputs are in what was received anyway
      obtain ⟨T, Z, hZ, hrec, hsub⟩ := hG1 i
      refine ⟨T ∪ Z, majority_union hZ, ?_⟩
      rw [Finset.union_biUnion, ← hrec]
      exact (Finset.union_eq_left.2 (Finset.biUnion_subset.2 hsub)).symm
    · obtain ⟨j, hj, -⟩ := hG2 i
      exact ⟨j, hj.symm⟩
    · refine (Finset.union_eq_left.2 (Finset.biUnion_subset.2 fun m _ => ?_)).symm
      obtain ⟨j, hj, hall⟩ := hG2 m
      exact hj ▸ hall i

/-- a tcast of one and the same set yields that set only -/
theorem outcome_const [Nonempty R] (S : Finset (Proposal V)) :
    Outcome (R := R) (fun _ => S) (fun _ => S) fun _ => S := by
  have hpos : 0 < Fintype.card R := Fintype.card_pos
  have hne : (Finset.univ : Finset R).Nonempty := Finset.univ_nonempty
  refine ⟨fun _ => S, fun _ => ⟨Finset.univ, ?_, ?_⟩, fun _ => ⟨Classical.arbitrary R, rfl⟩, fun _ => ?_⟩
  · unfold Majority
    rw [Finset.card_univ]
    omega
  · ext p
    simp
  · ext p
    simp

/-- **Lemma B.5.** A third tcast of what the second one named: `U_i ⊆ C_j ⊆ E_i`. -/
theorem Outcome.crux {E PP C U : Sets R V} (h₂ : ∀ i m, PP m ⊆ E i) (h₃ : Outcome PP C U) (i j : R) :
    U i ⊆ C j ∧ C j ⊆ E i :=
  ⟨h₃.named i j, (h₃.within (fun k => h₂ i k) j).1⟩

end Tcast

/-! ## The best proposal of a set -/

section Best

variable [Nonempty V] {s : State R V} {S T : Finset (Proposal V)}

/-- the proposals of the round -/
def State.offers (s : State R V) : Finset (Proposal V) := Finset.univ.image s.prop

omit [DecidableEq V] in
theorem best_spec (hS : S.Nonempty) : Best S ∈ S ∧ ∀ q ∈ S, q.pri ≤ (Best S).pri :=
  Classical.epsilon_spec (p := fun p => p ∈ S ∧ ∀ q ∈ S, q.pri ≤ p.pri) (S.exists_max_image (·.pri) hS)

omit [Nonempty V] in
theorem offers_inj (hinj : Injection s.pri) {p q : Proposal V} (hp : p ∈ s.offers) (hq : q ∈ s.offers)
    (hpq : p.pri = q.pri) : p = q := by
  obtain ⟨i, -, rfl⟩ := Finset.mem_image.1 hp
  obtain ⟨j, -, rfl⟩ := Finset.mem_image.1 hq
  rw [hinj.inj hpq]

/-- within one round the highest priority names one proposal -/
theorem best_eq (hinj : Injection s.pri) (hS : S ⊆ s.offers) {p : Proposal V} (hp : p ∈ S)
    (hmax : ∀ q ∈ S, q.pri ≤ p.pri) : Best S = p := by
  obtain ⟨hmem, hbest⟩ := best_spec ⟨p, hp⟩
  exact offers_inj hinj (hS hmem) (hS hp) (le_antisymm (hmax _ hmem) (hbest p hp))

/-- **The pivot of a decision.** Where the best of a set is the best of a subset, it is the best of every set between. -/
theorem best_pivot (hinj : Injection s.pri) {U C E : Finset (Proposal V)} (hU : U.Nonempty) (hUC : U ⊆ C) (hCE : C ⊆ E)
    (hE : E ⊆ s.offers) (heq : Best E = Best U) : Best C = Best U := by
  have hmem : Best U ∈ C := hUC (best_spec hU).1
  refine best_eq hinj (hCE.trans hE) hmem fun q hq => ?_
  rw [← heq]
  exact (best_spec ((hU.mono hUC).mono hCE)).2 q (hCE hq)

end Best

/-! ## The invariant -/

section Invariant

variable {s s' : State R V} {maxRound : ℕ}

/-- what the sets of each phase hold -/
structure Inv (maxRound : ℕ) (s : State R V) : Prop where
  pri : Injection s.pri
  round : 1 ≤ s.round ∧ s.round ≤ maxRound + 1
  active : s.phase ≠ 1 → s.round ≤ maxRound
  phase : s.phase = 1 ∨ s.phase = 2 ∨ s.phase = 3
  values : ∀ i, ∃ j, s.v i = s.inp j
  unanimous : DecisionUnanimity s
  first : s.phase ≠ 2 → s.P = fun _ => ∅
  later : s.phase ≠ 3 → s.E = (fun _ => ∅) ∧ s.PP = fun _ => ∅
  gathered : s.phase = 2 → ∀ i, s.P i ⊆ s.offers ∧ Wide R (s.P i)
  spread : s.phase = 3 → ∀ i, s.E i ⊆ s.offers ∧ Wide R (s.PP i) ∧ ∀ j, s.PP j ⊆ s.E i

theorem inv_init (h : Init s) : Inv maxRound s := by
  obtain ⟨hpri, hv, hdec, hround, hphase, hP, hE, hPP⟩ := h
  exact
    { pri := hpri
      round := by omega
      active := fun h => absurd hphase h
      phase := .inl hphase
      values := fun i => ⟨i, congrFun hv i⟩
      unanimous := fun i _ hi => absurd (congrFun hdec i) hi
      first := fun _ => hP
      later := fun _ => ⟨hE, hPP⟩
      gathered := fun h => by omega
      spread := fun h => by omega }

/-- the singletons of a majority, of pairwise different priorities -/
theorem wide_first (hinj : Injection s.pri) {S : Finset (Proposal V)} (hS : S ∈ RVals s.In1) : Wide R S := by
  obtain ⟨Z, hZ, rfl⟩ := hS
  have hcard : (Z.biUnion s.In1).card = Z.card := by
    have : Z.biUnion s.In1 = Z.image s.prop := Finset.biUnion_singleton
    rw [this]
    exact Finset.card_image_of_injective _ fun a b hab => hinj.inj (congrArg (·.pri) hab)
  unfold Wide
  unfold Majority at hZ
  omega

theorem In1_subset (k : R) : s.In1 k ⊆ s.offers :=
  Finset.singleton_subset_iff.2 (Finset.mem_image_of_mem _ (Finset.mem_univ k))

theorem phase1_inv (h : Inv maxRound s) (hstep : Phase1 maxRound s s') : Inv maxRound s' := by
  obtain ⟨hphase, hround, base, b, hb, hbase, rfl⟩ := hstep
  have hlater := h.later (by omega)
  refine
    { pri := h.pri
      round := h.round
      active := fun _ => hround
      phase := .inr (.inl rfl)
      values := h.values
      unanimous := h.unanimous
      first := fun hne => absurd rfl hne
      later := fun _ => hlater
      gathered := fun _ i => ⟨?_, (wide_first h.pri (hbase i)).mono Finset.subset_union_left⟩
      spread := fun h3 => absurd h3 (by decide : (2 : ℕ) ≠ 3) }
  obtain ⟨Z, -, hZ⟩ := hbase i
  obtain ⟨k, rfl⟩ := hb
  show base i ∪ s.In1 k ⊆ s.offers
  rw [hZ]
  exact Finset.union_subset (Finset.biUnion_subset.2 fun k _ => In1_subset k) (In1_subset k)

theorem phase2_inv (h : Inv maxRound s) (hstep : Phase2 s s') : Inv maxRound s' := by
  obtain ⟨hphase, E, PP, hout, rfl⟩ := hstep
  have hP := h.gathered hphase
  exact
    { pri := h.pri
      round := h.round
      active := fun _ => h.active (by omega)
      phase := .inr (.inr rfl)
      values := h.values
      unanimous := h.unanimous
      first := fun _ => rfl
      later := fun hne => absurd rfl hne
      gathered := fun h2 => absurd h2 (by decide : (3 : ℕ) ≠ 2)
      spread := fun _ i =>
        ⟨(hout.within (fun k => (hP k).1) i).1, (hout.wide (fun k => (hP k).2) i).2, fun j => hout.named j i⟩ }

variable [Nonempty V]

omit [Nonempty V] in
/-- what the third tcast of a round yields -/
theorem Inv.third (h : Inv maxRound s) (hphase : s.phase = 3) {C U : Sets R V} (hout : Outcome s.PP C U) (i j : R) :
    (U i).Nonempty ∧ U i ⊆ C j ∧ C j ⊆ s.E i ∧ s.E i ⊆ s.offers := by
  have hsp := h.spread hphase
  obtain ⟨hUC, hCE⟩ := Outcome.crux (fun a b => (hsp a).2.2 b) hout i j
  exact ⟨(hout.wide (fun k => (hsp k).2.1) i).2.nonempty, hUC, hCE, (hsp i).1⟩

/-- a candidate of the next round is one of this round -/
theorem Inv.candidate (h : Inv maxRound s) (hphase : s.phase = 3) {C U : Sets R V} (hout : Outcome s.PP C U) (j : R) :
    ∃ k, (Best (C j)).val = s.v k := by
  obtain ⟨hU, hUC, hCE, hE⟩ := h.third hphase hout j j
  obtain ⟨k, -, hk⟩ := Finset.mem_image.1 (hE (hCE (best_spec (hU.mono hUC)).1))
  exact ⟨k, by rw [← hk]; rfl⟩

omit [Fintype R] in
/-- a replica's decision after the third tcast is the one it had, or its guard held -/
theorem settled_decided {C U : Sets R V} {i : R} (hi : (settled s C U).decided i ≠ none) :
    s.decided i ≠ none ∧ (settled s C U).decided i = s.decided i ∨
      s.decided i = none ∧ Best (s.E i) = Best (U i) ∧ (settled s C U).decided i = some (Best (C i)).val := by
  by_cases hdec : s.decided i = none
  · by_cases hbest : Best (s.E i) = Best (U i)
    · exact .inr ⟨hdec, hbest, by simp [settled, hdec, hbest]⟩
    · exact absurd (by simp [settled, hdec, hbest]) hi
  · exact .inl ⟨hdec, by simp [settled, hdec]⟩

/-- a decision of an earlier round binds this round's candidates; one of this round is everyone's candidate -/
theorem Inv.settled_unanimous (h : Inv maxRound s) (hphase : s.phase = 3) {C U : Sets R V}
    (hout : Outcome s.PP C U) : DecisionUnanimity (settled s C U) := by
  intro i j hi
  show some (Best (C j)).val = _
  rcases settled_decided hi with ⟨hdec, heq⟩ | ⟨-, hbest, heq⟩
  · obtain ⟨k, hk⟩ := h.candidate hphase hout j
    rw [heq, hk, h.unanimous i k hdec]
  · obtain ⟨hU, hUC, hCE, hE⟩ := h.third hphase hout i j
    obtain ⟨-, hUCi, hCEi, -⟩ := h.third hphase hout i i
    rw [heq, best_pivot h.pri hU hUC hCE hE hbest, best_pivot h.pri hU hUCi hCEi hE hbest]

theorem phase3_inv (h : Inv maxRound s) (hstep : Phase3 s s') : Inv maxRound s' := by
  obtain ⟨hphase, C, U, hout, rfl⟩ := hstep
  have hround := h.active (by omega)
  exact
    { pri := h.pri
      round := by have := h.round; exact ⟨by show 1 ≤ s.round + 1; omega, by show s.round + 1 ≤ _; omega⟩
      active := fun hne => absurd rfl hne
      phase := .inl rfl
      values := fun i => by
        obtain ⟨k, hk⟩ := h.candidate hphase hout i
        obtain ⟨j, hj⟩ := h.values k
        exact ⟨j, hk.trans hj⟩
      unanimous := h.settled_unanimous hphase hout
      first := fun _ => h.first (by omega)
      later := fun _ => ⟨rfl, rfl⟩
      gathered := fun h2 => absurd h2 (by decide : (1 : ℕ) ≠ 2)
      spread := fun h3 => absurd h3 (by decide : (1 : ℕ) ≠ 3) }

omit [Nonempty V] in
theorem redraw_inv (h : Inv maxRound s) (hstep : Redraw s s') : Inv maxRound s' := by
  obtain ⟨hphase, pri, hpri, rfl⟩ := hstep
  exact
    { h with
      pri := hpri
      gathered := fun h2 => absurd (hphase.symm.trans h2) (by decide)
      spread := fun h3 => absurd (hphase.symm.trans h3) (by decide) }

theorem inv_step (h : Inv maxRound s) (hstep : Step maxRound s s') : Inv maxRound s' := by
  rcases hstep with (h1 | h2 | h3 | ⟨-, -, rfl⟩) | hdraw
  · exact phase1_inv h h1
  · exact phase2_inv h h2
  · exact phase3_inv h h3
  · exact h
  · exact redraw_inv h hdraw

theorem ReachableRedrawn.inv (h : ReachableRedrawn maxRound s) : Inv maxRound s := by
  obtain ⟨s₀, hinit, hrun⟩ := h
  induction hrun with
  | refl => exact inv_init hinit
  | tail _ hstep ih => exact inv_step ih hstep

/-- the TLA+ model's runs are among those that redraw -/
theorem Reachable.redrawn (h : Reachable maxRound s) : ReachableRedrawn maxRound s := by
  obtain ⟨s₀, hinit, hrun⟩ := h
  refine ⟨s₀, hinit, ?_⟩
  induction hrun with
  | refl => exact .refl
  | tail _ hstep ih => exact ih.tail (.inl hstep)

/-! ## What the invariant says -/

omit [Nonempty V] in
theorem Inv.typeOK (h : Inv maxRound s) : TypeOK maxRound s := by
  have hoffers : ∀ p ∈ s.offers, 1 ≤ p.pri ∧ p.pri ≤ Fintype.card R := fun p hp => by
    obtain ⟨i, -, rfl⟩ := Finset.mem_image.1 hp
    exact h.pri.range i
  refine ⟨h.pri, h.round, by have := h.phase; omega, fun i p hp => hoffers p ?_⟩
  rcases Finset.mem_union.1 hp with hp | hp
  · rcases Finset.mem_union.1 hp with hp | hp
    · by_cases h2 : s.phase = 2
      · exact (h.gathered h2 i).1 hp
      · rw [h.first h2] at hp; cases hp
    · by_cases h3 : s.phase = 3
      · exact (h.spread h3 i).1 hp
      · rw [(h.later h3).1] at hp; cases hp
  · by_cases h3 : s.phase = 3
    · exact (h.spread h3 i).1 ((h.spread h3 i).2.2 i hp)
    · rw [(h.later h3).2] at hp; cases hp

omit [Nonempty V] in
theorem Inv.agreement (h : Inv maxRound s) : Agreement s := fun i j ⟨hi, hj⟩ =>
  (h.unanimous i i hi).symm.trans (h.unanimous j i hj)

omit [Nonempty V] in
theorem Inv.validity (h : Inv maxRound s) : Validity s := fun i hi => by
  obtain ⟨j, hj⟩ := h.values i
  exact ⟨j, by rw [← h.unanimous i i hi, hj]⟩

theorem Inv.asserts (h : Inv maxRound s) : Asserts s where
  phase1 := fun _ base b _ hbase i => (wide_first h.pri (hbase i)).mono Finset.subset_union_left
  phase2 := fun hphase _ _ hout => hout.wide fun k => (h.gathered hphase k).2
  phase3 := fun hphase C U hout => by
    refine ⟨fun i j => ?_, hout.wide fun k => (h.spread hphase k).2.1, fun i j heq => ?_⟩
    · obtain ⟨-, hUC, hCE, -⟩ := h.third hphase hout i j
      exact ⟨hUC, hCE⟩
    · obtain ⟨hU, hUC, hCE, hE⟩ := h.third hphase hout i j
      have hpivot := best_pivot h.pri hU hUC hCE hE heq
      exact ⟨hpivot.symm, hpivot.trans heq.symm⟩

theorem step_decideOnce (hstep : Step maxRound s s') : DecideOnce s s' := by
  intro i hi
  rcases hstep with (⟨-, -, _, _, _, _, rfl⟩ | ⟨-, _, _, _, rfl⟩ | ⟨-, C, U, -, rfl⟩ | ⟨-, -, rfl⟩) | ⟨-, _, _, rfl⟩
  · rfl
  · rfl
  · exact if_pos hi
  · rfl
  · rfl

/-- **The TLA+ model is safe**, for any replicas, values and number of rounds, and so is the algorithm that redraws its
priorities each round. -/
theorem spec_safe (h : ReachableRedrawn maxRound s) :
    TypeOK maxRound s ∧ Agreement s ∧ Validity s ∧ DecisionUnanimity s ∧ Asserts s ∧
      ∀ s', Step maxRound s s' → DecideOnce s s' :=
  ⟨h.inv.typeOK, h.inv.agreement, h.inv.validity, h.inv.unanimous, h.inv.asserts, fun _ => step_decideOnce⟩

end Invariant

/-- three replicas that hear from everybody: all decide in the first round, and draw other priorities for the second -/
theorem spec_safe_decided : ∃ s : State (Fin 3) Bool, ReachableRedrawn 2 s ∧ (∀ i, s.decided i ≠ none) ∧
    s.pri = (fun i => 3 - i.val) ∧ Agreement s ∧ Validity s := by
  let s₀ : State (Fin 3) Bool :=
    { pri := fun i => i.val + 1, inp := fun i => i == 0, v := fun i => i == 0, decided := fun _ => none, round := 1,
      phase := 1, P := fun _ => ∅, E := fun _ => ∅, PP := fun _ => ∅ }
  -- everyone receives everything
  let all (In : Sets (Fin 3) Bool) : Finset (Proposal Bool) := Finset.univ.biUnion In
  have hall : ∀ In : Sets (Fin 3) Bool, all In ∈ RVals In := fun In => ⟨Finset.univ, by simp [Majority], rfl⟩
  let P := all s₀.In1 ∪ s₀.In1 0
  let s₁ : State (Fin 3) Bool := { s₀ with P := fun _ => P, phase := 2 }
  let s₂ : State (Fin 3) Bool := { s₁ with P := fun _ => ∅, E := fun _ => P, PP := fun _ => P, phase := 3 }
  let s₃ : State (Fin 3) Bool := settled s₂ (fun _ => P) fun _ => P
  have hinit : Init s₀ :=
    ⟨⟨by decide, fun a b h => Fin.ext (by simpa [s₀] using h)⟩, rfl, rfl, rfl, rfl, rfl, rfl, rfl⟩
  have h₁ : Step 2 s₀ s₁ := .inl (.inl ⟨rfl, by decide, fun _ => all s₀.In1, s₀.In1 0, ⟨0, rfl⟩, fun _ => hall _, rfl⟩)
  have h₂ : Step 2 s₁ s₂ := .inl (.inr (.inl ⟨rfl, _, _, outcome_const P, rfl⟩))
  have h₃ : Step 2 s₂ s₃ := .inl (.inr (.inr (.inl ⟨rfl, _, _, outcome_const P, rfl⟩)))
  have h₄ : Step 2 s₃ { s₃ with pri := fun i => 3 - i.val } :=
    .inr ⟨rfl, _, ⟨by decide, fun a b h => Fin.ext (by have := a.isLt; have := b.isLt; omega)⟩, rfl⟩
  have hreach : ReachableRedrawn 2 { s₃ with pri := fun i => 3 - i.val } :=
    ⟨s₀, hinit, ((((Relation.ReflTransGen.refl).tail h₁).tail h₂).tail h₃).tail h₄⟩
  obtain ⟨-, hagree, hvalid, -⟩ := spec_safe hreach
  exact ⟨_, hreach, fun i => by simp [s₃, s₂, s₁, s₀, settled], rfl, hagree, hvalid⟩

end Queso.Spec.Abstract
