/-
The agreement argument of one slot, over what the recorders accepted and what the proposers sent.

A `Hist` is the whole past of a slot: the calls each recorder served, in order, and the requests that were ever sent.
Nothing in it is ever taken back, so every fact below that is stated over a history stays true as the history grows
(`Hist.Le`).

A sent request is justified (`Works`) by the quorum its proposer completed the step before: the greatest first value of
phase 0, the proposal itself after phases 1 and 2, the greatest aggregate after phase 3.

Results, for a history that is `Sound` (accepted calls were sent, sent requests are justified):
- `fast_fast`: two fast decisions are on one proposal;
- `slow_top`: a proposal decided in phase 2 of a round is the greatest sent in that phase;
- `slow_gather`, `slow_later`: phase 3 gathers it, and every later request carries its value;
- `fast_later`: so does every request after step 4, if the fast-decided proposal is the greatest sent at step 4;
- `agreement`: all decisions are on one value, if the proposers spread what they say they spread (`Spreading`) and the
  fast decisions are on the greatest proposal of step 4 (`FastTop`).
-/
import Queso.Lib.Quorum
import Queso.Lib.Register
import Queso.Consensus.Proposer

namespace Queso

open Register Quorum

variable {V : Type}

/-- the past of one slot -/
structure Hist (V : Type) where
  /-- the calls each recorder served, in order -/
  calls : NodeId → List (ℕ × Proposal V)
  /-- some proposer sent this proposal at this step -/
  sent : ℕ → Proposal V → Prop

/-- `h'` continues `h` -/
structure Hist.Le (h h' : Hist V) : Prop where
  calls : ∀ j, ∃ m, h'.calls j = h.calls j ++ m
  sent : ∀ s p, h.sent s p → h'.sent s p

/-! ## Quorums of one step -/

/-- a quorum of recorders that reached step `s` -/
def Gathered (n : ℕ) (h : Hist V) (s : ℕ) (Q : Finset ℕ) : Prop :=
  IsQuorum n Q ∧ ∀ j ∈ Q, Visited (h.calls j) s

variable [LinearOrder V]

/-- `q` is the greatest of the values `f` reports over `Q` -/
def Greatest (f : NodeId → Option (Proposal V)) (Q : Finset ℕ) (q : Proposal V) : Prop :=
  (∃ j ∈ Q, f j = some q) ∧ ∀ j ∈ Q, ∀ x, f j = some x → x ≤ q

/-- some quorum at step `s` reports `q` as the greatest first value -/
def BestFirst (n : ℕ) (h : Hist V) (s : ℕ) (q : Proposal V) : Prop :=
  ∃ Q, Gathered n h s Q ∧ Greatest (fun j => firstOf (h.calls j) s) Q q

/-- some quorum at step `s` reports `q` as the greatest aggregate of the step before -/
def BestPrior (n : ℕ) (h : Hist V) (s : ℕ) (q : Proposal V) : Prop :=
  ∃ Q, Gathered n h s Q ∧ Greatest (fun j => priorOf (h.calls j) s) Q q

/-- a quorum accepted, at step `s`, proposals no smaller than `p` -/
def Spread (n : ℕ) (h : Hist V) (s : ℕ) (p : Proposal V) : Prop :=
  ∃ Q, IsQuorum n Q ∧ ∀ j ∈ Q, ∃ q, p ≤ q ∧ (s, q) ∈ accepted (h.calls j)

/-! ## Where a working proposal comes from -/

/-- what a quorum of step `s` made of a proposer's working proposal -/
def Template (n : ℕ) (h : Hist V) (s : ℕ) (q : Proposal V) : Prop :=
  match s % 4 with
  | 0 => BestFirst n h s q
  | 3 => BestPrior n h s q
  | _ => h.sent s q ∧ ∃ Q, Gathered n h s Q

/-- a working proposal of step `s + 1`: at phase 0 only its value comes from the quorum, the priority is drawn anew -/
def Works (n : ℕ) (h : Hist V) (s : ℕ) (q : Proposal V) : Prop :=
  ∃ q', Template n h s q' ∧ q'.value = q.value ∧ ((s + 1) % 4 ≠ 0 → q' = q)

/-- accepted calls were sent, and past the first step what was sent is justified by a quorum of the step before -/
structure Sound (n : ℕ) (h : Hist V) : Prop where
  accepted : ∀ j s p, (s, p) ∈ accepted (h.calls j) → h.sent s p
  four_le : ∀ s p, h.sent s p → 4 ≤ s
  works : ∀ s p, h.sent (s + 1) p → 4 ≤ s → Works n h s p
  drawn : ∀ s p, h.sent s p → 5 ≤ s → s % 4 = 0 → p.priority < H

/-- every proposal that reached phase 2 was spread in phase 1 -/
def Spreading (n : ℕ) (h : Hist V) : Prop := ∀ s p, h.sent (s + 1) p → s % 4 = 1 → Spread n h s p

/-! ## Decisions -/

/-- a quorum captured one and the same `H` proposal at step 4 -/
def FastWit (n : ℕ) (h : Hist V) (p : Proposal V) : Prop :=
  p.priority = H ∧ ∃ Q, IsQuorum n Q ∧ ∀ j ∈ Q, firstOf (h.calls j) FIRST_ROUND_STEP = some p

/-- phase 2 of some round gathered the very proposal it was spreading -/
def SlowWit (n : ℕ) (h : Hist V) (s : ℕ) (p : Proposal V) : Prop :=
  s % 4 = 2 ∧ h.sent s p ∧ BestPrior n h s p

/-- the value `v` is decided by one of the two rules; in phase 2, after its proposal was spread there too -/
def Decides (n : ℕ) (h : Hist V) (v : V) : Prop :=
  (∃ p, FastWit n h p ∧ p.value = v) ∨ ∃ s p, SlowWit n h s p ∧ Spread n h s p ∧ p.value = v

/-- a fast-decided proposal is the greatest sent at step 4 -/
def FastTop (n : ℕ) (h : Hist V) : Prop :=
  ∀ p, FastWit n h p → ∀ q, h.sent FIRST_ROUND_STEP q → q ≤ p

/-! ## A history only grows -/

section Growth

variable {n : ℕ} {h h' : Hist V}

omit [LinearOrder V] in
theorem Hist.Le.refl (h : Hist V) : h.Le h := ⟨fun _ => ⟨[], (List.append_nil _).symm⟩, fun _ _ hs => hs⟩

omit [LinearOrder V] in
theorem Hist.Le.accepted (hle : h.Le h') {j : NodeId} {c : ℕ × Proposal V} (hc : c ∈ accepted (h.calls j)) :
    c ∈ Register.accepted (h'.calls j) := by
  obtain ⟨m, hm⟩ := hle.calls j
  rw [hm]; exact mem_accepted_append hc m

omit [LinearOrder V] in
theorem Hist.Le.visited (hle : h.Le h') {j : NodeId} {s : ℕ} (hv : Visited (h.calls j) s) :
    Visited (h'.calls j) s := by
  obtain ⟨m, hm⟩ := hle.calls j
  rw [hm]; exact hv.append m

omit [LinearOrder V] in
theorem Hist.Le.firstOf (hle : h.Le h') {j : NodeId} {s : ℕ} (hv : Visited (h.calls j) s) :
    firstOf (h'.calls j) s = Register.firstOf (h.calls j) s := by
  obtain ⟨m, hm⟩ := hle.calls j
  rw [hm]; exact firstOf_append hv m

theorem Hist.Le.priorOf (hle : h.Le h') {j : NodeId} {s : ℕ} (hv : Visited (h.calls j) s) :
    priorOf (h'.calls j) s = Register.priorOf (h.calls j) s := by
  obtain ⟨m, hm⟩ := hle.calls j
  rw [hm]; exact priorOf_append hv m

omit [LinearOrder V] in
theorem Gathered.mono (hle : h.Le h') {s : ℕ} {Q : Finset ℕ} (hQ : Gathered n h s Q) : Gathered n h' s Q :=
  ⟨hQ.1, fun j hj => hle.visited (hQ.2 j hj)⟩

theorem Greatest.congr {f g : NodeId → Option (Proposal V)} {Q : Finset ℕ} {q : Proposal V} (hq : Greatest f Q q)
    (hfg : ∀ j ∈ Q, g j = f j) : Greatest g Q q := by
  obtain ⟨⟨j, hj, hjq⟩, hmax⟩ := hq
  refine ⟨⟨j, hj, by rw [hfg j hj, hjq]⟩, fun i hi x hx => ?_⟩
  rw [hfg i hi] at hx
  exact hmax i hi x hx

theorem BestFirst.mono (hle : h.Le h') {s : ℕ} {q : Proposal V} (hq : BestFirst n h s q) : BestFirst n h' s q := by
  obtain ⟨Q, hQ, hbest⟩ := hq
  exact ⟨Q, hQ.mono hle, hbest.congr fun j hj => hle.firstOf (hQ.2 j hj)⟩

theorem BestPrior.mono (hle : h.Le h') {s : ℕ} {q : Proposal V} (hq : BestPrior n h s q) : BestPrior n h' s q := by
  obtain ⟨Q, hQ, hbest⟩ := hq
  exact ⟨Q, hQ.mono hle, hbest.congr fun j hj => hle.priorOf (hQ.2 j hj)⟩

theorem Spread.mono (hle : h.Le h') {s : ℕ} {p : Proposal V} (hp : Spread n h s p) : Spread n h' s p := by
  obtain ⟨Q, hQ, hacc⟩ := hp
  refine ⟨Q, hQ, fun j hj => ?_⟩
  obtain ⟨q, hpq, hq⟩ := hacc j hj
  exact ⟨q, hpq, hle.accepted hq⟩

theorem Template.mono (hle : h.Le h') {s : ℕ} {q : Proposal V} (hq : Template n h s q) : Template n h' s q := by
  unfold Template at hq ⊢
  split at hq
  · exact hq.mono hle
  · exact hq.mono hle
  · obtain ⟨hs, Q, hQ⟩ := hq
    exact ⟨hle.sent s q hs, Q, hQ.mono hle⟩

theorem Works.mono (hle : h.Le h') {s : ℕ} {q : Proposal V} (hq : Works n h s q) : Works n h' s q := by
  obtain ⟨q', hq', hv, heq⟩ := hq
  exact ⟨q', hq'.mono hle, hv, heq⟩

omit [LinearOrder V] in
theorem FastWit.mono (hle : h.Le h') {p : Proposal V} (hp : FastWit n h p) : FastWit n h' p := by
  obtain ⟨hH, Q, hQ, hfirst⟩ := hp
  refine ⟨hH, Q, hQ, fun j hj => ?_⟩
  have hv : Visited (h.calls j) FIRST_ROUND_STEP := ⟨p, firstOf_mem (hfirst j hj)⟩
  rw [hle.firstOf hv]
  exact hfirst j hj

theorem SlowWit.mono (hle : h.Le h') {s : ℕ} {p : Proposal V} (hp : SlowWit n h s p) : SlowWit n h' s p :=
  ⟨hp.1, hle.sent s p hp.2.1, hp.2.2.mono hle⟩

theorem Decides.mono (hle : h.Le h') {v : V} (hv : Decides n h v) : Decides n h' v := by
  rcases hv with ⟨p, hp, hpv⟩ | ⟨s, p, hp, hspread, hpv⟩
  · exact .inl ⟨p, hp.mono hle, hpv⟩
  · exact .inr ⟨s, p, hp.mono hle, hspread.mono hle, hpv⟩

end Growth

/-! ## What a quorum reports was sent -/

section Agreement

variable {n : ℕ} {h : Hist V}

theorem Template.gathered {s : ℕ} {q : Proposal V} (hq : Template n h s q) : ∃ Q, Gathered n h s Q := by
  unfold Template at hq
  split at hq
  · obtain ⟨Q, hQ, -⟩ := hq
    exact ⟨Q, hQ⟩
  · obtain ⟨Q, hQ, -⟩ := hq
    exact ⟨Q, hQ⟩
  · exact hq.2

theorem Sound.first_sent (hs : Sound n h) {j : NodeId} {s : ℕ} {p : Proposal V} (hp : firstOf (h.calls j) s = some p) :
    h.sent s p := hs.accepted j s p (firstOf_mem hp)

theorem Sound.prior_sent (hs : Sound n h) {j : NodeId} {s : ℕ} {p : Proposal V}
    (hp : priorOf (h.calls j) (s + 1) = some p) : h.sent s p :=
  hs.accepted j s p (aggOf_eq_some.1 hp).1

/-- the working proposal a quorum of step `s` yields was sent at step `s`, or gathered from step `s - 1` -/
theorem Sound.template_sent (hs : Sound n h) {s : ℕ} {q : Proposal V} (hq : Template n h s q) :
    h.sent s q ∨ s % 4 = 3 ∧ h.sent (s - 1) q := by
  unfold Template at hq
  split at hq
  · obtain ⟨Q, -, ⟨j, -, hj⟩, -⟩ := hq
    exact .inl (hs.first_sent hj)
  · rename_i h3
    obtain ⟨Q, -, ⟨j, -, hj⟩, -⟩ := hq
    obtain ⟨t, rfl⟩ : ∃ t, s = t + 1 := ⟨s - 1, by omega⟩
    exact .inr ⟨h3, hs.prior_sent hj⟩
  · exact .inl hq.1

/-! ## Values that persist -/

/-- **Persistence.** Once every proposal of a phase 0 and what phase 3 gathered for the next round carry `v`, so does
every later request. -/
theorem Sound.value_persists (hs : Sound n h) {s : ℕ} {v : V} (h4 : 4 ≤ s)
    (hbase : ∀ p, h.sent s p → p.value = v) (hphase : s % 4 ≠ 3)
    {t : ℕ} {p : Proposal V} (hst : s ≤ t) (hp : h.sent t p) : p.value = v := by
  induction t using Nat.strong_induction_on generalizing p with
  | _ t ih =>
    rcases hst.eq_or_lt with rfl | hlt
    · exact hbase p hp
    · obtain ⟨t, rfl⟩ : ∃ t', t = t' + 1 := ⟨t - 1, by omega⟩
      obtain ⟨q, hq, hv, -⟩ := hs.works t p hp (by omega)
      rw [← hv]
      rcases hs.template_sent hq with hsent | ⟨h3, hsent⟩
      · exact ih t (Nat.lt_succ_self t) (by omega) hsent
      · -- phase 3 gathers from the phase before, which is not below `s`
        have hne : s ≠ t := by rintro rfl; exact hphase h3
        exact ih (t - 1) (by omega) (by omega) hsent

/-! ## The slow path -/

/-- nothing sent at a phase 2 exceeds what a quorum of that phase gathers from phase 1 -/
theorem slow_top (hspread : Spreading n h) {s : ℕ} (h2 : s % 4 = 2) {p q : Proposal V}
    (hp : BestPrior n h s p) (hq : h.sent s q) : q ≤ p := by
  obtain ⟨s, rfl⟩ : ∃ t, s = t + 1 := ⟨s - 1, by omega⟩
  obtain ⟨Q, hQ, -, hmax⟩ := hp
  obtain ⟨R, hR, hacc⟩ := hspread s q hq (by omega)
  obtain ⟨j, hjQ, hjR⟩ := quorum_inter hQ.1 hR
  obtain ⟨x, hqx, hx⟩ := hacc j hjR
  obtain ⟨m, hm, hxm⟩ := le_aggOf hx
  exact hqx.trans (hxm.trans (hmax j hjQ m hm))

/-- after a slow decision on `p`, phase 3 gathers `p` and nothing else -/
theorem slow_gather (hs : Sound n h) (hspread : Spreading n h) {s : ℕ} {p q : Proposal V}
    (hp : SlowWit n h s p) (hcov : Spread n h s p) (hq : BestPrior n h (s + 1) q) : q = p := by
  obtain ⟨h2, -, hbest⟩ := hp
  obtain ⟨Q, hQ, ⟨i, hi, hiq⟩, hmax⟩ := hq
  obtain ⟨R, hR, hacc⟩ := hcov
  have hle : q ≤ p := slow_top hspread h2 hbest (hs.prior_sent hiq)
  obtain ⟨j, hjQ, hjR⟩ := quorum_inter hQ.1 hR
  obtain ⟨x, hpx, hx⟩ := hacc j hjR
  obtain ⟨m, hm, hxm⟩ := le_aggOf hx
  exact le_antisymm hle (hpx.trans (hxm.trans (hmax j hjQ m hm)))

/-- after a slow decision, every request of a later round carries its value -/
theorem slow_later (hs : Sound n h) (hspread : Spreading n h) {s : ℕ} {p : Proposal V}
    (hp : SlowWit n h s p) (hcov : Spread n h s p) {t : ℕ} {q : Proposal V} (ht : s + 2 ≤ t) (hq : h.sent t q) :
    q.value = p.value := by
  have h4 : 4 ≤ s := hs.four_le s p hp.2.1
  have h2 : s % 4 = 2 := hp.1
  refine hs.value_persists (s := s + 2) (by omega) (fun x hx => ?_) (by omega) ht hq
  obtain ⟨x', hx', hv, -⟩ := hs.works (s + 1) x hx (by omega)
  have hprior : BestPrior n h (s + 1) x' := by
    unfold Template at hx'
    rw [show (s + 1) % 4 = 3 by omega] at hx'
    exact hx'
  rw [← hv, slow_gather hs hspread hp hcov hprior]

/-! ## The fast path -/

omit [LinearOrder V] in
/-- **Two fast decisions are on one proposal**: the first value of a step is written once. -/
theorem fast_fast {p q : Proposal V} (hp : FastWit n h p) (hq : FastWit n h q) : p = q := by
  obtain ⟨-, Q, hQ, hQp⟩ := hp
  obtain ⟨-, R, hR, hRq⟩ := hq
  obtain ⟨j, hjQ, hjR⟩ := quorum_inter hQ hR
  exact Option.some_injective _ ((hQp j hjQ).symm.trans (hRq j hjR))

/-- after a fast decision on the greatest proposal of step 4, every request past step 4 carries its value -/
theorem fast_later (hs : Sound n h) {p : Proposal V} (hp : FastWit n h p)
    (htop : ∀ q, h.sent FIRST_ROUND_STEP q → q ≤ p) {t : ℕ} {q : Proposal V} (ht : 5 ≤ t) (hq : h.sent t q) :
    q.value = p.value := by
  obtain ⟨-, R, hR, hfirst⟩ := hp
  refine hs.value_persists (s := 5) (by omega) (fun x hx => ?_) (by omega) ht hq
  obtain ⟨x', hx', hv, -⟩ := hs.works 4 x hx le_rfl
  obtain ⟨Q, hQ, ⟨i, -, hix⟩, hmax⟩ : BestFirst n h 4 x' := hx'
  obtain ⟨j, hjQ, hjR⟩ := quorum_inter hQ.1 hR
  have hle : x' ≤ p := htop x' (hs.first_sent hix)
  have hge : p ≤ x' := hmax j hjQ p (hfirst j hjR)
  rw [← hv, le_antisymm hle hge]

/-! ## Agreement -/

theorem slow_slow (hs : Sound n h) (hspread : Spreading n h) {s t : ℕ} {p q : Proposal V}
    (hp : SlowWit n h s p) (hpc : Spread n h s p) (hq : SlowWit n h t q) (hst : s ≤ t) : p.value = q.value := by
  rcases hst.eq_or_lt with rfl | hlt
  · have hqp : q ≤ p := slow_top hspread hp.1 hp.2.2 hq.2.1
    have hpq : p ≤ q := slow_top hspread hp.1 hq.2.2 hp.2.1
    rw [le_antisymm hpq hqp]
  · have hs2 := hp.1
    have ht2 := hq.1
    exact (slow_later hs hspread hp hpc (by omega) hq.2.1).symm

theorem fast_slow (hs : Sound n h) (htop : FastTop n h) {s : ℕ} {p q : Proposal V}
    (hp : FastWit n h p) (hq : SlowWit n h s q) : p.value = q.value := by
  have h4 : 4 ≤ s := hs.four_le s q hq.2.1
  have h2 := hq.1
  exact (fast_later hs hp (htop p hp) (by omega) hq.2.1).symm

/-- **Agreement of one slot.** -/
theorem agreement (hs : Sound n h) (hspread : Spreading n h) (htop : FastTop n h) {v w : V}
    (hv : Decides n h v) (hw : Decides n h w) : v = w := by
  rcases hv with ⟨p, hp, rfl⟩ | ⟨s, p, hp, hpc, rfl⟩ <;> rcases hw with ⟨q, hq, rfl⟩ | ⟨t, q, hq, hqc, rfl⟩
  · rw [fast_fast hp hq]
  · exact fast_slow hs htop hp hq
  · exact (fast_slow hs htop hq hp).symm
  · rcases le_total s t with hst | hts
    · exact slow_slow hs hspread hp hpc hq hst
    · exact (slow_slow hs hspread hq hqc hp hts).symm

end Agreement

end Queso
