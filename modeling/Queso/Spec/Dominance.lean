/-
The TLA+ model `QuePaxaConcrete` is safe.

A `Log` is the calls each recorder served. Read with `Proposal.enc`, which packs priority and proposer into one integer and
leaves the reserved priority out, it is the history of a slot (`Log.hist`), and the agreement argument of `Hist` applies:
the registers are the register's summary of the log, a working proposal is one that a quorum of the step before yields, a
decision was gathered and spread. What the packing needs is that within a step one proposer sends one value (`Log.unique`).

- `called_inv`, `processed_inv`: a call, and a quorum of replies, keep the invariant;
- `Inv.asserts`: no assertion inside an action fails;
- `concrete_safe`: in every reachable state all invariants hold, and every step keeps decisions and clocks.
-/
import Queso.Consensus.Isr
import Queso.Consensus.Rounds
import Queso.Spec.Concrete
import Mathlib.Order.WellFounded

namespace Queso.Spec.Concrete

open Register Quorum

variable {R V : Type} {NP : ℕ}

/-! ## The packed order -/

/-- priority and proposer in one integer -/
def Proposal.code (p : Proposal NP V) : ℕ := p.pri * NP + p.org

theorem code_lt {a b : ℕ} {i j : Fin NP} : a * NP + i.val < b * NP + j.val ↔ a < b ∨ a = b ∧ i < j := by
  have hi := i.isLt
  have hj := j.isLt
  rcases lt_trichotomy a b with hlt | rfl | hlt
  · have hle : (a + 1) * NP ≤ b * NP := Nat.mul_le_mul_right NP hlt
    rw [Nat.add_mul] at hle
    simp only [hlt, true_or, iff_true]
    omega
  · simp
  · have hle : (b + 1) * NP ≤ a * NP := Nat.mul_le_mul_right NP hlt
    rw [Nat.add_mul] at hle
    constructor
    · omega
    · rintro (h | ⟨rfl, -⟩) <;> omega

theorem better_iff {p q : Proposal NP V} : Better p q ↔ q.code < p.code := by
  unfold Proposal.code Better
  rw [code_lt, eq_comm]

theorem code_inj {p q : Proposal NP V} (h : p.code = q.code) : p.pri = q.pri ∧ p.org = q.org := by
  have hp : ¬Better p q := fun hb => (better_iff.1 hb).ne' h
  have hq : ¬Better q p := fun hb => (better_iff.1 hb).ne h
  unfold Better at hp hq
  have hpri : p.pri = q.pri := by omega
  refine ⟨hpri, le_antisymm (not_lt.1 fun hlt => hp (.inr ⟨hpri, hlt⟩)) (not_lt.1 fun hlt => hq (.inr ⟨hpri.symm, hlt⟩))⟩

/-- a proposal of the model as one of the protocol; no priority is `H` -/
def Proposal.enc (p : Proposal NP V) : Queso.Proposal V := ⟨p.val, 0, p.code⟩

theorem enc_injective {p q : Proposal NP V} (h : p.enc = q.enc) : p = q := by
  obtain ⟨hv, -, hcode⟩ := Queso.Proposal.mk.inj h
  obtain ⟨hpri, horg⟩ := code_inj hcode
  cases p; cases q
  simp_all

/-! ## The log -/

/-- the calls each recorder served -/
abbrev Log (R V : Type) (NP : ℕ) := R → List (ℕ × Proposal NP V)

namespace Log

def calls (l : Log R V NP) (r : R) : List (ℕ × Queso.Proposal V) := (l r).map fun c => (c.1, c.2.enc)

/-- some recorder served the call -/
def Sent (l : Log R V NP) (st : ℕ) (p : Proposal NP V) : Prop := ∃ r, (st, p) ∈ l r

theorem mem_calls {l : Log R V NP} {r : R} {st : ℕ} {q : Queso.Proposal V} :
    (st, q) ∈ l.calls r ↔ ∃ p, (st, p) ∈ l r ∧ p.enc = q := by
  unfold calls
  simp only [List.mem_map, Prod.mk.injEq]
  constructor
  · rintro ⟨⟨s, p⟩, hc, rfl, rfl⟩
    exact ⟨p, hc, rfl⟩
  · rintro ⟨p, hc, rfl⟩
    exact ⟨(st, p), hc, rfl, rfl⟩

variable [Fintype R]

/-- the place of a recorder in the membership -/
noncomputable def place (r : R) : ℕ := Fintype.equivFin R r

/-- the history of the slot -/
noncomputable def hist (l : Log R V NP) : Hist V where
  calls j := if h : j < Fintype.card R then l.calls ((Fintype.equivFin R).symm ⟨j, h⟩) else []
  sent st q := ∃ p, l.Sent st p ∧ p.enc = q

theorem hist_calls (l : Log R V NP) (r : R) : l.hist.calls (place r) = l.calls r := by
  have hlt : place r < Fintype.card R := (Fintype.equivFin R r).isLt
  refine (dif_pos hlt).trans ?_
  show l.calls ((Fintype.equivFin R).symm (Fintype.equivFin R r)) = _
  rw [Equiv.symm_apply_apply]

/-- a member of the membership is the place of a recorder -/
theorem place_of_lt {j : ℕ} (h : j < Fintype.card R) : ∃ r : R, place r = j :=
  ⟨(Fintype.equivFin R).symm ⟨j, h⟩, by simp [place]⟩

omit [Fintype R] in
theorem sent_of_accepted {l : Log R V NP} {r : R} {st : ℕ} {q : Queso.Proposal V} (h : (st, q) ∈ accepted (l.calls r)) :
    ∃ p, l.Sent st p ∧ p.enc = q := by
  obtain ⟨p, hp, rfl⟩ := mem_calls.1 (mem_of_accepted h)
  exact ⟨p, ⟨r, hp⟩, rfl⟩

theorem hist_accepted {l : Log R V NP} {j : NodeId} {st : ℕ} {q : Queso.Proposal V}
    (h : (st, q) ∈ accepted (l.hist.calls j)) : l.hist.sent st q := by
  by_cases hj : j < Fintype.card R
  · obtain ⟨r, rfl⟩ := place_of_lt (R := R) hj
    rw [hist_calls] at h
    exact sent_of_accepted h
  · have hnil : l.hist.calls j = [] := dif_neg hj
    rw [hnil] at h
    cases h

theorem hist_sent {l : Log R V NP} {st : ℕ} {p : Proposal NP V} : l.hist.sent st p.enc ↔ l.Sent st p := by
  constructor
  · rintro ⟨q, hq, heq⟩
    rwa [← enc_injective heq]
  · exact fun h => ⟨p, h, rfl⟩

/-- a quorum of recorders, by their places -/
theorem quorum_of {Q : Finset R} (h : Quorum R ≤ Q.card) : IsQuorum (Fintype.card R) (Q.image place) := by
  classical
  refine ⟨fun j hj => ?_, ?_⟩
  · obtain ⟨r, -, rfl⟩ := Finset.mem_image.1 hj
    exact Finset.mem_range.2 (Fintype.equivFin R r).isLt
  · rw [Finset.card_image_of_injective]
    · exact h
    · exact fun a b hab => (Fintype.equivFin R).injective (Fin.ext hab)

/-- `l'` continues `l` -/
def Le (l l' : Log R V NP) : Prop := ∀ r, ∃ m, l' r = l r ++ m

omit [Fintype R] in
theorem Le.calls {l l' : Log R V NP} (h : l.Le l') (r : R) : ∃ m, l'.calls r = l.calls r ++ m := by
  obtain ⟨m, hm⟩ := h r
  exact ⟨m.map fun c => (c.1, c.2.enc), by unfold Log.calls; rw [hm, List.map_append]⟩

omit [Fintype R] in
theorem Le.sent {l l' : Log R V NP} (h : l.Le l') {st : ℕ} {p : Proposal NP V} (hp : l.Sent st p) : l'.Sent st p := by
  obtain ⟨r, hr⟩ := hp
  obtain ⟨m, hm⟩ := h r
  exact ⟨r, by rw [hm]; exact List.mem_append_left _ hr⟩

theorem Le.hist {l l' : Log R V NP} (h : l.Le l') : l.hist.Le l'.hist where
  calls := fun j => by
    by_cases hj : j < Fintype.card R
    · obtain ⟨r, rfl⟩ := place_of_lt (R := R) hj
      rw [hist_calls, hist_calls]
      exact h.calls r
    · exact ⟨[], by simp [Log.hist, hj]⟩
  sent := fun st q ⟨p, hp, hq⟩ => ⟨p, h.sent hp, hq⟩

/-- one more call -/
def add [DecidableEq R] (l : Log R V NP) (r : R) (st : ℕ) (p : Proposal NP V) : Log R V NP :=
  Function.update l r (l r ++ [(st, p)])

variable [DecidableEq R] {l : Log R V NP} {r : R} {st : ℕ} {p : Proposal NP V}

omit [Fintype R] in
theorem le_add : l.Le (l.add r st p) := fun x => by
  unfold add
  by_cases hx : x = r
  · subst hx
    exact ⟨[(st, p)], by simp⟩
  · exact ⟨[], by simp [hx]⟩

omit [Fintype R] in
theorem add_self : (l.add r st p).calls r = l.calls r ++ [(st, p.enc)] := by
  unfold calls add
  simp

omit [Fintype R] in
theorem add_other {x : R} (hx : x ≠ r) : (l.add r st p).calls x = l.calls x := by
  unfold calls add
  simp [hx]

omit [Fintype R] in
theorem sent_add {st' : ℕ} {q : Proposal NP V} : (l.add r st p).Sent st' q ↔ l.Sent st' q ∨ st' = st ∧ q = p := by
  unfold Sent add
  constructor
  · rintro ⟨x, hx⟩
    by_cases hxr : x = r
    · subst hxr
      rw [Function.update_self, List.mem_append, List.mem_singleton] at hx
      rcases hx with hx | hx
      · exact .inl ⟨x, hx⟩
      · obtain ⟨rfl, rfl⟩ := Prod.mk.inj hx
        exact .inr ⟨rfl, rfl⟩
    · rw [Function.update_of_ne hxr] at hx
      exact .inl ⟨x, hx⟩
  · rintro (⟨x, hx⟩ | ⟨rfl, rfl⟩)
    · by_cases hxr : x = r
      · subst hxr
        exact ⟨x, by rw [Function.update_self]; exact List.mem_append_left _ hx⟩
      · exact ⟨x, by rw [Function.update_of_ne hxr]; exact hx⟩
    · exact ⟨r, by rw [Function.update_self]; simp⟩

end Log

/-! ## The invariant -/

section Invariant

variable [Fintype R] [LinearOrder V] {s s' : State R V NP} {l l' : Log R V NP}

/-- what a buffered reply of recorder `x` is worth to a proposer at step `st` with the working proposal `prop` -/
structure ReplyOk (l : Log R V NP) (st : ℕ) (prop : Proposal NP V) (x : R) (y : Reply NP V) : Prop where
  ahead : st ≤ y.st
  visited : Visited (l.calls x) y.st
  first : st < y.st ∨ st % 4 = 0 → ∃ f, y.f = some f ∧ firstOf (l.calls x) y.st = some f.enc
  took : y.st = st → st % 4 ≠ 0 → (st, prop.enc) ∈ accepted (l.calls x)
  prior : y.st = st → st % 4 = 2 ∨ st % 4 = 3 → y.a.map Proposal.enc = priorOf (l.calls x) st

/-- a decision was gathered and spread -/
def Settled (l : Log R V NP) (st : ℕ) (p : Proposal NP V) : Prop :=
  SlowWit (Fintype.card R) l.hist st p.enc ∧ Spread (Fintype.card R) l.hist st p.enc

/-- the log is the past of a slot, in which a proposer sends one value at each phase 0 -/
structure Past (l : Log R V NP) : Prop where
  sound : Sound (Fintype.card R) l.hist
  spreading : Spreading (Fintype.card R) l.hist
  same : ∀ st p q, l.Sent st p → l.Sent st q → st % 4 = 0 → p.org = q.org → p.val = q.val

/-- where a proposer with the working proposal `prop` can be: what it carries was yielded by the step before -/
structure Stands (l : Log R V NP) (st : ℕ) (prop : Proposal NP V) : Prop where
  four_le : 4 ≤ st
  works : 4 < st → Works (Fintype.card R) l.hist (st - 1) prop.enc
  spread : st % 4 = 2 → Spread (Fintype.card R) l.hist (st - 1) prop.enc

structure Inv (s : State R V NP) (l : Log R V NP) : Prop where
  past : Past l
  regs : ∀ r, Isr.replay (l.calls r) =
    ⟨s.rS r, (s.rF r).map Proposal.enc, (s.rAc r).map Proposal.enc, (s.rAp r).map Proposal.enc⟩
  turns : ∀ st p, l.Sent st p → st % 4 = 0 →
    st < s.pStep p.org ∨ st = s.pStep p.org ∧ p.val = (s.pProp p.org).val
  stands : ∀ i, Stands l (s.pStep i) (s.pProp i)
  replies : ∀ i x y, s.pReplies i x = some y → ReplyOk l (s.pStep i) (s.pProp i) x y
  few : ∀ i, (Dom (s.pReplies i)).card < Quorum R
  undecided : ∀ i, s.pDecStep i = 0 → s.pDec i = none
  decided : ∀ i, s.pDecStep i ≠ 0 →
    s.pDecStep i = s.pStep i ∧ s.pDec i = some (s.pProp i).val ∧ Settled l (s.pStep i) (s.pProp i)

/-! ## Growth -/

omit [Fintype R] in
theorem ReplyOk.mono {st : ℕ} {prop : Proposal NP V} {x : R} {y : Reply NP V} (h : ReplyOk l st prop x y)
    (hle : l.Le l') : ReplyOk l' st prop x y := by
  obtain ⟨m, hm⟩ := hle.calls x
  refine ⟨h.ahead, by rw [hm]; exact h.visited.append m, fun hf => ?_, fun h1 h2 => ?_, fun h1 h2 => ?_⟩
  · obtain ⟨f, hf, hfirst⟩ := h.first hf
    exact ⟨f, hf, by rw [hm, firstOf_append h.visited, hfirst]⟩
  · rw [hm]
    exact mem_accepted_append (h.took h1 h2) m
  · rw [hm, priorOf_append (h1 ▸ h.visited)]
    exact h.prior h1 h2

theorem Settled.mono {st : ℕ} {p : Proposal NP V} (h : Settled l st p) (hle : l.Le l') : Settled l' st p :=
  ⟨h.1.mono hle.hist, h.2.mono hle.hist⟩

theorem Stands.mono {st : ℕ} {prop : Proposal NP V} (h : Stands l st prop) (hle : l.Le l') : Stands l' st prop :=
  ⟨h.four_le, fun h4 => (h.works h4).mono hle.hist, fun h2 => (h.spread h2).mono hle.hist⟩

/-! ## One value for each priority and proposer -/

/-- what is sent in phases 1 to 3 was sent in phase 0 of the round -/
theorem Past.sent_base (h : Past l) {st : ℕ} {p : Proposal NP V} (hp : l.Sent st p) : l.Sent (st - st % 4) p := by
  have hkey : ∀ k st, st % 4 = k → ∀ p : Proposal NP V, l.Sent st p → l.Sent (st - k) p := by
    intro k
    induction k with
    | zero => exact fun st _ p hp => hp
    | succ k ih =>
      intro st hk p hp
      have h4 := h.sound.four_le st p.enc (Log.hist_sent.2 hp)
      obtain ⟨t, rfl⟩ : ∃ t, st = t + 1 := ⟨st - 1, by omega⟩
      obtain ⟨q, hq, -, heq⟩ := h.sound.works t p.enc (Log.hist_sent.2 hp) (by omega)
      rw [heq (by omega)] at hq
      rcases h.sound.template_sent hq with hsent | ⟨h3, -⟩
      · have := ih t (by omega) p (Log.hist_sent.1 hsent)
        rwa [show t + 1 - (k + 1) = t - k by omega]
      · omega
  exact hkey _ st rfl p hp

/-- **Within a step, priority and proposer determine the proposal.** -/
theorem Past.unique (h : Past l) {st : ℕ} {p q : Proposal NP V} (hp : l.Sent st p) (hq : l.Sent st q)
    (hcode : p.code = q.code) : p = q := by
  obtain ⟨hpri, horg⟩ := code_inj hcode
  have hval := h.same _ p q (h.sent_base hp) (h.sent_base hq) (by omega) horg
  cases p; cases q
  simp_all

theorem Past.enc_le (h : Past l) {st : ℕ} {p q : Proposal NP V} (hp : l.Sent st p) (hq : l.Sent st q) :
    p.enc ≤ q.enc ↔ ¬Better p q := by
  rw [better_iff, not_lt]
  constructor
  · intro hle
    rcases Proposal.le_iff.1 hle with hlt | ⟨-, hlt | ⟨heq, -⟩⟩
    · exact absurd hlt (lt_irrefl 0)
    · exact le_of_lt hlt
    · exact le_of_eq heq
  · intro hle
    rcases hle.eq_or_lt with heq | hlt
    · rw [h.unique hp hq heq]
    · exact Proposal.le_iff.2 (.inr ⟨rfl, .inl hlt⟩)

/-- a set of proposals sent at one step has a best one, and it is the greatest -/
theorem Past.best (h : Past l) {st : ℕ} (d : Proposal NP V) {S : Set (Proposal NP V)} (hfin : S.Finite)
    (hne : S.Nonempty) (hS : ∀ p ∈ S, l.Sent st p) :
    BestOf d S ∈ S ∧ ∀ q ∈ S, q.enc ≤ (BestOf d S).enc := by
  obtain ⟨m, hm, hmax⟩ := Set.exists_max_image S Proposal.code hfin hne
  have hspec : BestOf d S ∈ S ∧ ∀ q ∈ S, ¬Better q (BestOf d S) :=
    @Classical.epsilon_spec _ (fun p => p ∈ S ∧ ∀ q ∈ S, ¬Better q p)
      ⟨m, hm, fun q hq hb => absurd (better_iff.1 hb) (not_lt.2 (hmax q hq))⟩
  exact ⟨hspec.1, fun q hq => (h.enc_le (hS q hq) (hS _ hspec.1)).2 (hspec.2 q hq)⟩

/-- the registers are the summary of the log -/
theorem Inv.reg (h : Inv s l) (r : R) : stepOf (l.calls r) = s.rS r ∧
    (s.rF r).map Proposal.enc = firstOf (l.calls r) (s.rS r) ∧ (s.rAc r).map Proposal.enc = aggOf (l.calls r) (s.rS r) ∧
    (s.rAp r).map Proposal.enc = priorOf (l.calls r) (s.rS r) := by
  have hregs := h.regs r
  rw [replay_eq] at hregs
  injection hregs with hstep hfirst hagg hprior
  rw [hstep] at hfirst hagg hprior
  exact ⟨hstep, hfirst.symm, hagg.symm, hprior.symm⟩

end Invariant

/-! ## A call -/

section Call

variable [Fintype R] [DecidableEq R] [LinearOrder V] {s s' : State R V NP} {l l' : Log R V NP} {i : Fin NP} {r : R}
  {pr : ℕ}

omit [Fintype R] [DecidableEq R] [LinearOrder V] in
theorem request_val : (s.request i pr).val = (s.pProp i).val := by
  unfold State.request
  split_ifs <;> rfl

omit [Fintype R] [DecidableEq R] [LinearOrder V] in
theorem request_working (h : s.pStep i % 4 ≠ 0) : s.request i pr = s.pProp i := if_neg h

omit [Fintype R] [DecidableEq R] [LinearOrder V] in
theorem request_org (h : s.pStep i % 4 = 0) : (s.request i pr).org = i := by
  unfold State.request
  rw [if_pos h]

/-- the log after the call -/
def logged (s : State R V NP) (l : Log R V NP) (i : Fin NP) (r : R) (pr : ℕ) : Log R V NP :=
  l.add r (s.pStep i) (s.request i pr)

variable (i r pr) in
theorem Inv.past_call (h : Inv s l) : Past (logged s l i r pr) := by
  have hle : l.Le (logged s l i r pr) := Log.le_add
  have hstands := h.stands i
  have hsent : ∀ {st q}, (logged s l i r pr).hist.sent st q →
      l.hist.sent st q ∨ st = s.pStep i ∧ q = (s.request i pr).enc := by
    rintro st q ⟨p, hp, rfl⟩
    rcases Log.sent_add.1 hp with hp | ⟨rfl, rfl⟩
    · exact .inl ⟨p, hp, rfl⟩
    · exact .inr ⟨rfl, rfl⟩
  refine ⟨⟨fun j st p => Log.hist_accepted, fun st p hp => ?_, fun st p hp h4 => ?_, fun st p hp _ _ => ?_⟩,
    fun st p hp h1 => ?_, fun st p q hp hq h0 horg => ?_⟩
  · rcases hsent hp with hp | ⟨rfl, -⟩
    · exact h.past.sound.four_le st p hp
    · exact hstands.four_le
  · rcases hsent hp with hp | ⟨hst, rfl⟩
    · exact (h.past.sound.works st p hp h4).mono hle.hist
    · -- phase 0 draws a new priority for the value the quorum yielded
      have hworks := (hstands.works (by omega)).mono hle.hist
      rw [← hst, Nat.add_sub_cancel] at hworks
      obtain ⟨q, hq, hval, heq⟩ := hworks
      refine ⟨q, hq, hval.trans request_val.symm, fun hne => ?_⟩
      rw [request_working (hst ▸ hne)]
      exact heq hne
  · obtain ⟨q, -, rfl⟩ := hp
    show 0 < H
    decide
  · rcases hsent hp with hp | ⟨hst, rfl⟩
    · exact (h.past.spreading st p hp h1).mono hle.hist
    · have hspread := hstands.spread (by omega)
      rw [← hst, Nat.add_sub_cancel] at hspread
      rw [request_working (by omega)]
      exact hspread.mono hle.hist
  · -- a proposer sends the value it works with, and it is at the step once
    rcases Log.sent_add.1 hp with hp | ⟨hst, rfl⟩ <;> rcases Log.sent_add.1 hq with hq | ⟨hst', rfl⟩
    · exact h.past.same st p q hp hq h0 horg
    · subst hst'
      rw [request_org h0] at horg
      rcases h.turns _ p hp h0 with hlt | ⟨-, hval⟩
      · rw [horg] at hlt
        exact absurd hlt (lt_irrefl _)
      · rw [hval, horg, request_val]
    · subst hst
      rw [request_org h0] at horg
      rcases h.turns _ q hq h0 with hlt | ⟨-, hval⟩
      · rw [← horg] at hlt
        exact absurd hlt (lt_irrefl _)
      · rw [hval, ← horg, request_val]
    · rfl

/-- **The register of the model is the register of the protocol**, on proposals of one step. -/
theorem Inv.regs_call (h : Inv s l) (x : R) :
    Isr.replay ((logged s l i r pr).calls x) =
      ⟨(called s i r pr).rS x, ((called s i r pr).rF x).map Proposal.enc, ((called s i r pr).rAc x).map Proposal.enc,
        ((called s i r pr).rAp x).map Proposal.enc⟩ := by
  by_cases hx : x = r
  · subst hx
    unfold called State.served logged
    simp only [Function.update_self]
    rw [Log.add_self, Isr.replay_snoc, h.regs x]
    unfold Isr.recorded
    dsimp only
    rcases lt_trichotomy (s.pStep i) (s.rS x) with hlt | heq | hgt
    · simp [hlt, hlt.ne, not_lt.2 hlt.le]
    · have hpast := h.past_call i x pr
      obtain ⟨-, -, hagg, -⟩ := h.reg x
      cases ha : s.rAc x with
      | none => simp [heq, maxOption, AggMax]
      | some a =>
        -- both were sent at this step
        have hsent : (logged s l i x pr).Sent (s.pStep i) a := by
          rw [ha, ← heq] at hagg
          have hacc := (aggOf_eq_some.1 hagg.symm).1
          obtain ⟨p, hp, hpa⟩ := Log.sent_of_accepted hacc
          rw [enc_injective hpa] at hp
          exact Log.sent_add.2 (.inl hp)
        have hle := hpast.enc_le (Log.sent_add.2 (.inr ⟨rfl, rfl⟩)) hsent
        by_cases hb : Better (s.request i pr) a
        · simp [heq, maxOption, AggMax, hb, mt hle.1 (not_not.2 hb)]
        · simp [heq, maxOption, AggMax, hb, hle.2 hb]
    · have hne : s.pStep i ≠ s.rS x := hgt.ne'
      by_cases h1 : s.pStep i = s.rS x + 1
      · simp [h1]
      · simp [hgt, hne, h1, not_lt.2 hgt.le]
  · unfold called State.served logged
    simp only [Function.update_of_ne hx]
    rw [Log.add_other hx]
    exact h.regs x

variable (i r pr) in
theorem called_inv (h : Inv s l) : Inv (called s i r pr) (logged s l i r pr) where
  past := h.past_call i r pr
  regs := h.regs_call
  turns := fun st p hp h0 => by
    rcases Log.sent_add.1 hp with hp | ⟨rfl, rfl⟩
    · exact h.turns st p hp h0
    · rw [request_org h0]
      exact .inr ⟨rfl, request_val⟩
  stands := fun k => (h.stands k).mono Log.le_add
  replies := fun k x y hy => (h.replies k x y hy).mono Log.le_add
  few := h.few
  undecided := h.undecided
  decided := fun k hk => by
    obtain ⟨hstep, hdec, hsettled⟩ := h.decided k hk
    exact ⟨hstep, hdec, hsettled.mono Log.le_add⟩

variable (s i r pr) in
omit [Fintype R] [LinearOrder V] in
theorem le_called : s.pStep i ≤ (called s i r pr).rS r := by
  unfold called State.served
  simp only [Function.update_self]
  split_ifs with h
  · exact le_rfl
  · exact not_lt.1 h

/-- **The reply of a call** is worth what it says. -/
theorem stored_ok (h : Inv s l) :
    ReplyOk (logged s l i r pr) (s.pStep i) (s.pProp i) r ((called s i r pr).stored (s.pStep i) r) := by
  have hle := le_called s i r pr
  have h4 := (h.stands i).four_le
  obtain ⟨hstep, hfirst, -, hprior⟩ := (called_inv i r pr h).reg r
  have hvisited : Visited ((logged s l i r pr).calls r) ((called s i r pr).rS r) := by
    rw [← hstep]
    exact visited_stepOf (by omega)
  refine ⟨hle, hvisited, fun hf => ?_, fun hst hne => ?_, fun hst hph => ?_⟩
  · obtain ⟨q, hq⟩ := hvisited.firstOf (by omega)
    rw [hq] at hfirst
    obtain ⟨f, hrf, rfl⟩ := Option.map_eq_some_iff.1 hfirst
    exact ⟨f, (if_pos hf).trans hrf, hq⟩
  · have hnot : ¬ s.pStep i < stepOf (l.calls r) := by
      have := le_stepOf_snoc (l.calls r) (s.pStep i, (s.request i pr).enc)
      rw [← Log.add_self] at this
      have hst : (called s i r pr).rS r = s.pStep i := hst
      have : stepOf (l.calls r) ≤ stepOf ((logged s l i r pr).calls r) := this
      omega
    show _ ∈ accepted ((l.add r _ _).calls r)
    rw [Log.add_self, accepted_snoc, if_neg hnot, request_working hne]
    exact List.mem_append_right _ (List.mem_singleton_self _)
  · have hst : (called s i r pr).rS r = s.pStep i := hst
    have ha : ((called s i r pr).stored (s.pStep i) r).a = (called s i r pr).rAp r := if_pos ⟨hst, hph⟩
    rw [ha, hprior, hst]

end Call

/-! ## A quorum of replies -/

section Process

variable [Fintype R] [LinearOrder V] {s s' : State R V NP} {l : Log R V NP} {i : Fin NP} {Rm : Replies R V NP}

/-- the proposer goes to a later step where it can be -/
theorem moved_inv (h : Inv s l) (hund : s.pDecStep i = 0) {ns : ℕ} {np : Proposal NP V} (hlt : s.pStep i < ns)
    (hstands : Stands l ns np) : Inv (s.moveTo i ns np) l where
  past := h.past
  regs := h.regs
  turns := fun st p hp h0 => by
    show st < Function.update s.pStep i ns p.org ∨
      st = Function.update s.pStep i ns p.org ∧ p.val = (Function.update s.pProp i np p.org).val
    by_cases horg : p.org = i
    · rw [horg, Function.update_self]
      have := h.turns st p hp h0
      rw [horg] at this
      omega
    · rw [Function.update_of_ne horg, Function.update_of_ne horg]
      exact h.turns st p hp h0
  stands := fun k => by
    show Stands l (Function.update s.pStep i ns k) (Function.update s.pProp i np k)
    by_cases hk : k = i
    · subst hk
      rw [Function.update_self, Function.update_self]
      exact hstands
    · rw [Function.update_of_ne hk, Function.update_of_ne hk]
      exact h.stands k
  replies := fun k x y hy => by
    have hy : Function.update s.pReplies i (fun _ => none) k x = some y := hy
    show ReplyOk l (Function.update s.pStep i ns k) (Function.update s.pProp i np k) x y
    by_cases hk : k = i
    · subst hk
      rw [Function.update_self] at hy
      cases hy
    · rw [Function.update_of_ne hk] at hy
      rw [Function.update_of_ne hk, Function.update_of_ne hk]
      exact h.replies k x y hy
  few := fun k => by
    show (Dom (Function.update s.pReplies i (fun _ => none) k)).card < _
    by_cases hk : k = i
    · subst hk
      rw [Function.update_self]
      simp [Dom, Quorum]
    · rw [Function.update_of_ne hk]
      exact h.few k
  undecided := h.undecided
  decided := fun k hk => by
    have hne : k ≠ i := fun heq => hk (heq ▸ hund)
    show s.pDecStep k = Function.update s.pStep i ns k ∧
      s.pDec k = some (Function.update s.pProp i np k).val ∧
        Settled l (Function.update s.pStep i ns k) (Function.update s.pProp i np k)
    rw [Function.update_of_ne hne, Function.update_of_ne hne]
    exact h.decided k hk

theorem decide_inv (h : Inv s l) (hsettled : Settled l (s.pStep i) (s.pProp i)) : Inv (s.decide i) l where
  past := h.past
  regs := h.regs
  turns := h.turns
  stands := h.stands
  replies := fun k x y hy => by
    have hy : Function.update s.pReplies i (fun _ => none) k x = some y := hy
    by_cases hk : k = i
    · subst hk
      rw [Function.update_self] at hy
      cases hy
    · rw [Function.update_of_ne hk] at hy
      exact h.replies k x y hy
  few := fun k => by
    show (Dom (Function.update s.pReplies i (fun _ => none) k)).card < _
    by_cases hk : k = i
    · subst hk
      rw [Function.update_self]
      simp [Dom, Quorum]
    · rw [Function.update_of_ne hk]
      exact h.few k
  undecided := fun k hk => by
    have hk : Function.update s.pDecStep i (s.pStep i) k = 0 := hk
    show Function.update s.pDec i _ k = none
    by_cases hki : k = i
    · subst hki
      rw [Function.update_self] at hk
      have := (h.stands k).four_le
      omega
    · rw [Function.update_of_ne hki] at hk ⊢
      exact h.undecided k hk
  decided := fun k hk => by
    have hk : Function.update s.pDecStep i (s.pStep i) k ≠ 0 := hk
    show Function.update s.pDecStep i (s.pStep i) k = s.pStep k ∧
      Function.update s.pDec i (some (s.pProp i).val) k = some (s.pProp k).val ∧ _
    by_cases hki : k = i
    · subst hki
      rw [Function.update_self, Function.update_self]
      exact ⟨rfl, rfl, hsettled⟩
    · rw [Function.update_of_ne hki] at hk
      rw [Function.update_of_ne hki, Function.update_of_ne hki]
      exact h.decided k hk

/-- every reply is worth what it says, and there are enough of them -/
structure QuorumOk (s : State R V NP) (l : Log R V NP) (i : Fin NP) (Rm : Replies R V NP) : Prop where
  each : ∀ x y, Rm x = some y → ReplyOk l (s.pStep i) (s.pProp i) x y
  enough : Quorum R ≤ (Dom Rm).card

omit [LinearOrder V] in
theorem mem_dom {x : R} : x ∈ Dom Rm ↔ ∃ y, Rm x = some y := by
  unfold Dom
  rw [Finset.mem_filter, Option.isSome_iff_exists]
  simp

theorem QuorumOk.exists_reply (hq : QuorumOk s l i Rm) : ∃ x y, Rm x = some y := by
  have hpos : 0 < (Dom Rm).card := lt_of_lt_of_le (Nat.succ_pos _) hq.enough
  obtain ⟨x, hx⟩ := Finset.card_pos.1 hpos
  exact ⟨x, mem_dom.1 hx⟩

/-- the replies, as recorders that reached the step -/
theorem QuorumOk.gathered (hq : QuorumOk s l i Rm) (hall : AllAt Rm (s.pStep i)) :
    Gathered (Fintype.card R) l.hist (s.pStep i) ((Dom Rm).image Log.place) := by
  refine ⟨Log.quorum_of hq.enough, fun j hj => ?_⟩
  obtain ⟨x, hx, rfl⟩ := Finset.mem_image.1 hj
  obtain ⟨y, hy⟩ := mem_dom.1 hx
  rw [Log.hist_calls, ← hall x y hy]
  exact (hq.each x y hy).visited

/-- past phase 0 a quorum at the step accepted the working proposal -/
theorem QuorumOk.spread (hq : QuorumOk s l i Rm) (hall : AllAt Rm (s.pStep i)) (hph : s.pStep i % 4 ≠ 0) :
    Spread (Fintype.card R) l.hist (s.pStep i) (s.pProp i).enc := by
  refine ⟨_, Log.quorum_of hq.enough, fun j hj => ?_⟩
  obtain ⟨x, hx, rfl⟩ := Finset.mem_image.1 hj
  obtain ⟨y, hy⟩ := mem_dom.1 hx
  rw [Log.hist_calls]
  exact ⟨_, le_rfl, (hq.each x y hy).took (hall x y hy) hph⟩

theorem QuorumOk.sent (hq : QuorumOk s l i Rm) (hall : AllAt Rm (s.pStep i)) (hph : s.pStep i % 4 ≠ 0) :
    l.hist.sent (s.pStep i) (s.pProp i).enc := by
  obtain ⟨x, y, hy⟩ := hq.exists_reply
  obtain ⟨p, hp, heq⟩ := Log.sent_of_accepted ((hq.each x y hy).took (hall x y hy) hph)
  exact ⟨p, hp, heq⟩

/-- the best of what the replies carry is the greatest the recorders report -/
theorem greatest_of (h : Past l) {st : ℕ} (d : Proposal NP V) {S : Set (Proposal NP V)} {F : Reply NP V → Option (Proposal NP V)}
    (hS : S = {p | ∃ x y, Rm x = some y ∧ F y = some p}) (hne : S.Nonempty) (hsent : ∀ p ∈ S, l.Sent st p)
    {f : NodeId → Option (Queso.Proposal V)}
    (hf : ∀ x y, Rm x = some y → (F y).map Proposal.enc = f (Log.place x)) :
    BestOf d S ∈ S ∧ Greatest f ((Dom Rm).image Log.place) (BestOf d S).enc := by
  subst hS
  have hfin : {p | ∃ x y, Rm x = some y ∧ F y = some p}.Finite := by
    refine (Set.finite_range fun x => ((Rm x).bind F).getD d).subset ?_
    rintro p ⟨x, y, hy, hp⟩
    exact ⟨x, by simp [hy, hp]⟩
  obtain ⟨hmem, hmax⟩ := h.best d hfin hne hsent
  refine ⟨hmem, ?_, fun j hj q hq => ?_⟩
  · obtain ⟨x, y, hy, hp⟩ := hmem
    exact ⟨Log.place x, Finset.mem_image_of_mem _ (mem_dom.2 ⟨y, hy⟩), by rw [← hf x y hy, hp]; rfl⟩
  · obtain ⟨x', hx', rfl⟩ := Finset.mem_image.1 hj
    obtain ⟨y', hy'⟩ := mem_dom.1 hx'
    rw [← hf x' y' hy'] at hq
    obtain ⟨p', hp', rfl⟩ := Option.map_eq_some_iff.1 hq
    exact hmax p' ⟨x', y', hy', hp'⟩

/-- phase 0 takes the best first value -/
theorem QuorumOk.bestFirst (hq : QuorumOk s l i Rm) (h : Past l) (hall : AllAt Rm (s.pStep i))
    (hph : s.pStep i % 4 = 0) : BestOf (s.pProp i) (Fs Rm) ∈ Fs Rm ∧
      BestFirst (Fintype.card R) l.hist (s.pStep i) (BestOf (s.pProp i) (Fs Rm)).enc := by
  have hfirst : ∀ x y, Rm x = some y → ∃ f, y.f = some f ∧ firstOf (l.calls x) (s.pStep i) = some f.enc := fun x y hy => by
    have := (hq.each x y hy).first (.inr hph)
    rwa [hall x y hy] at this
  have hne : (Fs Rm).Nonempty := by
    obtain ⟨x, y, hy⟩ := hq.exists_reply
    obtain ⟨f, hf, -⟩ := hfirst x y hy
    exact ⟨f, x, y, hy, hf⟩
  have hsent : ∀ p ∈ Fs Rm, l.Sent (s.pStep i) p := by
    rintro p ⟨x, y, hy, hp⟩
    obtain ⟨f, hf, hval⟩ := hfirst x y hy
    obtain rfl := Option.some.inj (hf.symm.trans hp)
    obtain ⟨q, hsent, heq⟩ := Log.sent_of_accepted (firstOf_mem hval)
    rwa [enc_injective heq] at hsent
  obtain ⟨hmem, hgreatest⟩ := greatest_of h (s.pProp i) (F := (·.f)) rfl hne hsent
    (f := fun j => firstOf (l.hist.calls j) (s.pStep i)) fun x y hy => by
      obtain ⟨f, hf, hval⟩ := hfirst x y hy
      rw [Log.hist_calls, hf, hval]
      rfl
  exact ⟨hmem, _, hq.gathered hall, hgreatest⟩

/-- **Lemma C.5.** A gather finds something: the step before was gathered by a quorum, too. -/
theorem QuorumOk.gather (hq : QuorumOk s l i Rm) (hstands : Stands l (s.pStep i) (s.pProp i))
    (hall : AllAt Rm (s.pStep i)) (hph : s.pStep i % 4 = 2 ∨ s.pStep i % 4 = 3) : (As Rm).Nonempty := by
  have h4 := hstands.four_le
  obtain ⟨q, htemplate, -⟩ := hstands.works (by omega)
  obtain ⟨Q, hQ⟩ := htemplate.gathered
  obtain ⟨j, hjQ, hj⟩ := quorum_inter hQ.1 (hq.gathered hall).1
  obtain ⟨x, hx, rfl⟩ := Finset.mem_image.1 hj
  obtain ⟨y, hy⟩ := mem_dom.1 hx
  obtain ⟨p, hp⟩ := hQ.2 _ hjQ
  rw [Log.hist_calls] at hp
  obtain ⟨m, hm, -⟩ := le_aggOf hp
  have hprior := (hq.each x y hy).prior (hall x y hy) hph
  obtain ⟨t, ht⟩ : ∃ t, s.pStep i = t + 1 := ⟨s.pStep i - 1, by omega⟩
  rw [ht, Nat.add_sub_cancel] at hm
  rw [ht] at hprior
  have hprior : y.a.map Proposal.enc = some m := hprior.trans hm
  obtain ⟨a, ha, -⟩ := Option.map_eq_some_iff.1 hprior
  exact ⟨a, x, y, hy, ha⟩

/-- phases 2 and 3 take the best aggregate of the step before -/
theorem QuorumOk.bestPrior (hq : QuorumOk s l i Rm) (h : Past l) (hstands : Stands l (s.pStep i) (s.pProp i))
    (hall : AllAt Rm (s.pStep i)) (hph : s.pStep i % 4 = 2 ∨ s.pStep i % 4 = 3) :
    BestOf (s.pProp i) (As Rm) ∈ As Rm ∧
      BestPrior (Fintype.card R) l.hist (s.pStep i) (BestOf (s.pProp i) (As Rm)).enc := by
  have hprior : ∀ x y, Rm x = some y → y.a.map Proposal.enc = priorOf (l.calls x) (s.pStep i) := fun x y hy =>
    (hq.each x y hy).prior (hall x y hy) hph
  obtain ⟨t, ht⟩ : ∃ t, s.pStep i = t + 1 := ⟨s.pStep i - 1, by omega⟩
  have hsent : ∀ p ∈ As Rm, l.Sent t p := by
    rintro p ⟨x, y, hy, hp⟩
    have hval := hprior x y hy
    rw [hp, ht] at hval
    obtain ⟨q, hsent, heq⟩ := Log.sent_of_accepted (aggOf_eq_some.1 hval.symm).1
    rwa [enc_injective heq] at hsent
  obtain ⟨hmem, hgreatest⟩ := greatest_of h (s.pProp i) (F := (·.a)) rfl (hq.gather hstands hall hph) hsent
    (f := fun j => priorOf (l.hist.calls j) (s.pStep i)) fun x y hy => by
      rw [Log.hist_calls]
      exact hprior x y hy
  exact ⟨hmem, _, hq.gathered hall, hgreatest⟩

/-- in a mixed quorum a reply of the highest step is ahead -/
theorem QuorumOk.ahead (hq : QuorumOk s l i Rm) (hall : ¬AllAt Rm (s.pStep i)) {y : Reply NP V} (hy : Highest Rm y) :
    s.pStep i < y.st := by
  unfold AllAt at hall
  push Not at hall
  obtain ⟨x, z, hz, hne⟩ := hall
  have hle := (hq.each x z hz).ahead
  have := hy.2 x z hz
  omega

/-- **Lemma C.3.** What a proposer catches up with is where a proposer can be. -/
theorem QuorumOk.catchUp (hq : QuorumOk s l i Rm) (h : Past l) (h4 : 4 ≤ s.pStep i) (hall : ¬AllAt Rm (s.pStep i))
    {y : Reply NP V} (hy : Highest Rm y) : ∃ f, y.f = some f ∧ Stands l y.st f := by
  have hlt := hq.ahead hall hy
  obtain ⟨⟨x, hx⟩, -⟩ := hy
  obtain ⟨f, hf, hfirst⟩ := (hq.each x y hx).first (.inl hlt)
  obtain ⟨p, hsent, heq⟩ := Log.sent_of_accepted (firstOf_mem hfirst)
  rw [enc_injective heq, ← Log.hist_sent] at hsent
  obtain ⟨t, ht⟩ : ∃ t, y.st = t + 1 := ⟨y.st - 1, by omega⟩
  rw [ht] at hsent
  refine ⟨f, hf, by omega, fun _ => ?_, fun h2 => ?_⟩
  · rw [ht, Nat.add_sub_cancel]
    exact h.sound.works t f.enc hsent (by omega)
  · rw [ht, Nat.add_sub_cancel]
    exact h.spreading t f.enc hsent (by omega)

theorem template_of {n st : ℕ} {h : Hist V} {q : Queso.Proposal V} (h0 : st % 4 = 0 → BestFirst n h st q)
    (h3 : st % 4 = 3 → BestPrior n h st q)
    (h12 : st % 4 = 1 ∨ st % 4 = 2 → h.sent st q ∧ ∃ Q, Gathered n h st Q) : Template n h st q := by
  unfold Template
  split
  · exact h0 ‹_›
  · exact h3 ‹_›
  · next hne0 hne3 =>
    have hne : st % 4 ≠ 0 ∧ st % 4 ≠ 3 := ⟨hne0, hne3⟩
    exact h12 (by omega)

/-- the working proposal of the next step, past phase 0 -/
theorem stands_next {st : ℕ} {q : Proposal NP V} (h4 : 4 ≤ st) (htemplate : Template (Fintype.card R) l.hist st q.enc)
    (hspread : st % 4 = 1 → Spread (Fintype.card R) l.hist st q.enc) : Stands l (st + 1) q :=
  ⟨by omega, fun _ => ⟨_, htemplate, rfl, fun _ => rfl⟩, fun h2 => hspread (by omega)⟩

/-- **A quorum of replies keeps the invariant.** -/
theorem processed_inv (h : Inv s l) (hund : s.pDecStep i = 0) (hq : QuorumOk s l i Rm)
    (hstep : ProcessQuorum i Rm s s') : Inv s' l := by
  have hstands := h.stands i
  have h4 := hstands.four_le
  rcases hstep with ⟨hall, y, f, hy, hf, rfl⟩ | ⟨hall, rfl⟩
  · obtain ⟨f', hf', hnext⟩ := hq.catchUp h.past h4 hall hy
    obtain rfl := Option.some.inj (hf'.symm.trans hf)
    exact moved_inv h hund (hq.ahead hall hy) hnext
  · have hlt := Nat.lt_succ_self (s.pStep i)
    unfold phaseBody
    split
    · next hph =>
      refine moved_inv h hund hlt (stands_next h4 (template_of (fun _ => (hq.bestFirst h.past hall hph).2) ?_ ?_) ?_) <;>
        intro hne <;> omega
    · next hph =>
      refine moved_inv h hund hlt (stands_next h4 (template_of ?_ ?_ fun _ =>
        ⟨hq.sent hall (by omega), _, hq.gathered hall⟩) fun _ => hq.spread hall (by omega)) <;> intro hne <;> omega
    · next hph =>
      split_ifs with hbest
      · obtain ⟨-, hprior⟩ := hq.bestPrior h.past hstands hall (.inl hph)
        rw [hbest] at hprior
        exact decide_inv h ⟨⟨hph, hq.sent hall (by omega), hprior⟩, hq.spread hall (by omega)⟩
      · refine moved_inv h hund hlt (stands_next h4 (template_of ?_ ?_ fun _ =>
          ⟨hq.sent hall (by omega), _, hq.gathered hall⟩) ?_) <;> intro hne <;> omega
    · next h0 h1 h2 =>
      have hne : s.pStep i % 4 ≠ 0 ∧ s.pStep i % 4 ≠ 1 ∧ s.pStep i % 4 ≠ 2 := ⟨h0, h1, h2⟩
      have hph : s.pStep i % 4 = 3 := by omega
      refine moved_inv h hund hlt (stands_next h4 (template_of ?_ (fun _ =>
        (hq.bestPrior h.past hstands hall (.inr hph)).2) ?_) ?_) <;> intro hne <;> omega

end Process

/-! ## A step -/

section Step

variable [Fintype R] [DecidableEq R] [LinearOrder V] {s s' : State R V NP} {l : Log R V NP} {i : Fin NP} {r : R}
  {pr PriMax MaxStep : ℕ}

omit [DecidableEq R] in
theorem inv_init (h : Init s) : Inv s fun _ => [] := by
  obtain ⟨hS, hF, hAc, hAp, hstep, -, hdec, hdecStep, hreplies⟩ := h
  have hnone : ∀ {st : ℕ} {p : Proposal NP V}, ¬Log.Sent ((fun _ => []) : Log R V NP) st p := fun ⟨_, hp⟩ => by cases hp
  have hsent : ∀ {st : ℕ} {q : Queso.Proposal V}, ¬(Log.hist ((fun _ => []) : Log R V NP)).sent st q :=
    fun ⟨_, hp, _⟩ => hnone hp
  exact
    { past := ⟨⟨fun _ _ _ hp => absurd (Log.hist_accepted hp) hsent, fun _ _ hp => absurd hp hsent,
        fun _ _ hp => absurd hp hsent, fun _ _ hp => absurd hp hsent⟩, fun _ _ hp => absurd hp hsent,
        fun _ _ _ hp => absurd hp hnone⟩
      regs := fun r => by rw [hS, hF, hAc, hAp]; rfl
      turns := fun _ _ hp => absurd hp hnone
      stands := fun i => by
        rw [hstep]
        exact ⟨le_rfl, fun h4 => absurd h4 (lt_irrefl 4), fun h2 => absurd h2 (by decide : ¬(4 : ℕ) % 4 = 2)⟩
      replies := fun i x y hy => by rw [hreplies] at hy; cases hy
      few := fun i => by rw [hreplies]; simp [Dom, Quorum]
      undecided := fun i _ => by rw [hdec]
      decided := fun i hi => absurd (by rw [hdecStep]) hi }

/-- the buffer with the reply of a call -/
theorem Inv.buffered_ok (h : Inv s l) (x : R) (y : Reply NP V) (hy : buffered s i r pr x = some y) :
    ReplyOk (logged s l i r pr) (s.pStep i) (s.pProp i) x y := by
  unfold buffered at hy
  by_cases hx : x = r
  · subst hx
    rw [Function.update_self] at hy
    rw [← Option.some.inj hy]
    exact stored_ok h
  · rw [Function.update_of_ne hx] at hy
    exact (h.replies i x y hy).mono Log.le_add

theorem Inv.quorum_ok (h : Inv s l) (hq : Quorum R ≤ (Dom (buffered s i r pr)).card) :
    QuorumOk (called s i r pr) (logged s l i r pr) i (buffered s i r pr) :=
  ⟨h.buffered_ok, hq⟩

theorem delivered_inv (h : Inv s l) (hund : s.pDecStep i = 0) (hstep : Delivered i r pr s s') :
    Inv s' (logged s l i r pr) := by
  have hcalled := called_inv i r pr h
  unfold Delivered at hstep
  split_ifs at hstep with hfew
  · subst hstep
    refine { hcalled with replies := fun k x y hy => ?_, few := fun k => ?_ }
    · have hy : Function.update s.pReplies i (buffered s i r pr) k x = some y := hy
      by_cases hk : k = i
      · subst hk
        rw [Function.update_self] at hy
        exact h.buffered_ok x y hy
      · rw [Function.update_of_ne hk] at hy
        exact hcalled.replies k x y hy
    · show (Dom (Function.update s.pReplies i (buffered s i r pr) k)).card < _
      by_cases hk : k = i
      · subst hk
        rw [Function.update_self]
        exact hfew
      · rw [Function.update_of_ne hk]
        exact h.few k
  · exact processed_inv hcalled hund (h.quorum_ok (not_lt.1 hfew)) hstep

theorem next_inv (h : Inv s l) (hstep : Next PriMax MaxStep s s') : ∃ l', Inv s' l' := by
  rcases hstep with ⟨i, r, pr, -, hcontact, rfl | hdel⟩ | ⟨-, rfl⟩
  · exact ⟨_, called_inv i r pr h⟩
  · exact ⟨_, delivered_inv h hcontact.undecided hdel⟩
  · exact ⟨l, h⟩

/-- **No assertion inside an action fails.** -/
theorem Inv.asserts (h : Inv s l) (i : Fin NP) (r : R) (pr : ℕ) : Asserts MaxStep s i r pr where
  reply := le_called s i r pr
  ahead := fun hq hall y hy => by
    have hok := h.quorum_ok hq
    obtain ⟨f, hf, -⟩ := hok.catchUp (h.past_call i r pr) (h.stands i).four_le hall hy
    exact ⟨hok.ahead hall hy, by rw [hf]; exact Option.some_ne_none f⟩
  first := fun _ hph x y hy => by
    obtain ⟨f, hf, -⟩ := (h.buffered_ok x y hy).first (.inr hph)
    rw [hf]
    exact Option.some_ne_none f
  gather := fun hq hall hph => (h.quorum_ok hq).gather ((h.stands i).mono Log.le_add) hall hph

/-- **Nothing blocks a delivery**: whatever a proposer has buffered, it can take in one more reply. -/
theorem Inv.delivers (h : Inv s l) (i : Fin NP) (r : R) (pr : ℕ) : ∃ s', Delivered i r pr s s' := by
  unfold Delivered
  split_ifs with hfew
  · exact ⟨_, rfl⟩
  · have hok := h.quorum_ok (not_lt.1 hfew)
    by_cases hall : AllAt (buffered s i r pr) (s.pStep i)
    · exact ⟨_, .inr ⟨hall, rfl⟩⟩
    · -- some reply has the highest step
      obtain ⟨x₀, y₀, hy₀⟩ := hok.exists_reply
      obtain ⟨x, hx, hmax⟩ := (Dom (buffered s i r pr)).exists_max_image
        (fun x => ((buffered s i r pr x).map (·.st)).getD 0) ⟨x₀, mem_dom.2 ⟨y₀, hy₀⟩⟩
      obtain ⟨y, hy⟩ := mem_dom.1 hx
      have hhighest : Highest (buffered s i r pr) y := ⟨⟨x, hy⟩, fun x' y' hy' => by
        have := hmax x' (mem_dom.2 ⟨y', hy'⟩)
        simpa [hy, hy'] using this⟩
      obtain ⟨f, hf, -⟩ := hok.catchUp (h.past_call i r pr) (h.stands i).four_le hall hhighest
      exact ⟨_, .inl ⟨hall, y, f, hhighest, hf, rfl⟩⟩

omit [DecidableEq R] in
/-- an undecided proposer always has a recorder to contact -/
theorem Inv.contact (h : Inv s l) (hR : 0 < Fintype.card R) (i : Fin NP) : ∃ r, s.pReplies i r = none := by
  by_contra hall
  push Not at hall
  have huniv : Dom (s.pReplies i) = Finset.univ := by
    refine Finset.eq_univ_iff_forall.2 fun r => mem_dom.2 ?_
    exact Option.ne_none_iff_exists'.1 (hall r)
  have := h.few i
  rw [huniv, Finset.card_univ] at this
  unfold Quorum at this
  omega

/-! ## Clocks, decisions and types -/

omit [DecidableEq R] in
/-- what a quorum of replies does: on to a later step with a proposal at hand, or the decision -/
theorem processed_cases {Rm : Replies R V NP} (h : Inv s l) (hq : QuorumOk s l i Rm) (hstep : ProcessQuorum i Rm s s') :
    (∃ ns np, s' = s.moveTo i ns np ∧ s.pStep i < ns ∧ (ns = s.pStep i + 1 ∨ ∃ x y, Rm x = some y ∧ y.st = ns) ∧
      (np = s.pProp i ∨ ∃ x y, Rm x = some y ∧ (y.f = some np ∨ y.a = some np))) ∨ s' = s.decide i := by
  have hlt := Nat.lt_succ_self (s.pStep i)
  rcases hstep with ⟨hall, y, f, hy, hf, rfl⟩ | ⟨hall, rfl⟩
  · obtain ⟨x, hx⟩ := hy.1
    exact .inl ⟨_, _, rfl, hq.ahead hall hy, .inr ⟨x, y, hx, rfl⟩, .inr ⟨x, y, hx, .inl hf⟩⟩
  · unfold phaseBody
    split
    · next hph =>
      obtain ⟨x, y, hx, hp⟩ := (hq.bestFirst h.past hall hph).1
      exact .inl ⟨_, _, rfl, hlt, .inl rfl, .inr ⟨x, y, hx, .inl hp⟩⟩
    · exact .inl ⟨_, _, rfl, hlt, .inl rfl, .inl rfl⟩
    · split_ifs
      · exact .inr rfl
      · exact .inl ⟨_, _, rfl, hlt, .inl rfl, .inl rfl⟩
    · next h0 h1 h2 =>
      have hne : s.pStep i % 4 ≠ 0 ∧ s.pStep i % 4 ≠ 1 ∧ s.pStep i % 4 ≠ 2 := ⟨h0, h1, h2⟩
      obtain ⟨x, y, hx, hp⟩ := (hq.bestPrior h.past (h.stands i) hall (.inr (by omega))).1
      exact .inl ⟨_, _, rfl, hlt, .inl rfl, .inr ⟨x, y, hx, .inr hp⟩⟩

/-- what a delivery does: the reply is buffered, or the quorum it completes is processed -/
theorem delivered_cases (h : Inv s l) (hstep : Delivered i r pr s s') :
    s' = { called s i r pr with pReplies := Function.update s.pReplies i (buffered s i r pr) } ∨
    (∃ ns np, s' = (called s i r pr).moveTo i ns np ∧ s.pStep i < ns ∧
      (ns = s.pStep i + 1 ∨ ∃ x y, buffered s i r pr x = some y ∧ y.st = ns) ∧
      (np = s.pProp i ∨ ∃ x y, buffered s i r pr x = some y ∧ (y.f = some np ∨ y.a = some np))) ∨
    s' = (called s i r pr).decide i := by
  unfold Delivered at hstep
  split_ifs at hstep with hfew
  · exact .inl hstep
  · exact .inr (processed_cases (called_inv i r pr h) (h.quorum_ok (not_lt.1 hfew)) hstep)

variable (s i r pr) in
omit [Fintype R] [LinearOrder V] in
theorem called_le (x : R) : s.rS x ≤ (called s i r pr).rS x := by
  unfold called State.served
  dsimp only
  by_cases hx : x = r
  · subst hx
    rw [Function.update_self]
    split_ifs with hlt
    · exact hlt.le
    · exact le_rfl
  · rw [Function.update_of_ne hx]

theorem next_monotone (h : Inv s l) (hstep : Next PriMax MaxStep s s') : Monotone s s' := by
  rcases hstep with ⟨i, r, pr, -, -, rfl | hdel⟩ | ⟨-, rfl⟩
  · exact ⟨fun _ => le_rfl, called_le s i r pr⟩
  · rcases delivered_cases h hdel with rfl | ⟨ns, np, rfl, hlt, -⟩ | rfl
    · exact ⟨fun _ => le_rfl, called_le s i r pr⟩
    · refine ⟨fun k => ?_, called_le s i r pr⟩
      show s.pStep k ≤ Function.update s.pStep i ns k
      by_cases hk : k = i
      · subst hk
        rw [Function.update_self]
        exact hlt.le
      · rw [Function.update_of_ne hk]
    · exact ⟨fun _ => le_rfl, called_le s i r pr⟩
  · exact ⟨fun _ => le_rfl, fun _ => le_rfl⟩

theorem next_decideOnce (h : Inv s l) (hstep : Next PriMax MaxStep s s') : DecideOnce s s' := by
  rcases hstep with ⟨i, r, pr, -, hcontact, rfl | hdel⟩ | ⟨-, rfl⟩
  · exact fun _ _ => rfl
  · rcases delivered_cases h hdel with rfl | ⟨ns, np, rfl, -⟩ | rfl
    · exact fun _ _ => rfl
    · exact fun _ _ => rfl
    · intro k hk
      have hne : k ≠ i := fun heq => hk (h.undecided k (heq ▸ hcontact.undecided))
      exact Function.update_of_ne hne _ _
  · exact fun _ _ => rfl

/-- proposals that meet `T`, and steps within the bound -/
structure Typed (T : Proposal NP V → Prop) (MaxStep : ℕ) (s : State R V NP) : Prop where
  holds : Holds T s
  recorders : ∀ r, Executed MaxStep (s.rS r)
  steps : ∀ i, 4 ≤ s.pStep i ∧ s.pStep i ≤ MaxStep + 1
  decided : ∀ i, Executed MaxStep (s.pDecStep i)
  replies : ∀ i x y, s.pReplies i x = some y → 4 ≤ y.st ∧ y.st ≤ MaxStep

section Types

variable {T : Proposal NP V → Prop}

omit [Fintype R] [LinearOrder V] in
theorem Typed.called (h : Typed T MaxStep s) (hT : T (s.request i pr)) (hbound : s.pStep i ≤ MaxStep) :
    Typed T MaxStep (called s i r pr) where
  holds :=
    { prop := h.holds.prop
      regs := fun x p hp => by
        unfold Concrete.called State.served at hp
        dsimp only at hp
        by_cases hx : x = r
        · subst hx
          simp only [Function.update_self] at hp
          have hold := h.holds.regs x p
          split_ifs at hp with hlt h1 h1
          · simp only [Option.some.injEq] at hp
            rcases hp with rfl | rfl | hp
            · exact hT
            · exact hT
            · exact hold (.inr (.inl hp))
          · simp only [Option.some.injEq, or_false] at hp
            rcases hp with rfl | rfl
            · exact hT
            · exact hT
          · rcases hp with hp | hp | hp
            · exact hold (.inl hp)
            · -- the greater of what the register held and what was sent
              cases ha : s.rAc x with
              | none =>
                rw [ha] at hp
                obtain rfl := Option.some.inj hp
                exact hT
              | some a =>
                rw [ha] at hp
                have hp := Option.some.inj hp
                unfold AggMax at hp
                dsimp only at hp
                split_ifs at hp
                · exact hp ▸ hT
                · exact hp ▸ h.holds.regs x a (.inr (.inl ha))
            · exact hold (.inr (.inr hp))
          · exact hold hp
        · simp only [Function.update_of_ne hx] at hp
          exact h.holds.regs x p hp
      replies := h.holds.replies }
  recorders := fun x => by
    unfold Concrete.called State.served
    dsimp only
    by_cases hx : x = r
    · subst hx
      rw [Function.update_self]
      split_ifs
      · exact .inr ⟨(h.steps i).1, hbound⟩
      · exact h.recorders x
    · rw [Function.update_of_ne hx]
      exact h.recorders x
  steps := h.steps
  decided := h.decided
  replies := h.replies

omit [Fintype R] [LinearOrder V] in
/-- the replies at hand after a call -/
theorem Typed.buffered (h : Typed T MaxStep s) (hT : T (s.request i pr)) (hbound : s.pStep i ≤ MaxStep) (x : R)
    (y : Reply NP V) (hy : buffered s i r pr x = some y) :
    (4 ≤ y.st ∧ y.st ≤ MaxStep) ∧ ∀ p, y.f = some p ∨ y.a = some p → T p := by
  unfold Concrete.buffered at hy
  by_cases hx : x = r
  · subst hx
    rw [Function.update_self] at hy
    obtain rfl := Option.some.inj hy
    have hcalled := h.called (r := x) hT hbound
    refine ⟨?_, fun p hp => hcalled.holds.regs x p ?_⟩
    · have hle := le_called s i x pr
      have h4 := (h.steps i).1
      rcases hcalled.recorders x with h0 | hexec
      · omega
      · exact hexec
    · unfold State.stored at hp
      dsimp only at hp
      split_ifs at hp with h1 h2
      · exact hp.imp_right .inr
      · exact .inl (hp.resolve_right (by simp))
      · exact .inr (.inr (hp.resolve_left (by simp)))
      · simp at hp
  · rw [Function.update_of_ne hx] at hy
    exact ⟨h.replies i x y hy, h.holds.replies i x y hy⟩

theorem Typed.next (h : Typed T MaxStep s) (hinv : Inv s l)
    (hT : ∀ i pr, PriChoices PriMax s i pr → T (s.pProp i) → T (s.request i pr))
    (hstep : Next PriMax MaxStep s s') : Typed T MaxStep s' := by
  rcases hstep with ⟨i, r, pr, hpr, hcontact, hor⟩ | ⟨-, rfl⟩
  swap
  · exact h
  have hreq := hT i pr hpr (h.holds.prop i)
  have hcalled : Typed T MaxStep (Concrete.called s i r pr) := h.called hreq hcontact.bound
  have hreplies := h.buffered (r := r) hreq hcontact.bound
  rcases hor with rfl | hdel
  · exact hcalled
  rcases delivered_cases hinv hdel with rfl | ⟨ns, np, rfl, hlt, hns, hnp⟩ | rfl
  · -- buffered
    have hall : ∀ k x y, Function.update s.pReplies i (Concrete.buffered s i r pr) k x = some y →
        (4 ≤ y.st ∧ y.st ≤ MaxStep) ∧ ∀ p, y.f = some p ∨ y.a = some p → T p := fun k x y hy => by
      by_cases hk : k = i
      · subst hk
        rw [Function.update_self] at hy
        exact hreplies x y hy
      · rw [Function.update_of_ne hk] at hy
        exact ⟨h.replies k x y hy, h.holds.replies k x y hy⟩
    exact { hcalled with
      holds := ⟨hcalled.holds.prop, hcalled.holds.regs, fun k x y hy => (hall k x y hy).2⟩
      replies := fun k x y hy => (hall k x y hy).1 }
  · -- on to a later step
    have hle : ns ≤ MaxStep + 1 := by
      rcases hns with rfl | ⟨x, y, hy, rfl⟩
      · exact Nat.succ_le_succ hcontact.bound
      · exact ((hreplies x y hy).1.2).trans (Nat.le_succ _)
    have hnp : T np := by
      rcases hnp with rfl | ⟨x, y, hy, hp⟩
      · exact h.holds.prop i
      · exact (hreplies x y hy).2 np hp
    have hkept : ∀ k x y, Function.update s.pReplies i (fun _ => none) k x = some y → s.pReplies k x = some y :=
      fun k x y hy => by
        by_cases hk : k = i
        · subst hk
          rw [Function.update_self] at hy
          cases hy
        · rwa [Function.update_of_ne hk] at hy
    refine ⟨⟨fun k => ?_, hcalled.holds.regs, fun k x y hy => h.holds.replies k x y (hkept k x y hy)⟩,
      hcalled.recorders, fun k => ?_, h.decided, fun k x y hy => h.replies k x y (hkept k x y hy)⟩
    · show T (Function.update s.pProp i np k)
      by_cases hk : k = i
      · subst hk
        rwa [Function.update_self]
      · rw [Function.update_of_ne hk]
        exact h.holds.prop k
    · show 4 ≤ Function.update s.pStep i ns k ∧ Function.update s.pStep i ns k ≤ _
      by_cases hk : k = i
      · subst hk
        rw [Function.update_self]
        exact ⟨(h.steps k).1.trans hlt.le, hle⟩
      · rw [Function.update_of_ne hk]
        exact h.steps k
  · -- the decision
    have hkept : ∀ k x y, Function.update s.pReplies i (fun _ => none) k x = some y → s.pReplies k x = some y :=
      fun k x y hy => by
        by_cases hk : k = i
        · subst hk
          rw [Function.update_self] at hy
          cases hy
        · rwa [Function.update_of_ne hk] at hy
    refine ⟨⟨h.holds.prop, hcalled.holds.regs, fun k x y hy => h.holds.replies k x y (hkept k x y hy)⟩,
      hcalled.recorders, h.steps, fun k => ?_, fun k x y hy => h.replies k x y (hkept k x y hy)⟩
    show Executed MaxStep (Function.update s.pDecStep i (s.pStep i) k)
    by_cases hk : k = i
    · subst hk
      rw [Function.update_self]
      exact .inr ⟨(h.steps k).1, hcontact.bound⟩
    · rw [Function.update_of_ne hk]
      exact h.decided k

end Types

/-! ## What the invariant says -/

omit [DecidableEq R] in
/-- **Past a decision, every later round carries its value.** -/
theorem works_later (h : Past l) {st t : ℕ} {p : Proposal NP V} {q : Queso.Proposal V} (hp : Settled l st p)
    (hq : Works (Fintype.card R) l.hist t q) (ht : st + 1 ≤ t) : q.value = p.val := by
  have h2 : st % 4 = 2 := hp.1.1
  obtain ⟨q', htemplate, hval, -⟩ := hq
  rw [← hval]
  rcases ht.eq_or_lt with rfl | hlt
  · have hprior : BestPrior (Fintype.card R) l.hist (st + 1) q' := by
      unfold Template at htemplate
      rw [show (st + 1) % 4 = 3 by omega] at htemplate
      exact htemplate
    rw [slow_gather h.sound h.spreading hp.1 hp.2 hprior]
    rfl
  · rcases h.sound.template_sent htemplate with hsent | ⟨h3, hsent⟩
    · exact slow_later h.sound h.spreading hp.1 hp.2 hlt hsent
    · exact slow_later h.sound h.spreading hp.1 hp.2 (by omega) hsent

omit [DecidableEq R] in
theorem Inv.dominance (h : Inv s l) : DecisionDominance s := by
  intro i hi k hk
  obtain ⟨hstep, hdec, hsettled⟩ := h.decided i hi
  have h2 : s.pStep i % 4 = 2 := hsettled.1.1
  have h4 := (h.stands i).four_le
  rw [hstep] at hk
  have hworks := (h.stands k).works (by omega)
  rw [hdec, ← works_later h.past hsettled hworks (by omega)]
  rfl

omit [DecidableEq R] in
/-- no proposal carries `H`, so nothing is decided fast -/
theorem Past.fastTop (h : Past l) : FastTop (Fintype.card R) l.hist := by
  intro p ⟨hH, Q, hQ, hfirst⟩
  obtain ⟨j, hj⟩ := hQ.nonempty
  obtain ⟨q, -, rfl⟩ := h.sound.first_sent (hfirst j hj)
  exact absurd hH (by decide : (0 : ℕ) ≠ H)

omit [DecidableEq R] in
theorem Inv.agreement (h : Inv s l) : Agreement s := by
  rintro i j ⟨hi, hj⟩
  have hdecides : ∀ k, s.pDec k ≠ none → s.pDec k = some (s.pProp k).val ∧
      Decides (Fintype.card R) l.hist (s.pProp k).val := fun k hk => by
    obtain ⟨-, hdec, hsettled⟩ := h.decided k fun h0 => hk (h.undecided k h0)
    exact ⟨hdec, .inr ⟨_, _, hsettled.1, hsettled.2, rfl⟩⟩
  obtain ⟨hdi, hi⟩ := hdecides i hi
  obtain ⟨hdj, hj⟩ := hdecides j hj
  rw [hdi, hdj, Queso.agreement h.past.sound h.past.spreading h.past.fastTop hi hj]

omit [DecidableEq R] in
theorem Inv.isrConsistent (h : Inv s l) : IsrConsistent s := by
  intro r
  obtain ⟨hstep, hfirst, hagg, hprior⟩ := h.reg r
  have hnone : s.rS r = 0 → l.calls r = [] := fun h0 => by
    -- a call is at step 4 or later
    cases hl : l.calls r with
    | nil => rfl
    | cons c m =>
      have hc : (c.1, c.2) ∈ l.calls r := by rw [hl]; exact List.mem_cons_self
      obtain ⟨p, hp, -⟩ := Log.mem_calls.1 hc
      have h4 := h.past.sound.four_le c.1 p.enc (Log.hist_sent.2 ⟨r, hp⟩)
      have hle : c.1 ≤ 0 := stepOf_le.1 (hstep.le.trans h0.le) _ hc
      omega
  refine ⟨⟨fun h0 => ?_, fun hf => ?_⟩, fun h0 => ?_, fun f hf => ?_⟩
  · rw [hnone h0] at hfirst
    exact Option.map_eq_none_iff.1 (hfirst.trans (by rw [h0]; rfl))
  · by_contra h0
    obtain ⟨q, hq⟩ := (visited_stepOf (l := l.calls r) (by omega)).firstOf (by omega)
    rw [hf, ← hstep, hq] at hfirst
    cases hfirst
  · rw [hnone h0] at hagg hprior
    rw [h0] at hagg hprior
    exact ⟨Option.map_eq_none_iff.1 hagg, Option.map_eq_none_iff.1 hprior⟩
  · rw [hf] at hfirst
    have hacc := firstOf_mem hfirst.symm
    obtain ⟨m, hm, hle⟩ := le_aggOf hacc
    rw [hm] at hagg
    obtain ⟨a, ha, rfl⟩ := Option.map_eq_some_iff.1 hagg
    obtain ⟨p, hp, heq⟩ := Log.sent_of_accepted (aggOf_eq_some.1 hm).1
    rw [enc_injective heq] at hp
    obtain ⟨p', hp', heq'⟩ := Log.sent_of_accepted hacc
    rw [enc_injective heq'] at hp'
    exact ⟨a, ha, (h.past.enc_le hp' hp).1 hle⟩

omit [Fintype R] [DecidableEq R] [LinearOrder V] in
/-- the type of a new state -/
theorem typed_init (h : Init s) (hpri : 2 ≤ PriMax) (hmax : 7 ≤ MaxStep) :
    Typed (fun p => (1 ≤ p.pri ∧ p.pri ≤ PriMax) ∧ ∃ j, p.val = s.inp j) MaxStep s := by
  obtain ⟨hS, hF, hAc, hAp, hstep, hprop, -, hdecStep, hreplies⟩ := h
  refine ⟨⟨fun i => ?_, fun r p hp => ?_, fun i x y hy => ?_⟩, fun r => .inl (by rw [hS]), fun i => ?_,
    fun i => .inl (by rw [hdecStep]), fun i x y hy => ?_⟩
  · rw [hprop]
    exact ⟨⟨le_rfl, by show 1 ≤ PriMax; omega⟩, i, rfl⟩
  · rw [hF, hAc, hAp] at hp
    simp at hp
  · rw [hreplies] at hy
    cases hy
  · rw [hstep]
    dsimp only
    omega
  · rw [hreplies] at hy
    cases hy

omit [LinearOrder V] in
theorem next_inp (hstep : Next PriMax MaxStep s s') : s'.inp = s.inp := by
  rcases hstep with ⟨i, r, pr, -, -, rfl | hdel⟩ | ⟨-, rfl⟩
  · rfl
  · unfold Delivered at hdel
    split_ifs at hdel
    · rw [hdel]
      rfl
    · rcases hdel with ⟨-, y, f, -, -, rfl⟩ | ⟨-, rfl⟩
      · rfl
      · unfold phaseBody
        split
        · rfl
        · rfl
        · split_ifs <;> rfl
        · rfl
  · rfl

end Step

section Safe

variable [Fintype R] [DecidableEq R] {s : State R V NP} {PriMax MaxStep : ℕ}

/-- all invariants that TLC checks -/
structure Safe (PriMax MaxStep : ℕ) (s : State R V NP) : Prop where
  typeOK : TypeOK PriMax MaxStep s
  agreement : Agreement s
  validity : Validity s
  repliesAhead : RepliesAhead s
  decisionAtPhase2 : DecisionAtPhase2 s
  decisionDominance : DecisionDominance s
  isrConsistent : IsrConsistent s
  valuesFromInputs : ValuesFromInputs s

theorem Reachable.inv [LinearOrder V] (h : Reachable PriMax MaxStep s) (hpri : 2 ≤ PriMax) (hmax : 7 ≤ MaxStep) :
    ∃ l, Inv s l ∧ Typed (fun p => (1 ≤ p.pri ∧ p.pri ≤ PriMax) ∧ ∃ j, p.val = s.inp j) MaxStep s := by
  obtain ⟨s₀, hinit, hrun⟩ := h
  induction hrun with
  | refl => exact ⟨_, inv_init hinit, typed_init hinit hpri hmax⟩
  | tail _ hstep ih =>
    obtain ⟨l, hinv, htyped⟩ := ih
    obtain ⟨l', hinv'⟩ := next_inv hinv hstep
    refine ⟨l', hinv', ?_⟩
    rw [next_inp hstep]
    refine htyped.next hinv (fun i pr hpr hT => ?_) hstep
    refine ⟨?_, by rw [request_val]; exact hT.2⟩
    unfold PriChoices at hpr
    unfold State.request
    split_ifs at hpr ⊢
    · exact hpr
    · exact hT.1

/-- **The TLA+ model is safe**, for any recorders, values, proposers, priorities and number of steps: the invariants hold in
every reachable state, no assertion inside an action fails, a step neither changes a decision nor turns a clock back; and an
undecided proposer within bound has a recorder to contact and can take in any reply. -/
theorem concrete_safe (hR : 3 ≤ Fintype.card R) (hpri : 2 ≤ PriMax) (hmax : 7 ≤ MaxStep)
    (h : Reachable PriMax MaxStep s) :
    Safe PriMax MaxStep s ∧ (∀ i r pr, Asserts MaxStep s i r pr) ∧
      (∀ s', Next PriMax MaxStep s s' → DecideOnce s s' ∧ Monotone s s') ∧
      ∀ i, s.pDecStep i = 0 → s.pStep i ≤ MaxStep → ∃ r, Contacts MaxStep i r s ∧
        ∀ pr, PriChoices PriMax s i pr → ∃ s', Delivered i r pr s s' ∧ Next PriMax MaxStep s s' := by
  let _ : LinearOrder V := IsWellOrder.linearOrder WellOrderingRel
  obtain ⟨l, hinv, htyped⟩ := h.inv hpri hmax
  refine ⟨?_, hinv.asserts, fun s' hs' => ⟨next_decideOnce hinv hs', next_monotone hinv hs'⟩, fun i hi hbound => ?_⟩
  · exact
      { typeOK :=
          { proposals := ⟨fun i => (htyped.holds.prop i).1, fun r p hp => (htyped.holds.regs r p hp).1,
              fun i x y hy p hp => (htyped.holds.replies i x y hy p hp).1⟩
            recorders := htyped.recorders
            steps := htyped.steps
            decided := htyped.decided
            few := hinv.few
            replies := htyped.replies }
        agreement := hinv.agreement
        validity := fun i hi => by
          obtain ⟨-, hdec, -⟩ := hinv.decided i fun h0 => hi (hinv.undecided i h0)
          obtain ⟨j, hj⟩ := (htyped.holds.prop i).2
          exact ⟨j, by rw [hdec, hj]⟩
        repliesAhead := fun i x y hy => (hinv.replies i x y hy).ahead
        decisionAtPhase2 := fun i hi => by
          obtain ⟨hstep, -, hsettled⟩ := hinv.decided i hi
          rw [hstep]
          exact hsettled.1.1
        decisionDominance := hinv.dominance
        isrConsistent := hinv.isrConsistent
        valuesFromInputs := ⟨fun i => (htyped.holds.prop i).2, fun r p hp => (htyped.holds.regs r p hp).2,
          fun i x y hy p hp => (htyped.holds.replies i x y hy p hp).2⟩ }
  · obtain ⟨r, hr⟩ := hinv.contact (by omega) i
    have hcontact : Contacts MaxStep i r s := ⟨hi, hbound, hr⟩
    refine ⟨r, hcontact, fun pr hpr => ?_⟩
    obtain ⟨s', hs'⟩ := hinv.delivers i r pr
    exact ⟨s', hs', .inl ⟨i, r, pr, hpr, hcontact, .inr hs'⟩⟩

/-- two proposers, of which one has heard from two of three recorders in phase 0 and one was heard by the third only -/
theorem concrete_safe_advanced : ∃ s : State (Fin 3) Bool 2, Reachable 2 7 s ∧ s.pStep 0 = 5 ∧ s.pStep 1 = 4 ∧
    Safe 2 7 s ∧ ∀ s', Next 2 7 s s' → DecideOnce s s' ∧ Monotone s s' := by
  let s₀ : State (Fin 3) Bool 2 :=
    { rS := fun _ => 0, rF := fun _ => none, rAc := fun _ => none, rAp := fun _ => none, pStep := fun _ => 4,
      pProp := fun i => ⟨1, i, i == 0⟩, pDec := fun _ => none, pDecStep := fun _ => 0, pReplies := fun _ _ => none,
      inp := fun i => i == 0 }
  let s₁ := called s₀ 1 2 2
  let s₂ : State (Fin 3) Bool 2 :=
    { called s₁ 0 0 1 with pReplies := Function.update s₁.pReplies 0 (buffered s₁ 0 0 1) }
  let s₃ := phaseBody (called s₂ 0 1 2) 0 (buffered s₂ 0 1 2)
  have h₁ : Next 2 7 s₀ s₁ := .inl ⟨1, 2, 2, by decide, ⟨rfl, by decide, rfl⟩, .inl rfl⟩
  have hfew : (Dom (buffered s₁ 0 0 1)).card < Quorum (Fin 3) := by decide
  have h₂ : Next 2 7 s₁ s₂ :=
    .inl ⟨0, 0, 1, by decide, ⟨rfl, by decide, rfl⟩, .inr (by unfold Delivered; rw [if_pos hfew])⟩
  have hall : AllAt (buffered s₂ 0 1 2) ((called s₂ 0 1 2).pStep 0) := by
    intro x y hy
    fin_cases x
    · exact (congrArg (·.st) (Option.some.inj hy)).symm
    · exact (congrArg (·.st) (Option.some.inj hy)).symm
    · cases hy
  have hmany : ¬(Dom (buffered s₂ 0 1 2)).card < Quorum (Fin 3) := by decide
  have h₃ : Next 2 7 s₂ s₃ := .inl ⟨0, 1, 2, by decide, ⟨rfl, by decide, rfl⟩,
    .inr (by unfold Delivered; rw [if_neg hmany]; exact .inr ⟨hall, rfl⟩)⟩
  have hreach : Reachable 2 7 s₃ :=
    ⟨s₀, ⟨rfl, rfl, rfl, rfl, rfl, rfl, rfl, rfl, rfl⟩, ((Relation.ReflTransGen.refl.tail h₁).tail h₂).tail h₃⟩
  obtain ⟨hsafe, -, hnext, -⟩ := concrete_safe (by decide) le_rfl le_rfl hreach
  exact ⟨s₃, hreach, by decide +kernel, by decide +kernel, hsafe, hnext⟩

end Safe

end Queso.Spec.Concrete
