/-
The TLA+ model `QuePaxaConcrete`: recorders with the integer register, proposers of Algorithm 4 without a leader, one
remote call at a time.

The recorders are any finite set, the values any type, `NP`, `PriMax` and `MaxStep` any numbers. The inputs are arbitrary:
TLC takes one vector from each class under renaming of values, and nothing here needs that. `None` is `none`.

What is asserted inside the actions is `Asserts`; what TLC checks of every state and every step follows it. They are proved
in `Queso.Spec.Dominance`.
-/
import Mathlib.Tactic
import Mathlib.Data.Fintype.Card
import Mathlib.Logic.Relation

namespace Queso.Spec.Concrete

/-! ## Proposals -/

structure Proposal (NP : ℕ) (V : Type) where
  pri : ℕ
  org : Fin NP
  val : V
deriving DecidableEq

variable {R V : Type} {NP : ℕ}

def Better (p q : Proposal NP V) : Prop := q.pri < p.pri ∨ p.pri = q.pri ∧ q.org < p.org

instance (p q : Proposal NP V) : Decidable (Better p q) := inferInstanceAs (Decidable (_ ∨ _))

/-- `CHOOSE p \in S : \A q \in S : ~Better(q, p)`; `d` only says that there are proposals -/
noncomputable def BestOf (d : Proposal NP V) (S : Set (Proposal NP V)) : Proposal NP V :=
  @Classical.epsilon _ ⟨d⟩ fun p => p ∈ S ∧ ∀ q ∈ S, ¬Better q p

/-- the integer max, with nil as the identity -/
def AggMax (a : Option (Proposal NP V)) (p : Proposal NP V) : Proposal NP V :=
  match a with
  | none => p
  | some a => if Better p a then p else a

/-! ## States -/

/-- what a proposer has buffered of one recorder -/
structure Reply (NP : ℕ) (V : Type) where
  st : ℕ
  f : Option (Proposal NP V)
  a : Option (Proposal NP V)

structure State (R V : Type) (NP : ℕ) where
  rS : R → ℕ
  rF : R → Option (Proposal NP V)
  rAc : R → Option (Proposal NP V)
  rAp : R → Option (Proposal NP V)
  pStep : Fin NP → ℕ
  pProp : Fin NP → Proposal NP V
  pDec : Fin NP → Option V
  pDecStep : Fin NP → ℕ
  pReplies : Fin NP → R → Option (Reply NP V)
  inp : Fin NP → V

def Init (s : State R V NP) : Prop :=
  s.rS = (fun _ => 0) ∧ s.rF = (fun _ => none) ∧ s.rAc = (fun _ => none) ∧ s.rAp = (fun _ => none) ∧
    s.pStep = (fun _ => 4) ∧ s.pProp = (fun i => ⟨1, i, s.inp i⟩) ∧ s.pDec = (fun _ => none) ∧ s.pDecStep = (fun _ => 0) ∧
    s.pReplies = fun _ _ => none

namespace State

/-- advance or adopt: the proposer goes to step `ns` with the working proposal `np` -/
def moveTo (s : State R V NP) (i : Fin NP) (ns : ℕ) (np : Proposal NP V) : State R V NP :=
  { s with
    pStep := Function.update s.pStep i ns
    pProp := Function.update s.pProp i np
    pReplies := Function.update s.pReplies i fun _ => none }

/-- the proposer delivers its decision and halts -/
def decide (s : State R V NP) (i : Fin NP) : State R V NP :=
  { s with
    pDec := Function.update s.pDec i (some (s.pProp i).val)
    pDecStep := Function.update s.pDecStep i (s.pStep i)
    pReplies := Function.update s.pReplies i fun _ => none }

/-- what the proposer sends at its step: a fresh priority in phase 0, the working proposal in the others -/
def request (s : State R V NP) (i : Fin NP) (pr : ℕ) : Proposal NP V :=
  if s.pStep i % 4 = 0 then ⟨pr, i, (s.pProp i).val⟩ else s.pProp i

/-- `record(st, p)` at recorder `r` -/
def served [DecidableEq R] (s : State R V NP) (r : R) (st : ℕ) (p : Proposal NP V) : State R V NP :=
  { s with
    rS := Function.update s.rS r (if s.rS r < st then st else s.rS r)
    rF := Function.update s.rF r (if s.rS r < st then some p else s.rF r)
    rAc := Function.update s.rAc r
      (if s.rS r < st then some p else if st = s.rS r then some (AggMax (s.rAc r) p) else s.rAc r)
    rAp := Function.update s.rAp r
      (if s.rS r < st then if st = s.rS r + 1 then s.rAc r else none else s.rAp r) }

/-- the reply of a recorder, less what the phase never reads -/
def stored (s : State R V NP) (st : ℕ) (r : R) : Reply NP V where
  st := s.rS r
  f := if st < s.rS r ∨ st % 4 = 0 then s.rF r else none
  a := if s.rS r = st ∧ (st % 4 = 2 ∨ st % 4 = 3) then s.rAp r else none

end State

/-! ## The actions -/

/-- a reply buffer -/
abbrev Replies (R V : Type) (NP : ℕ) := R → Option (Reply NP V)

/-- all replies are at step `st` -/
def AllAt (Rm : Replies R V NP) (st : ℕ) : Prop := ∀ x y, Rm x = some y → y.st = st

/-- `y` is a reply of the highest step -/
def Highest (Rm : Replies R V NP) (y : Reply NP V) : Prop :=
  (∃ x, Rm x = some y) ∧ ∀ x' y', Rm x' = some y' → y'.st ≤ y.st

/-- the first values of the replies -/
def Fs (Rm : Replies R V NP) : Set (Proposal NP V) := {p | ∃ x y, Rm x = some y ∧ y.f = some p}

/-- the prior aggregates of the replies, less nil -/
def As (Rm : Replies R V NP) : Set (Proposal NP V) := {p | ∃ x y, Rm x = some y ∧ y.a = some p}

open Classical in
/-- the phase body, for a quorum of replies at the proposer's step -/
noncomputable def phaseBody (s : State R V NP) (i : Fin NP) (Rm : Replies R V NP) : State R V NP :=
  match s.pStep i % 4 with
  | 0 => s.moveTo i (s.pStep i + 1) (BestOf (s.pProp i) (Fs Rm))
  | 1 => s.moveTo i (s.pStep i + 1) (s.pProp i)
  | 2 =>
    if BestOf (s.pProp i) (As Rm) = s.pProp i then s.decide i else s.moveTo i (s.pStep i + 1) (s.pProp i)
  | _ => s.moveTo i (s.pStep i + 1) (BestOf (s.pProp i) (As Rm))

/-- the replies `Rm` are a quorum: catch up with a reply of the highest step, or run the phase -/
def ProcessQuorum (i : Fin NP) (Rm : Replies R V NP) (s s' : State R V NP) : Prop :=
  (¬AllAt Rm (s.pStep i) ∧ ∃ y f, Highest Rm y ∧ y.f = some f ∧ s' = s.moveTo i y.st f) ∨
    AllAt Rm (s.pStep i) ∧ s' = phaseBody s i Rm

/-- the priorities the proposer may draw; 0 where none is drawn -/
def PriChoices (PriMax : ℕ) (s : State R V NP) (i : Fin NP) (pr : ℕ) : Prop :=
  if s.pStep i % 4 = 0 then 1 ≤ pr ∧ pr ≤ PriMax else pr = 0

instance (PriMax : ℕ) (s : State R V NP) (i : Fin NP) (pr : ℕ) : Decidable (PriChoices PriMax s i pr) :=
  inferInstanceAs (Decidable (ite _ _ _))

/-- the proposer is undecided, within bound and has no reply of the recorder -/
structure Contacts (MaxStep : ℕ) (i : Fin NP) (r : R) (s : State R V NP) : Prop where
  undecided : s.pDecStep i = 0
  bound : s.pStep i ≤ MaxStep
  absent : s.pReplies i r = none

variable [Fintype R] [DecidableEq R]

/-- a majority of the fixed membership -/
def Quorum (R : Type) [Fintype R] : ℕ := Fintype.card R / 2 + 1

/-- the recorders with a buffered reply -/
def Dom (Rm : Replies R V NP) : Finset R := Finset.univ.filter fun x => (Rm x).isSome

/-- after the recorder's side of a call -/
def called (s : State R V NP) (i : Fin NP) (r : R) (pr : ℕ) : State R V NP :=
  s.served r (s.pStep i) (s.request i pr)

/-- the buffer with the reply of a call -/
def buffered (s : State R V NP) (i : Fin NP) (r : R) (pr : ℕ) : Replies R V NP :=
  Function.update (s.pReplies i) r (some ((called s i r pr).stored (s.pStep i) r))

/-- the reply is delivered -/
def Delivered (i : Fin NP) (r : R) (pr : ℕ) (s s' : State R V NP) : Prop :=
  if (Dom (buffered s i r pr)).card < Quorum R then
    s' = { called s i r pr with pReplies := Function.update s.pReplies i (buffered s i r pr) }
  else ProcessQuorum i (buffered s i r pr) (called s i r pr) s'

/-- one call of proposer `i` at recorder `r`: the reply is lost or delivered -/
def Rpc (MaxStep : ℕ) (i : Fin NP) (r : R) (pr : ℕ) (s s' : State R V NP) : Prop :=
  Contacts MaxStep i r s ∧ (s' = called s i r pr ∨ Delivered i r pr s s')

def Terminated (MaxStep : ℕ) (s : State R V NP) : Prop := ∀ i, s.pDecStep i ≠ 0 ∨ MaxStep < s.pStep i

def Next (PriMax MaxStep : ℕ) (s s' : State R V NP) : Prop :=
  (∃ i r pr, PriChoices PriMax s i pr ∧ Rpc MaxStep i r pr s s') ∨ Terminated MaxStep s ∧ s' = s

def Reachable (PriMax MaxStep : ℕ) (s : State R V NP) : Prop :=
  ∃ s₀, Init s₀ ∧ Relation.ReflTransGen (Next PriMax MaxStep) s₀ s

/-! ## What is checked -/

/-- the assertions of a call that is possible in `s` -/
structure Asserts (MaxStep : ℕ) (s : State R V NP) (i : Fin NP) (r : R) (pr : ℕ) : Prop where
  /-- Lemma C.2: the reply is not below the request -/
  reply : s.pStep i ≤ (called s i r pr).rS r
  /-- a mixed quorum has a reply ahead, and what is ahead reports a first value -/
  ahead : Quorum R ≤ (Dom (buffered s i r pr)).card → ¬AllAt (buffered s i r pr) (s.pStep i) →
    ∀ y, Highest (buffered s i r pr) y → s.pStep i < y.st ∧ y.f ≠ none
  /-- phase 0: a reply at the step carries a first value -/
  first : AllAt (buffered s i r pr) (s.pStep i) → s.pStep i % 4 = 0 →
    ∀ x y, buffered s i r pr x = some y → y.f ≠ none
  /-- Lemma C.5: a gather finds something -/
  gather : Quorum R ≤ (Dom (buffered s i r pr)).card → AllAt (buffered s i r pr) (s.pStep i) →
    s.pStep i % 4 = 2 ∨ s.pStep i % 4 = 3 → (As (buffered s i r pr)).Nonempty

/-- a step that was executed: 0 stands for none -/
def Executed (MaxStep st : ℕ) : Prop := st = 0 ∨ 4 ≤ st ∧ st ≤ MaxStep

omit [Fintype R] [DecidableEq R] in
/-- every proposal of the state meets `T` -/
structure Holds (T : Proposal NP V → Prop) (s : State R V NP) : Prop where
  prop : ∀ i, T (s.pProp i)
  regs : ∀ r p, s.rF r = some p ∨ s.rAc r = some p ∨ s.rAp r = some p → T p
  replies : ∀ i x y, s.pReplies i x = some y → ∀ p, y.f = some p ∨ y.a = some p → T p

structure TypeOK (PriMax MaxStep : ℕ) (s : State R V NP) : Prop where
  proposals : Holds (fun p => 1 ≤ p.pri ∧ p.pri ≤ PriMax) s
  recorders : ∀ r, Executed MaxStep (s.rS r)
  steps : ∀ i, 4 ≤ s.pStep i ∧ s.pStep i ≤ MaxStep + 1
  decided : ∀ i, Executed MaxStep (s.pDecStep i)
  few : ∀ i, (Dom (s.pReplies i)).card < Quorum R
  replies : ∀ i x y, s.pReplies i x = some y → 4 ≤ y.st ∧ y.st ≤ MaxStep

section Checked

variable (s s' : State R V NP)

def Agreement : Prop := ∀ i j, s.pDec i ≠ none ∧ s.pDec j ≠ none → s.pDec i = s.pDec j

def Validity : Prop := ∀ i, s.pDec i ≠ none → ∃ j, s.pDec i = some (s.inp j)

def DecideOnce : Prop := ∀ i, s.pDec i ≠ none → s'.pDec i = s.pDec i

def Monotone : Prop := (∀ i, s.pStep i ≤ s'.pStep i) ∧ ∀ r, s.rS r ≤ s'.rS r

def RepliesAhead : Prop := ∀ i x y, s.pReplies i x = some y → s.pStep i ≤ y.st

def DecisionAtPhase2 : Prop := ∀ i, s.pDecStep i ≠ 0 → s.pDecStep i % 4 = 2

def DecisionDominance : Prop := ∀ i, s.pDecStep i ≠ 0 → ∀ k, 4 * (s.pDecStep i / 4 + 1) ≤ s.pStep k →
  some (s.pProp k).val = s.pDec i

def IsrConsistent : Prop := ∀ r, (s.rS r = 0 ↔ s.rF r = none) ∧
  (s.rS r = 0 → s.rAc r = none ∧ s.rAp r = none) ∧
  ∀ f, s.rF r = some f → ∃ a, s.rAc r = some a ∧ ¬Better f a

def ValuesFromInputs : Prop := Holds (fun p => ∃ j, p.val = s.inp j) s

end Checked

end Queso.Spec.Concrete
