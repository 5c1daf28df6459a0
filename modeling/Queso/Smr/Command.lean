/-
Commands of the replicated log, their order, and the probe a restarted replica proposes to itself.

Commands are ordered as the source derives it: a `Put` before a `Get`, then field by field. Clients have `u32` ids; the
greatest is reserved for catch-up probes.
-/
import Mathlib.Tactic
import Mathlib.Data.Prod.Lex

namespace Queso

abbrev ClientId := ℕ

abbrev Key := ℕ

abbrev Value := ℤ

inductive Command where
  | put (client : ClientId) (seq : ℕ) (key : Key) (value : Value)
  | get (client : ClientId) (seq : ℕ) (key : Key)
deriving DecidableEq, Repr

namespace Command

def client : Command → ClientId
  | put c _ _ _ => c
  | get c _ _ => c

def seq : Command → ℕ
  | put _ s _ _ => s
  | get _ s _ => s

def clientSeq (c : Command) : ClientId × ℕ := (c.client, c.seq)

def key : Command → Key
  | put _ _ k _ => k
  | get _ _ k => k

def isPut : Command → Bool
  | put _ _ _ _ => true
  | get _ _ _ => false

/-- the constructor, then the fields, for the derived order -/
def rank : Command → ℕ ×ₗ ℕ ×ₗ ℕ ×ₗ ℕ ×ₗ ℤ
  | put c s k v => toLex (0, toLex (c, toLex (s, toLex (k, v))))
  | get c s k => toLex (1, toLex (c, toLex (s, toLex (k, 0))))

theorem rank_injective : Function.Injective rank := by
  intro c d h
  cases c <;> cases d <;> simp only [rank, toLex_inj, Prod.mk.injEq] at h
  · obtain ⟨-, rfl, rfl, rfl, rfl⟩ := h; rfl
  · exact absurd h.1 (by decide)
  · exact absurd h.1 (by decide)
  · obtain ⟨-, rfl, rfl, rfl, -⟩ := h; rfl

instance : LinearOrder Command := LinearOrder.lift' rank rank_injective

end Command

/-- the reserved client, `u32::MAX` -/
def CATCH_UP_CLIENT : ClientId := 2 ^ 32 - 1

def CATCH_UP_KEY : Key := 0

/-- what a replica proposes at a slot to learn what the slot decided -/
def catchUpProbe (slot : ℕ) : Command := .get CATCH_UP_CLIENT slot CATCH_UP_KEY

end Queso
