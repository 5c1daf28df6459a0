/-
The chain of blocks: how many commands a replica has applied, and a running hash over exactly those commands in order.

The node folds its own chain and the harness folds the same one, so the encoding of a command is fixed field by field:
little-endian, with a leading tag. The hash is FNV-1a with a finaliser, and nothing here relies on its strength.
-/
import Queso.Smr.Command

namespace Queso.Chain

abbrev BlockHash := UInt64

/-- the FNV-1a offset basis -/
def GENESIS : BlockHash := 0xcbf29ce484222325

def FNV_PRIME : UInt64 := 0x100000001b3

/-- FNV-1a over `bytes`, from the accumulator `acc` -/
def fnv1a (acc : UInt64) (bytes : List UInt8) : UInt64 := bytes.foldl (fun h b => (h ^^^ b.toUInt64) * FNV_PRIME) acc

def mix (x : UInt64) : UInt64 :=
  let z := (x ^^^ (x >>> 30)) * 0xbf58476d1ce4e5b9
  let z := (z ^^^ (z >>> 27)) * 0x94d049bb133111eb
  z ^^^ (z >>> 31)

/-- `to_le_bytes` of an integer of `width` bytes -/
def leBytes (width x : ℕ) : List UInt8 := (List.range width).map fun i => UInt8.ofNat (x >>> (8 * i))

def encode : Command → List UInt8
  | .put client seq key value =>
    0 :: leBytes 4 client ++ leBytes 8 seq ++ leBytes 4 key ++ leBytes 8 (BitVec.ofInt 64 value).toNat
  | .get client seq key => 1 :: leBytes 4 client ++ leBytes 8 seq ++ leBytes 4 key

/-- the digest of one command, wherever it stands -/
def commandDigest (c : Command) : UInt64 := mix (fnv1a GENESIS (encode c))

def extend (h : BlockHash) (c : Command) : BlockHash := mix (fnv1a (fnv1a GENESIS (leBytes 8 h.toNat)) (encode c))

end Queso.Chain

namespace Queso

open Chain

structure ChainState where
  n : ℕ
  h : BlockHash
deriving DecidableEq, Repr

/-- one applied command, as the state before it and the state after it -/
structure Transition where
  before : ChainState
  after : ChainState
  commandDigest : UInt64
deriving DecidableEq, Repr

namespace ChainState

def genesis : ChainState := ⟨0, GENESIS⟩

/-- applies one command; the chain is then in the state `after` -/
def apply (state : ChainState) (c : Command) : Transition := ⟨state, ⟨state.n + 1, extend state.h c⟩, commandDigest c⟩

@[simp] theorem apply_n (state : ChainState) (c : Command) : (state.apply c).after.n = state.n + 1 := rfl

def fromLog (commands : List Command) : ChainState := commands.foldl (fun state c => (state.apply c).after) genesis

@[simp] theorem fromLog_nil : fromLog [] = genesis := rfl

theorem fromLog_snoc (commands : List Command) (c : Command) :
    fromLog (commands ++ [c]) = ((fromLog commands).apply c).after := by
  simp [fromLog]

@[simp] theorem fromLog_n (commands : List Command) : (fromLog commands).n = commands.length := by
  induction commands using List.reverseRecOn with
  | nil => rfl
  | append_singleton commands c ih => rw [fromLog_snoc, apply_n, ih, List.length_append, List.length_singleton]

end ChainState

end Queso
