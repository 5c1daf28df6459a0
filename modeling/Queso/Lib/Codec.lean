/-
Serializers that carry their round trip.

A `Codec` writes a value as bytes and reads it back off the front of any bytes that start with it. Codecs compose as data
does: fields one after another, a tag before the variant of a sum.

- `Codec.decode_encode`: what was encoded decodes to the same value.
-/
import Mathlib.Tactic

namespace Queso

universe u v

structure Codec (α : Type u) where
  put : α → List UInt8
  get : List UInt8 → Option (α × List UInt8)
  get_put : ∀ a rest, get (put a ++ rest) = some (a, rest)

namespace Codec

variable {α : Type u} {β : Type v}

def encode (c : Codec α) (a : α) : List UInt8 := c.put a

/-- bytes that are left over are ignored -/
def decode (c : Codec α) (bytes : List UInt8) : Option α := (c.get bytes).map Prod.fst

theorem decode_encode (c : Codec α) (a : α) : c.decode (c.encode a) = some a := by
  have h := c.get_put a []
  rw [List.append_nil] at h
  rw [decode, encode, h]
  rfl

/-- seven bits to a byte, the low ones first; every byte but the last has its high bit set -/
def putVar : ℕ → ℕ → List UInt8
  | 0, n => [UInt8.ofNat n]
  | fuel + 1, n => if n < 128 then [UInt8.ofNat n] else UInt8.ofNat (n % 128 + 128) :: putVar fuel (n / 128)

def getVar : List UInt8 → Option (ℕ × List UInt8)
  | [] => none
  | x :: xs => if x.toNat < 128 then some (x.toNat, xs) else (getVar xs).map fun r => (x.toNat - 128 + 128 * r.1, r.2)

theorem getVar_putVar {fuel n : ℕ} (h : n ≤ fuel) (rest : List UInt8) :
    getVar (putVar fuel n ++ rest) = some (n, rest) := by
  have hshort : ∀ {n : ℕ}, n < 128 → getVar ([UInt8.ofNat n] ++ rest) = some (n, rest) := by
    intro n hn
    have hbyte : (UInt8.ofNat n).toNat = n := by rw [UInt8.toNat_ofNat']; omega
    rw [List.singleton_append, getVar, hbyte, if_pos hn]
  induction fuel generalizing n with
  | zero => exact hshort (by omega)
  | succ fuel ih =>
    unfold putVar
    split_ifs with hn
    · exact hshort hn
    · have hbyte : (UInt8.ofNat (n % 128 + 128)).toNat = n % 128 + 128 := by rw [UInt8.toNat_ofNat']; omega
      have hbig : ¬ n % 128 + 128 < 128 := by omega
      rw [List.cons_append, getVar, hbyte, if_neg hbig, ih (by omega), Option.map_some]
      have hsum : n % 128 + 128 - 128 + 128 * (n / 128) = n := by omega
      rw [hsum]

def nat : Codec ℕ := ⟨fun n => putVar n n, getVar, fun _ rest => getVar_putVar le_rfl rest⟩

/-- one field after another -/
def prod (c : Codec α) (d : Codec β) : Codec (α × β) where
  put a := c.put a.1 ++ d.put a.2
  get bytes := (c.get bytes).bind fun r => (d.get r.2).map fun t => ((r.1, t.1), t.2)
  get_put a rest := by rw [List.append_assoc, c.get_put, Option.bind_some, d.get_put]; rfl

/-- a tag, then the variant -/
def sum (c : Codec α) (d : Codec β) : Codec (α ⊕ β) where
  put
    | .inl a => 0 :: c.put a
    | .inr b => 1 :: d.put b
  get
    | [] => none
    | tag :: bytes =>
      if tag = 0 then (c.get bytes).map fun r => (.inl r.1, r.2)
      else if tag = 1 then (d.get bytes).map fun r => (.inr r.1, r.2)
      else none
  get_put a rest := by
    cases a with
    | inl a => simp [c.get_put]
    | inr b => simp [d.get_put]

/-- a type that is coded as another -/
def via (c : Codec α) (f : α → β) (g : β → α) (h : ∀ b, f (g b) = b) : Codec β where
  put b := c.put (g b)
  get bytes := (c.get bytes).map fun r => (f r.1, r.2)
  get_put b rest := by rw [c.get_put, Option.map_some, h]

def unit : Codec Unit := ⟨fun _ => [], fun bytes => some ((), bytes), fun _ _ => rfl⟩

def option (c : Codec α) : Codec (Option α) :=
  (unit.sum c).via (Sum.elim (fun _ => none) some) (fun o => o.elim (.inl ()) .inr) (by rintro (_ | _) <;> rfl)

def int : Codec ℤ := (nat.sum nat).via (Sum.elim .ofNat .negSucc) (fun
    | .ofNat n => .inl n
    | .negSucc n => .inr n) (by rintro (_ | _) <;> rfl)

end Codec

end Queso
