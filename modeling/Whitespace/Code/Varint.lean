/-!
The primitives of the artifact format. An unsigned number is a sequence of bytes with seven bits
each, the lowest bits first, and the high bit set in all but the last; it may have needless zeros
at its end. A signed number is written as an unsigned one, with the sign in the lowest bit.
-/
namespace Whitespace

inductive DecodeError where
  | endOfBuffer | badVarint | badOption | unknownVariant
  deriving DecidableEq, Repr

def DecodeError.message : DecodeError → String
  | .endOfBuffer => "Hit the end of buffer, expected more data"
  | .badVarint => "Found a varint that didn't terminate. Is the usize too big for this platform?"
  | .badOption => "Found an Option discriminant that wasn't 0 or 1"
  | .unknownVariant => "Serde Deserialization Error"

/-- Reads a value off the front of the bytes. -/
abbrev Decoder := StateT (List UInt8) (Except DecodeError)

namespace Varint

def encode (n : Nat) : List UInt8 :=
  if n < 128 then [n.toUInt8] else (n % 128 + 128).toUInt8 :: encode (n / 128)

/-- Reads at most `left` bytes, the last of which is at most `last` if it is the `left`-th. -/
def decodeFrom (last : Nat) : Nat → List UInt8 → Except DecodeError (Nat × List UInt8)
  | 0, _ => .error .badVarint
  | _ + 1, [] => .error .endOfBuffer
  | left + 1, b :: bs =>
    if b < 128 then
      if left = 0 ∧ last < b.toNat then .error .badVarint else .ok (b.toNat, bs)
    else
      match decodeFrom last left bs with
      | .error e => .error e
      | .ok (n, bs) => .ok (b.toNat - 128 + 128 * n, bs)

/-- Unsigned numbers of 32 bits take at most five bytes. -/
def decode32 : Decoder UInt32 := do
  return (← decodeFrom 15 5).toUInt32

/-- Unsigned numbers of 64 bits take at most ten bytes. -/
def decode64 : Decoder UInt64 := do
  return (← decodeFrom 1 10).toUInt64

/-- 0, -1, 1, -2, 2, … become 0, 1, 2, 3, 4, … -/
def zigzag (i : Int) : Nat :=
  if i < 0 then 2 * i.natAbs - 1 else 2 * i.natAbs

def unzigzag (n : Nat) : Int :=
  if n % 2 = 0 then (n / 2 : Nat) else -((n / 2 : Nat) : Int) - 1

def encodeInt (i : Int32) : List UInt8 := encode (zigzag i.toInt)

def decodeInt : Decoder Int32 := do
  return Int32.ofInt (unzigzag (← decode32).toNat)

theorem unzigzag_zigzag (i : Int) : unzigzag (zigzag i) = i := by
  unfold zigzag unzigzag
  by_cases h : i < 0
  · rw [if_pos h]; split <;> omega
  · rw [if_neg h]; split <;> omega

end Varint

end Whitespace
