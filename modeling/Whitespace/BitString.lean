import Whitespace.Word

/-!
Bit strings: the literals of Whitespace. A space is 0 and a tab is 1. As a number, the first bit
is the sign and the rest the magnitude, most significant bit first; as a label, the whole string
is an opaque key. Bit strings are shown with the letters s and t.
-/
namespace Whitespace

inductive Bit where
  | space | tab
  deriving DecidableEq, Hashable, Repr

namespace Bit

def toNat : Bit → Nat
  | .space => 0
  | .tab => 1

def byte : Bit → UInt8
  | .space => 32
  | .tab => 9

def letter : Bit → Char
  | .space => 's'
  | .tab => 't'

def ofLetter? : Char → Option Bit
  | 's' => some .space
  | 't' => some .tab
  | _ => none

@[simp] theorem ofLetter?_letter (b : Bit) : ofLetter? b.letter = some b := by
  cases b <;> rfl

end Bit

abbrev BitString := List Bit

namespace BitString

/-- The widest number, its sign bit included. -/
def numberWidth : Nat := 31

/-- A literal of so many bits is too wide for a number. -/
structure Overflow where
  bits : Nat
  deriving DecidableEq, Repr

def Overflow.message (e : Overflow) : String :=
  s!"literal uses {e.bits} bits, at most {numberWidth} allowed"

def magnitude (bits : List Bit) : Nat :=
  bits.foldl (fun n b => 2 * n + b.toNat) 0

/-- The empty literal is zero. -/
def toNumber (bits : BitString) : Except Overflow Word :=
  if numberWidth < bits.length then .error ⟨bits.length⟩
  else
    match bits with
    | [] => .ok 0
    | .space :: rest => .ok (Int32.ofInt (magnitude rest))
    | .tab :: rest => .ok (Int32.ofInt (-(magnitude rest : Int)))

/-- The binary digits of `n` without leading zeros, put before `tail`. -/
def binary (n : Nat) (tail : BitString) : BitString :=
  if n = 0 then tail
  else binary (n / 2) ((if n % 2 = 1 then .tab else .space) :: tail)

/-- The shortest literal with a sign that stands for `w`. -/
def ofNumber (w : Word) : BitString :=
  (if w.toInt < 0 then .tab else .space) :: binary w.toInt.natAbs []

def letters (bits : BitString) : List Char := bits.map Bit.letter

def name (bits : BitString) : String := String.ofList bits.letters

def ofLetters? (cs : List Char) : Option BitString := cs.mapM Bit.ofLetter?

theorem ofLetters?_letters (bits : BitString) : ofLetters? bits.letters = some bits := by
  unfold ofLetters? letters
  induction bits with
  | nil => rfl
  | cons b bits ih => simp [ih]

end BitString

end Whitespace
