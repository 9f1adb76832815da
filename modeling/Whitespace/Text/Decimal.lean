/-!
Decimal numerals: how numbers are written, and which texts are read as one. A numeral that is
read has at least one ASCII digit and may have leading zeros; one that is written has none.
-/
namespace Whitespace.Decimal

def ofNat (n : Nat) : List Char := Nat.toDigits 10 n

def ofInt (i : Int) : List Char :=
  if i < 0 then '-' :: ofNat i.natAbs else ofNat i.natAbs

/-- A bare run of digits. -/
def digits? (cs : List Char) : Option Nat :=
  if !cs.isEmpty && cs.all Char.isDigit then some (Nat.ofDigitChars 10 cs 0) else none

/-- One sign of either kind may come first. -/
def integer? : List Char → Option Int
  | '-' :: cs => (digits? cs).map fun n => -(n : Int)
  | '+' :: cs => (digits? cs).map fun n => (n : Int)
  | cs => (digits? cs).map fun n => (n : Int)

/-- A count below `bound`; a plus sign may come first, a minus sign may not. -/
def natural? (bound : Nat) (cs : List Char) : Option Nat :=
  (match cs with
    | '+' :: ds => digits? ds
    | ds => digits? ds).filter (· < bound)

theorem digits?_ofNat (n : Nat) : digits? (ofNat n) = some n := by
  have hall : (Nat.toDigits 10 n).all Char.isDigit = true :=
    List.all_eq_true.2 fun _ hc => Nat.isDigit_of_mem_toDigits (by decide) (by decide) hc
  simp [digits?, ofNat, hall]

end Whitespace.Decimal
