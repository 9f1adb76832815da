/-!
Numbers with a fixed count of decimal places, rounded from the exact value of a double; a tie goes
to the even neighbour.
-/
namespace Whitespace.Fixed

def roundDiv (num den : Nat) : Nat :=
  let q := num / den
  let r := num % den
  if den < 2 * r || (2 * r == den && q % 2 == 1) then q + 1 else q

/-- The numerator and denominator of a finite double that is not negative. -/
def ratio (x : Float) : Nat × Nat :=
  let bits := x.toBits.toNat
  let exponent := (bits >>> 52) % 2048
  let fraction := bits % (1 <<< 52)
  let significand := if exponent = 0 then fraction else fraction + (1 <<< 52)
  let exponent := max exponent 1
  if 1075 ≤ exponent then (significand <<< (exponent - 1075), 1)
  else (significand, 1 <<< (1075 - exponent))

/-- One decimal place. -/
def tenths (x : Float) : String :=
  let (num, den) := ratio x
  let n := roundDiv (10 * num) den
  s!"{n / 10}.{n % 10}"

end Whitespace.Fixed
