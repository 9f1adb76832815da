import Whitespace.Text.Decimal

/-!
Machine words: 32-bit signed integers. Sums, differences and products wrap around.
-/
namespace Whitespace

abbrev Word := Int32

namespace Word

def text (w : Word) : List Char := Decimal.ofInt w.toInt

/-- Reads a decimal numeral that lies within the range of words. -/
def ofText? (cs : List Char) : Option Word :=
  (Decimal.integer? cs).bind fun i =>
    if -2147483648 ≤ i ∧ i ≤ 2147483647 then some (Int32.ofInt i) else none

end Word

end Whitespace
