/-!
Blank characters, which are those of the Unicode property White_Space, and texts cut at blanks and
at line ends.
-/
namespace Whitespace.Text

def isBlank (c : Char) : Bool :=
  let n := c.toNat
  (9 ≤ n && n ≤ 13) || n == 0x20 || n == 0x85 || n == 0xA0 || n == 0x1680 ||
  (0x2000 ≤ n && n ≤ 0x200A) || n == 0x2028 || n == 0x2029 || n == 0x202F || n == 0x205F ||
  n == 0x3000

def trim (cs : List Char) : List Char :=
  ((cs.dropWhile isBlank).reverse.dropWhile isBlank).reverse

/-- The pieces between linefeeds. A carriage return before a linefeed stays, as a blank. -/
def lines (cs : List Char) : List (List Char) := cs.splitOn '\n'

/-- The longest runs without a blank. -/
def words (cs : List Char) : List (List Char) :=
  (cs.splitOnP isBlank).filter (!·.isEmpty)

end Whitespace.Text
