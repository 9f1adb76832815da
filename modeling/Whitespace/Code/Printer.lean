import Whitespace.Code.Landing
import Whitespace.Text.Column

/-!
Code as text: one line for each op with its address, and above each landing a line that says how
control arrives there. A target before address 0 is printed modulo 2^64.
-/
namespace Whitespace

namespace Op

def targetText (address : Nat) (offset : Int32) : String :=
  Column.address (target address offset % 18446744073709551616).toNat

def offsetText (offset : Int32) : String :=
  let digits := String.ofList (Decimal.ofInt offset.toInt)
  if offset.toInt < 0 then digits else "+" ++ digits

def branchText (op : Op) (address : Nat) (offset : Int32) : String :=
  Column.left 11 op.name ++ " " ++ offsetText offset ++ (if offset.toInt < 0 then " ↑" else " ↓") ++
    " (→ " ++ targetText address offset ++ ")"

def text (op : Op) (address : Nat) : String :=
  match op with
  | .push value => Column.left 11 op.name ++ " " ++ String.ofList value.text
  | .jump offset | .jumpIfZero offset | .jumpIfNegative offset => op.branchText address offset
  | .pushReturn site => Column.left 11 op.name ++ s!" {site.toNat}"
  | .dispatch table =>
    Column.left 11 op.name ++ " ; return sites [" ++
      " ".intercalate (table.toList.map (targetText address)) ++ "]"
  | .store => Column.left 11 op.name ++ " ; ( addr value -- )"
  | .load => Column.left 11 op.name ++ " ; ( addr -- value )"
  | .readChar | .readNumber => Column.left 11 op.name ++ " ; ( addr -- )"
  | op => op.name

/-- The lines for the op at `address`. -/
def render (landing : Landing) (op : Op) (address : Nat) : String :=
  let rule := if landing.isLanding then "      ┌─ " ++ landing.describe ++ "\n" else ""
  rule ++ Column.address address ++ " " ++ landing.marker ++ " " ++ op.text address ++ "\n"

def renderAll (ops : Array Op) : String :=
  let landings := Landing.all ops
  String.join (ops.toList.zipIdx.map fun (op, address) =>
    op.render (landings[address]?.getD .none) address)

end Op

namespace Code

def summary (code : Code) : String :=
  let dispatcher := match code.dispatcher with
    | some address => "dispatcher at " ++ Column.address address.toNat
    | none => "no dispatcher"
  s!"; {code.ops.size} ops from {code.sourceInstructions.toNat} source instructions, " ++
    s!"{code.returnSites.toNat} return sites, " ++ dispatcher ++ "\n"

def print (code : Code) : String :=
  code.summary ++ "════════════════════════════════════════\n" ++ Op.renderAll code.ops

end Code

end Whitespace
