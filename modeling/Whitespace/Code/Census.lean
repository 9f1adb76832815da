import Whitespace.Code.Printer
import Whitespace.Text.Fixed

/-!
A census of code: how many ops there are of each family, how many calls, and how many returns,
which are the jumps to the dispatcher.
-/
namespace Whitespace

structure Census where
  stack : Nat
  arithmetic : Nat
  heap : Nat
  flow : Nat
  io : Nat
  calls : Nat
  returns : Nat
  deriving DecidableEq, Repr

namespace Census

def isCall : Op → Bool
  | .pushReturn _ => true
  | _ => false

/-- Whether the op at `address` jumps to the dispatcher. -/
def isReturn (dispatcher : Option UInt64) (op : Op) (address : Nat) : Bool :=
  match op, dispatcher with
  | .jump offset, some d => Op.target address offset % 18446744073709551616 == (d.toNat : Int)
  | _, _ => false

def ofCode (code : Code) : Census :=
  let count (family : Family) := code.ops.toList.countP fun op => op.family == family
  { stack := count .stack
    arithmetic := count .arithmetic
    heap := count .heap
    flow := count .flow
    io := count .io
    calls := code.ops.toList.countP isCall
    returns := code.ops.toList.zipIdx.countP fun (op, address) =>
      isReturn code.dispatcher op address }

/-- The line of a family that has at least one op. -/
def line (total : Nat) (label : String) (count : Nat) : String :=
  if count = 0 then ""
  else
    let percent := Fixed.tenths (count.toFloat / (max total 1).toFloat * 100.0)
    "  " ++ Column.left 11 label ++ " " ++ Column.right 5 (toString count) ++
      " (" ++ Column.right 5 percent ++ "%)\n"

end Census

def Code.statistics (code : Code) : String :=
  let census := Census.ofCode code
  let line := Census.line code.ops.size
  code.summary ++ s!"call sites:  {census.calls}\nreturn ops:  {census.returns}\n\n" ++
    line "stack" census.stack ++ line "arithmetic" census.arithmetic ++ line "heap" census.heap ++
    line "flow" census.flow ++ line "i/o" census.io

end Whitespace
