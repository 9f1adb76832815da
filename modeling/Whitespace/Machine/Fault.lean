import Whitespace.Word
import Whitespace.Text.Column
import Whitespace.Text.Quoted

/-!
Faults: why a machine stops before its code is done.
-/
namespace Whitespace

inductive Fault where
  | stackUnderflow
  | divisionByZero
  | overflow
  | undefinedHeapAddress (heapAddress : Word)
  | returnStackUnderflow
  | unknownReturnSite (site : UInt32)
  | callDepthExceeded (limit : Nat)
  | stackLimit (limit : Nat)
  | stepLimit (limit : Nat)
  | invalidNumber (text : List Char)
  | unexpectedEndOfInput
  | invalidJump (target : Int)
  | inputNotText
  | outputFull
  deriving DecidableEq, Repr

namespace Fault

/-- What the fault says of the op that raised it, if it says anything of it. -/
def atOp : Fault → Option String
  | .stackUnderflow => some "stack underflow"
  | .divisionByZero => some "division by zero"
  | .overflow => some "arithmetic overflow"
  | .undefinedHeapAddress a => some s!"heap address {a.toInt} was never stored to"
  | .returnStackUnderflow => some "return without a matching call"
  | .unknownReturnSite site => some s!"return site {site.toNat} does not exist"
  | .callDepthExceeded limit => some s!"call depth limit exceeded ({limit})"
  | .stackLimit limit => some s!"stack size limit exceeded ({limit})"
  | .invalidNumber text => some ("cannot read number from " ++ Text.quote text)
  | .unexpectedEndOfInput => some "unexpected end of input"
  | .invalidJump target => some s!"jump out of bounds (target {target})"
  | .stepLimit _ | .inputNotText | .outputFull => none

/-- `address` is that of the op that raised the fault. -/
def message (address : Nat) (f : Fault) : String :=
  match f with
  | .stepLimit limit => s!"runtime error: execution step limit exceeded ({limit})"
  | .inputNotText => "runtime error: i/o: stream did not contain valid UTF-8"
  | .outputFull => "runtime error: i/o: failed to write whole buffer"
  | f => "runtime error at " ++ Column.address address ++ ": " ++ f.atOp.getD ""

end Fault

end Whitespace
