import Whitespace.Machine.Data

/-!
The machine. It executes one op at a time, under limits on the number of ops, on the depth of calls
and on the size of the operand stack. Control that comes to the end of the code ends the run.
-/
namespace Whitespace

structure Limits where
  maxSteps : Option Nat
  maxCallDepth : Nat
  maxStackSize : Nat
  deriving DecidableEq, Repr

def Limits.standard : Limits := ⟨none, 10000, 1000000⟩

structure Machine where
  data : Data
  /-- The numbers of the return sites of all calls that have not returned. -/
  returns : Stack UInt32
  address : Nat
  /-- How many ops were begun. -/
  steps : Nat

/-- Where a run stands. A machine that faulted still has the address of the op at fault. -/
inductive Progress where
  | running (m : Machine)
  | halted (m : Machine)
  | faulted (f : Fault) (m : Machine)

namespace Machine

/-- At the start of a run with nothing on the stack or in the heap. -/
def fresh (input : List UInt8) (output : Output) : Machine :=
  ⟨Data.fresh input output, .empty, 0, 0⟩

/-- Back at the start; only the input and the output are kept. -/
def reset (m : Machine) : Machine := fresh m.data.input m.data.output

def next (m : Machine) : Machine := { m with address := m.address + 1 }

/-- Jumps within code of so many ops. Its end is a place to jump to. -/
def goto (m : Machine) (size : Nat) (offset : Int32) : Progress :=
  let target := Op.target m.address offset
  if 0 ≤ target ∧ target ≤ size then .running { m with address := target.toNat }
  else .faulted (.invalidJump target) m

/-- Takes a value off the stack, and jumps if it passes the test. -/
def branchIf (m : Machine) (size : Nat) (test : Word → Bool) (offset : Int32) : Progress :=
  match m.data.stack.pop? with
  | none => .faulted .stackUnderflow m
  | some (w, stack) =>
    let m := { m with data := { m.data with stack } }
    if test w then m.goto size offset else .running m.next

def pushReturn (m : Machine) (limits : Limits) (site : UInt32) : Progress :=
  if limits.maxCallDepth ≤ m.returns.depth then
    .faulted (.callDepthExceeded limits.maxCallDepth) m
  else .running { m with returns := m.returns.push site }.next

def dispatch (m : Machine) (size : Nat) (table : Array Int32) : Progress :=
  match m.returns.pop? with
  | none => .faulted .returnStackUnderflow m
  | some (site, returns) =>
    let m := { m with returns }
    match table[site.toNat]? with
    | none => .faulted (.unknownReturnSite site) m
    | some offset => m.goto size offset

/-- Executes one op of code that has `size` ops. -/
def exec (limits : Limits) (size : Nat) (m : Machine) : Op → Progress
  | .jump offset => m.goto size offset
  | .jumpIfZero offset => m.branchIf size (· == 0) offset
  | .jumpIfNegative offset => m.branchIf size (· < 0) offset
  | .pushReturn site => m.pushReturn limits site
  | .dispatch table => m.dispatch size table
  | .halt => .halted m
  | op =>
    match m.data.apply op with
    | .done data => .running { m with data }.next
    | .fault f data => .faulted f { m with data }

/-- The limits are looked at before each op, the number of ops first. -/
def exceeded? (limits : Limits) (m : Machine) : Option Fault :=
  match limits.maxSteps with
  | some max =>
    if max < m.steps then some (.stepLimit max)
    else if limits.maxStackSize < m.data.stack.depth then some (.stackLimit limits.maxStackSize)
    else none
  | none =>
    if limits.maxStackSize < m.data.stack.depth then some (.stackLimit limits.maxStackSize)
    else none

def step (limits : Limits) (ops : Array Op) (m : Machine) : Progress :=
  match ops[m.address]? with
  | none => .halted m
  | some op =>
    let m := { m with steps := m.steps + 1 }
    match m.exceeded? limits with
    | some f => .faulted f m
    | none => m.exec limits ops.size op

/-- At most `n` steps. -/
def runFor (limits : Limits) (ops : Array Op) : Nat → Machine → Progress
  | 0, m => .running m
  | n + 1, m =>
    match m.step limits ops with
    | .running m => runFor limits ops n m
    | p => p

end Machine

namespace Progress

def machine : Progress → Machine
  | .running m | .halted m | .faulted _ m => m

/-- The fault and the address at which it was raised. -/
def fault? : Progress → Option (Fault × Nat)
  | .faulted f m => some (f, m.address)
  | _ => none

end Progress

end Whitespace
