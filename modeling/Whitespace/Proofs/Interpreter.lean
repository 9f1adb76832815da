import Whitespace.Machine
import Whitespace.Proofs.Run

/-!
The meaning of programs without compiling them. An interpreter stands at an instruction and keeps
the indices to which calls return; branches and calls look for the mark of their label. Data is
that of the machine, and instructions that are no control flow do to it what their ops do.
-/
namespace Whitespace

namespace Instruction

/-- The op that does what the instruction does, unless it is a mark or leads somewhere. -/
def op? (i : Instruction) : Option Op :=
  match i.opcode with
  | .push => i.param.bind fun bits => bits.toNumber.toOption.map Op.push
  | .dup => some .dup
  | .swap => some .swap
  | .pop => some .drop
  | .add => some .add
  | .sub => some .sub
  | .mul => some .mul
  | .div => some .div
  | .mod => some .mod
  | .store => some .store
  | .load => some .load
  | .mark | .call | .jump | .jumpIfZero | .jumpIfNegative | .ret => none
  | .halt => some .halt
  | .writeChar => some .writeChar
  | .writeNumber => some .writeNumber
  | .readChar => some .readChar
  | .readNumber => some .readNumber

/-- Whether the instruction marks `label`. -/
def marks (label : BitString) (i : Instruction) : Bool :=
  i.opcode == .mark && i.param == some label

/-- The index of the mark of a label. -/
def markIndex? (is : List Instruction) (label : BitString) : Option Nat :=
  is.findIdx? (marks label)

end Instruction

structure Interpreter where
  data : Data
  /-- The indices after all calls that have not returned. -/
  returns : Stack Nat
  index : Nat

namespace Interpreter

/-- An interpreter is stuck at a literal or a mark that is missing. -/
inductive Outcome where
  | running (s : Interpreter)
  | halted (s : Interpreter)
  | faulted (f : Fault) (s : Interpreter)
  | stuck

def Outcome.ending? : Outcome → Option Ending
  | .running _ | .stuck => none
  | .halted s => some ⟨none, s.data, s.returns.depth⟩
  | .faulted f s => some ⟨some f, s.data, s.returns.depth⟩

/-- At the start of a program. -/
def fresh (input : List UInt8) (output : Output) : Interpreter :=
  ⟨Data.fresh input output, .empty, 0⟩

def next (s : Interpreter) : Interpreter := { s with index := s.index + 1 }

def goto (is : List Instruction) (s : Interpreter) (label : Option BitString) : Outcome :=
  match label.bind (Instruction.markIndex? is) with
  | some index => .running { s with index }
  | none => .stuck

/-- Takes a value off the stack, and goes to the label if it passes the test. -/
def branchIf (is : List Instruction) (s : Interpreter) (test : Word → Bool)
    (label : Option BitString) : Outcome :=
  match s.data.stack.pop? with
  | none => .faulted .stackUnderflow s
  | some (w, stack) =>
    let s := { s with data := { s.data with stack } }
    if test w then s.goto is label else .running s.next

def call (limits : Limits) (is : List Instruction) (s : Interpreter) (label : Option BitString) :
    Outcome :=
  if limits.maxCallDepth ≤ s.returns.depth then
    .faulted (.callDepthExceeded limits.maxCallDepth) s
  else { s with returns := s.returns.push (s.index + 1) }.goto is label

def ret (s : Interpreter) : Outcome :=
  match s.returns.pop? with
  | none => .faulted .returnStackUnderflow s
  | some (index, returns) => .running { s with returns, index }

/-- Does what an op does to the data. -/
def perform (s : Interpreter) (op : Op) : Outcome :=
  match s.data.apply op with
  | .done data => .running { s with data }.next
  | .fault f data => .faulted f { s with data }

def exec (limits : Limits) (is : List Instruction) (s : Interpreter) (i : Instruction) : Outcome :=
  match i.opcode with
  | .mark => .running s.next
  | .call => s.call limits is i.param
  | .jump => s.goto is i.param
  | .jumpIfZero => s.branchIf is (· == 0) i.param
  | .jumpIfNegative => s.branchIf is (· < 0) i.param
  | .ret => s.ret
  | .halt => .halted s
  | _ =>
    match i.op? with
    | some op => s.perform op
    | none => .stuck

/-- The size of the stack is looked at before every instruction that is no mark, and at the end of
the program. -/
def step (limits : Limits) (is : List Instruction) (s : Interpreter) : Outcome :=
  match is[s.index]? with
  | some i =>
    if i.opcode = .mark then .running s.next
    else if limits.maxStackSize < s.data.stack.depth then
      .faulted (.stackLimit limits.maxStackSize) s
    else s.exec limits is i
  | none =>
    if limits.maxStackSize < s.data.stack.depth then
      .faulted (.stackLimit limits.maxStackSize) s
    else .halted s

/-- At most `n` steps. -/
def runFor (limits : Limits) (is : List Instruction) : Nat → Interpreter → Outcome
  | 0, s => .running s
  | n + 1, s =>
    match s.step limits is with
    | .running s => runFor limits is n s
    | o => o

/-- The run from `s` comes to this end. -/
def Ends (limits : Limits) (is : List Instruction) (s : Interpreter) (e : Ending) : Prop :=
  ∃ n, (s.runFor limits is n).ending? = some e

variable {limits : Limits} {is : List Instruction} {s s' : Interpreter} {e : Ending}

theorem runFor_succ_of_running (h : s.step limits is = .running s') (n : Nat) :
    s.runFor limits is (n + 1) = s'.runFor limits is n := by
  rw [runFor, h]

theorem runFor_succ_of_ended (h : (s.step limits is).ending? = some e) (n : Nat) :
    s.runFor limits is (n + 1) = s.step limits is := by
  rw [runFor]
  split
  · next hstep => rw [hstep] at h; cases h
  · rfl

theorem Ends.of_ended (h : (s.step limits is).ending? = some e) : Ends limits is s e :=
  ⟨1, by rw [runFor_succ_of_ended h]; exact h⟩

theorem Ends.of_running (h : s.step limits is = .running s') (hends : Ends limits is s' e) :
    Ends limits is s e := by
  obtain ⟨n, hn⟩ := hends
  exact ⟨n + 1, by rw [runFor_succ_of_running h]; exact hn⟩

end Interpreter

end Whitespace
