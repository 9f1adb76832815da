import Whitespace.Program
import Whitespace.Code
import Whitespace.Code.Label

/-!
Compiling programs to code, one instruction after the other. A mark places its label's target at
the next op, and branches keep their target until all targets have been placed. A call becomes a
push of its return site's number and a jump; the return site is the op after the jump. A return
becomes a jump to the dispatcher, which comes after the halt that ends every program.
-/
namespace Whitespace

inductive CompileError where
  | missingLiteral (line : Nat) (opcode : Opcode)
  | literalOverflow (line : Nat) (bits : Nat)
  | duplicateLabel (label : BitString) (line : Nat)
  | undefinedLabel (label : BitString)
  | unplacedTarget (address : Nat)
  deriving DecidableEq, Repr

def CompileError.message : CompileError → String
  | .missingLiteral line op => s!"{line}: '" ++ op.mnemonic ++ "' is missing its literal"
  | .literalOverflow line bits =>
    s!"{line}: numeric literal overflow: {bits} bits used, at most {BitString.numberWidth} allowed"
  | .duplicateLabel label line => s!"{line}: label '" ++ label.name ++ "' is marked more than once"
  | .undefinedLabel label => "undefined label '" ++ label.name ++ "'"
  | .unplacedTarget address => s!"internal error: branch at {address} has an unplaced target"

inductive BranchKind where
  | always | ifZero | ifNegative
  deriving DecidableEq, Repr

def BranchKind.op : BranchKind → Int32 → Op
  | .always => .jump
  | .ifZero => .jumpIfZero
  | .ifNegative => .jumpIfNegative

@[simp] theorem BranchKind.withBranchOffset_op (kind : BranchKind) (old new : Int32) :
    (kind.op old).withBranchOffset new = kind.op new := by
  cases kind <;> rfl

/-- An op of code that is being laid out: a branch still has a target in place of an offset. -/
inductive Slot where
  | op (op : Op)
  | branch (kind : BranchKind) (target : Target)
  deriving DecidableEq, Repr

/-- The state between two instructions. -/
structure Lowering where
  slots : Array Slot
  targets : Targets
  labels : LabelTable
  /-- The targets after the calls so far. -/
  returnSites : Array Target
  /-- Allocated by the first return. -/
  dispatcher : Option Target
  /-- The height of the operand stack if the code so far ran straight through. -/
  height : Int

namespace Lowering

def empty : Lowering := ⟨#[], .empty, .empty, #[], none, 0⟩

/-- Appends an op that changes the height by `change`. -/
def emit (s : Lowering) (op : Op) (change : Int) : Lowering :=
  { s with slots := s.slots.push (.op op), height := s.height + change }

def emitBranch (s : Lowering) (kind : BranchKind) (target : Target) (change : Int) : Lowering :=
  { s with slots := s.slots.push (.branch kind target), height := s.height + change }

def literal (i : Instruction) : Except CompileError BitString :=
  match i.param with
  | some bits => .ok bits
  | none => .error (.missingLiteral i.line i.opcode)

def number (i : Instruction) : Except CompileError Word := do
  match (← literal i).toNumber with
  | .ok n => .ok n
  | .error e => .error (.literalOverflow i.line e.bits)

/-- A branch to a label. -/
def branchTo (s : Lowering) (i : Instruction) (kind : BranchKind) (change : Int) :
    Except CompileError Lowering := do
  let (entry, labels, targets) := s.labels.entry s.targets (← literal i)
  return { s with labels, targets }.emitBranch kind entry.target change

def mark (s : Lowering) (i : Instruction) : Except CompileError Lowering := do
  let label ← literal i
  let (entry, labels, targets) := s.labels.entry s.targets label
  if entry.defined then .error (.duplicateLabel label i.line)
  else
    return { s with
      labels := labels.setDefined label
      targets := targets.place entry.target s.slots.size }

def call (s : Lowering) (i : Instruction) : Except CompileError Lowering := do
  let (callee, labels, targets) := s.labels.entry s.targets (← literal i)
  let s := { s with labels, targets }.emit (.pushReturn s.returnSites.size.toUInt32) 0
  let s := s.emitBranch .always callee.target 0
  let (site, targets) := s.targets.allocate
  return { s with
    targets := targets.place site s.slots.size
    returnSites := s.returnSites.push site }

def ret (s : Lowering) : Lowering :=
  match s.dispatcher with
  | some target => s.emitBranch .always target 0
  | none =>
    let (target, targets) := s.targets.allocate
    { s with targets, dispatcher := some target }.emitBranch .always target 0

/-- Lowers one instruction. A literal that the opcode does not take is ignored. -/
def lower (s : Lowering) (i : Instruction) : Except CompileError Lowering :=
  match i.opcode with
  | .push => (number i).map fun n => s.emit (.push n) 1
  | .dup => .ok (s.emit .dup 1)
  | .swap => .ok (s.emit .swap 0)
  | .pop => .ok (s.emit .drop (-1))
  | .add => .ok (s.emit .add (-1))
  | .sub => .ok (s.emit .sub (-1))
  | .mul => .ok (s.emit .mul (-1))
  | .div => .ok (s.emit .div (-1))
  | .mod => .ok (s.emit .mod (-1))
  | .store => .ok (s.emit .store (-2))
  | .load => .ok (s.emit .load 0)
  | .mark => s.mark i
  | .call => s.call i
  | .jump => s.branchTo i .always 0
  | .jumpIfZero => s.branchTo i .ifZero (-1)
  | .jumpIfNegative => s.branchTo i .ifNegative (-1)
  | .ret => .ok s.ret
  | .halt => .ok { s.emit .halt 0 with height := 0 }
  | .writeChar => .ok (s.emit .writeChar (-1))
  | .writeNumber => .ok (s.emit .writeNumber (-1))
  | .readChar => .ok (s.emit .readChar (-1))
  | .readNumber => .ok (s.emit .readNumber (-1))

def lowerAll (s : Lowering) : List Instruction → Except CompileError Lowering
  | [] => .ok s
  | i :: is =>
    match s.lower i with
    | .error e => .error e
    | .ok s => s.lowerAll is

/-- The offset from one address to another. -/
def relative (source destination : Nat) : Int32 :=
  Int32.ofNat destination - Int32.ofNat source

/-- The dispatcher at `address`: entry `k` leads to return site `k`. -/
def dispatchTable (s : Lowering) (address : Nat) : Array Int32 :=
  s.returnSites.map fun site => ((s.targets.address? site).map (relative address)).getD 0

/-- Appends the final halt, and the dispatcher if there is a call or a return. Also gives the
address of the dispatcher. -/
def close (s : Lowering) : Lowering × Option Nat :=
  let s := { s with slots := s.slots.push (.op .halt) }
  if s.returnSites.isEmpty && s.dispatcher.isNone then (s, none)
  else
    let address := s.slots.size
    let targets := match s.dispatcher with
      | some target => s.targets.place target address
      | none => s.targets
    let table := s.dispatchTable address
    ({ s with slots := s.slots.push (.op (.dispatch table)), targets }, some address)

/-- The op of a slot. A branch is given its offset now that its target has been placed. -/
def resolve (targets : Targets) (address : Nat) : Slot → Except CompileError Op
  | .op op => .ok op
  | .branch kind target =>
    match targets.address? target with
    | some destination => .ok ((kind.op 0).withBranchOffset (relative address destination))
    | none => .error (.unplacedTarget address)

def resolveAll (s : Lowering) : Except CompileError (List Op) :=
  s.slots.toList.zipIdx.mapM fun (slot, address) => resolve s.targets address slot

/-- Checks the labels and turns the closed state into code. -/
def finish (s : Lowering) (sourceInstructions : Nat) : Except CompileError Code :=
  let (closed, dispatcher) := s.close
  match closed.labels.undefined? with
  | some label => .error (.undefinedLabel label)
  | none => closed.resolveAll.map fun ops =>
    { ops := ops.toArray
      returnSites := closed.returnSites.size.toUInt32
      dispatcher := dispatcher.map Nat.toUInt64
      sourceInstructions := sourceInstructions.toUInt64 }

end Lowering

def Program.compile (p : Program) : Except CompileError Code :=
  match Lowering.empty.lowerAll p.instructions.toList with
  | .error e => .error e
  | .ok s => s.finish p.size

end Whitespace
