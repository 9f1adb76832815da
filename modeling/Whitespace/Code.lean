import Whitespace.Instruction

/-!
Code: the flat list of ops that the machine executes. Branches are relative to the address of the
branch itself. A call pushes the number of its return site, and every return goes through one
multiway branch, the dispatcher, whose table is indexed by those numbers.
-/
namespace Whitespace

inductive Op where
  | push (value : Word)
  | dup | swap | drop
  | add | sub | mul | div | mod
  | store | load
  | jump (offset : Int32) | jumpIfZero (offset : Int32) | jumpIfNegative (offset : Int32)
  | pushReturn (site : UInt32) | dispatch (table : Array Int32)
  | writeChar | writeNumber | readChar | readNumber
  | halt
  deriving DecidableEq, Repr

/-- How many values an op takes off the operand stack, and how many it then puts there. -/
structure Effect where
  pops : Nat
  pushes : Nat
  deriving DecidableEq, Repr

namespace Op

def effect : Op → Effect
  | .push _ => ⟨0, 1⟩
  | .dup => ⟨1, 2⟩
  | .swap => ⟨2, 2⟩
  | .drop => ⟨1, 0⟩
  | .add | .sub | .mul | .div | .mod => ⟨2, 1⟩
  | .store => ⟨2, 0⟩
  | .load => ⟨1, 1⟩
  | .jump _ => ⟨0, 0⟩
  | .jumpIfZero _ | .jumpIfNegative _ => ⟨1, 0⟩
  | .pushReturn _ | .dispatch _ => ⟨0, 0⟩
  | .writeChar | .writeNumber | .readChar | .readNumber => ⟨1, 0⟩
  | .halt => ⟨0, 0⟩

/-- The offset of a branch with one target. -/
def branchOffset? : Op → Option Int32
  | .jump offset | .jumpIfZero offset | .jumpIfNegative offset => some offset
  | _ => none

/-- Changes the offset of a branch with one target, and no other op. -/
def withBranchOffset (offset : Int32) : Op → Op
  | .jump _ => .jump offset
  | .jumpIfZero _ => .jumpIfZero offset
  | .jumpIfNegative _ => .jumpIfNegative offset
  | op => op

/-- Whether the op at the next address may be executed next. -/
def fallsThrough : Op → Bool
  | .push _ | .dup | .swap | .drop | .add | .sub | .mul | .div | .mod | .store | .load => true
  | .jumpIfZero _ | .jumpIfNegative _ | .pushReturn _ => true
  | .writeChar | .writeNumber | .readChar | .readNumber => true
  | .jump _ | .dispatch _ | .halt => false

def family : Op → Family
  | .push _ | .dup | .swap | .drop => .stack
  | .add | .sub | .mul | .div | .mod => .arithmetic
  | .store | .load => .heap
  | .jump _ | .jumpIfZero _ | .jumpIfNegative _ | .pushReturn _ | .dispatch _ | .halt => .flow
  | .writeChar | .writeNumber | .readChar | .readNumber => .io

def name : Op → String
  | .push _ => "PUSH"
  | .dup => "DUP"
  | .swap => "SWAP"
  | .drop => "DROP"
  | .add => "ADD"
  | .sub => "SUB"
  | .mul => "MUL"
  | .div => "DIV"
  | .mod => "MOD"
  | .store => "STORE"
  | .load => "LOAD"
  | .jump _ => "JUMP"
  | .jumpIfZero _ => "JUMP_ZERO"
  | .jumpIfNegative _ => "JUMP_NEG"
  | .pushReturn _ => "PUSH_RET"
  | .dispatch _ => "DISPATCH"
  | .writeChar => "WRITE_CHAR"
  | .writeNumber => "WRITE_NUM"
  | .readChar => "READ_CHAR"
  | .readNumber => "READ_NUM"
  | .halt => "HALT"

/-- Where a branch at `address` goes; it may lie outside the code. -/
def target (address : Nat) (offset : Int32) : Int := address + offset.toInt

/-- All addresses that may come after the op at `address`. -/
def successors (op : Op) (address : Nat) : List Int :=
  let next := if op.fallsThrough then [(address : Int) + 1] else []
  let branch := (op.branchOffset?.map (target address)).toList
  match op with
  | .dispatch table => next ++ branch ++ table.toList.map (target address)
  | _ => next ++ branch

end Op

/-- Compiled code. Execution starts at address 0. -/
structure Code where
  ops : Array Op
  /-- How many call sites there are. -/
  returnSites : UInt32
  /-- The address of the dispatcher. -/
  dispatcher : Option UInt64
  /-- How many instructions the code was compiled from. -/
  sourceInstructions : UInt64
  deriving DecidableEq, Repr

/-- Code that is only a list of ops. -/
def Code.ofOps (ops : Array Op) : Code := ⟨ops, 0, none, 0⟩

end Whitespace
