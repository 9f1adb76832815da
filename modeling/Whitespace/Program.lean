import Std.Data.HashMap
import Whitespace.Instruction

/-!
Programs: the instructions in order, and for each marked label the index of its mark. A label that
is marked twice keeps the later index.
-/
namespace Whitespace

structure Program where
  instructions : Array Instruction
  labels : Std.HashMap BitString Nat

namespace Program

def empty : Program := ⟨#[], ∅⟩

/-- Notes that the next instruction marks `label`. -/
def mark (p : Program) (label : BitString) : Program :=
  { p with labels := p.labels.insert label p.instructions.size }

def push (p : Program) (i : Instruction) : Program :=
  { p with instructions := p.instructions.push i }

/-- Appends an instruction, and notes its label if it is a mark. -/
def add (p : Program) (i : Instruction) : Program :=
  match i.opcode, i.param with
  | .mark, some label => (p.mark label).push i
  | _, _ => p.push i

def size (p : Program) : Nat := p.instructions.size

def isEmpty (p : Program) : Bool := p.instructions.isEmpty

def encode (p : Program) : List UInt8 := Instruction.encodeAll p.instructions.toList

end Program

end Whitespace
