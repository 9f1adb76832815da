import Whitespace.BitString

/-!
Instructions: the 22 opcodes of Whitespace, the bytes that select each of them, and what kind of
literal follows. An instruction keeps its literal undecoded, and the line on which it starts.
-/
namespace Whitespace

namespace Byte

abbrev sp : UInt8 := 32
abbrev ht : UInt8 := 9
abbrev lf : UInt8 := 10

end Byte

/-- The groups into which Whitespace divides its operations. -/
inductive Family where
  | stack | arithmetic | heap | flow | io
  deriving DecidableEq, Repr

inductive Opcode where
  | push | dup | swap | pop
  | add | sub | mul | div | mod
  | store | load
  | mark | call | jump | jumpIfZero | jumpIfNegative | ret | halt
  | writeChar | writeNumber | readChar | readNumber
  deriving DecidableEq, Repr

inductive ParamKind where
  | none | number | label
  deriving DecidableEq, Repr

namespace Opcode

def all : List Opcode :=
  [.push, .dup, .swap, .pop, .add, .sub, .mul, .div, .mod, .store, .load, .mark, .call, .jump,
    .jumpIfZero, .jumpIfNegative, .ret, .halt, .writeChar, .writeNumber, .readChar, .readNumber]

def mnemonic : Opcode → String
  | .push => "push"
  | .dup => "dup"
  | .swap => "swap"
  | .pop => "pop"
  | .add => "add"
  | .sub => "sub"
  | .mul => "mul"
  | .div => "div"
  | .mod => "mod"
  | .store => "sth"
  | .load => "ldh"
  | .mark => "mrk"
  | .call => "call"
  | .jump => "jmp"
  | .jumpIfZero => "jz"
  | .jumpIfNegative => "jlz"
  | .ret => "ret"
  | .halt => "end"
  | .writeChar => "wrc"
  | .writeNumber => "wri"
  | .readChar => "rdc"
  | .readNumber => "rdi"

def ofMnemonic? (text : String) : Option Opcode :=
  all.find? (·.mnemonic == text)

def paramKind : Opcode → ParamKind
  | .push => .number
  | .mark | .call | .jump | .jumpIfZero | .jumpIfNegative => .label
  | _ => .none

open Byte in
/-- The bytes that select the opcode. None of these strings begins another. -/
def encoding : Opcode → List UInt8
  | .push => [sp, sp]
  | .dup => [sp, lf, sp]
  | .swap => [sp, lf, ht]
  | .pop => [sp, lf, lf]
  | .add => [ht, sp, sp, sp]
  | .sub => [ht, sp, sp, ht]
  | .mul => [ht, sp, sp, lf]
  | .div => [ht, sp, ht, sp]
  | .mod => [ht, sp, ht, ht]
  | .store => [ht, ht, sp]
  | .load => [ht, ht, ht]
  | .mark => [lf, sp, sp]
  | .call => [lf, sp, ht]
  | .jump => [lf, sp, lf]
  | .jumpIfZero => [lf, ht, sp]
  | .jumpIfNegative => [lf, ht, ht]
  | .ret => [lf, ht, lf]
  | .halt => [lf, lf, lf]
  | .writeChar => [ht, lf, sp, sp]
  | .writeNumber => [ht, lf, sp, ht]
  | .readChar => [ht, lf, ht, sp]
  | .readNumber => [ht, lf, ht, ht]

theorem mem_all (op : Opcode) : op ∈ all := by
  cases op <;> decide

end Opcode

structure Instruction where
  opcode : Opcode
  param : Option BitString
  line : Nat
  deriving DecidableEq, Repr

namespace Instruction

/-- The source form. A literal that the opcode does not take is left out, and one that is missing
is written empty. -/
def encode (i : Instruction) : List UInt8 :=
  match i.opcode.paramKind with
  | .none => i.opcode.encoding
  | _ => i.opcode.encoding ++ (i.param.getD []).map Bit.byte ++ [Byte.lf]

def encodeAll (is : List Instruction) : List UInt8 := is.flatMap encode

end Instruction

end Whitespace
