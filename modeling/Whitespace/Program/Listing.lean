import Whitespace.Text.Blank
import Whitespace.Text.Column
import Whitespace.Program

/-!
Listings: one instruction a line, with its mnemonic and parameter. Labels are written with the
letters s and t and numbers in decimal; a number too wide to decode is written as its bits behind
the mark b:, so that every listing can be read back. A semicolon starts a comment.
-/
namespace Whitespace

namespace Instruction

def paramText (i : Instruction) : Option String :=
  match i.opcode.paramKind, i.param with
  | .number, some bits =>
    match bits.toNumber with
    | .ok n => some (String.ofList n.text)
    | .error _ => some ("b:" ++ bits.name)
  | .label, some bits => if bits.isEmpty then none else some bits.name
  | _, _ => none

def listing (i : Instruction) : String :=
  match i.paramText with
  | none => i.opcode.mnemonic
  | some param => i.opcode.mnemonic ++ " " ++ param

end Instruction

namespace Program

def listing (p : Program) : String :=
  String.join (p.instructions.toList.map fun i => i.listing ++ "\n")

/-- The line for instruction `index`, if it is a mark: its index, source line and label, and the
index of the mark that holds instead, if there is another. -/
def labelLine? (p : Program) (i : Instruction) (index : Nat) : Option String :=
  match i.opcode, i.param with
  | .mark, some label =>
    let name := if label.isEmpty then "(empty)" else label.name
    let place := Column.address index ++ " line " ++ Column.left 5 (toString i.line) ++ " " ++ name
    match p.labels[label]? with
    | some winner =>
      if winner = index then some (place ++ "\n")
      else some (place ++ " ; overridden by " ++ Column.address winner ++ "\n")
    | none => some (place ++ "\n")
  | _, _ => none

def labelTable (p : Program) : String :=
  String.join (p.instructions.toList.zipIdx.filterMap fun (i, index) => p.labelLine? i index)

end Program

inductive ListingError where
  | unknownMnemonic (line : Nat) (text : String)
  | missingNumber (line : Nat) (opcode : Opcode)
  | badParam (line : Nat) (opcode : Opcode) (text : String)
  | unexpectedParam (line : Nat) (opcode : Opcode)
  deriving DecidableEq, Repr

def ListingError.message : ListingError → String
  | .unknownMnemonic line text => s!"{line}: unknown mnemonic '" ++ text ++ "'"
  | .missingNumber line op => s!"{line}: '" ++ op.mnemonic ++ "' needs a number"
  | .badParam line op text =>
    s!"{line}: invalid parameter '" ++ text ++ "' for '" ++ op.mnemonic ++ "'"
  | .unexpectedParam line op => s!"{line}: '" ++ op.mnemonic ++ "' takes no parameter"

namespace Listing

/-- The parameter of `push`: a decimal number, or bits behind b:. -/
def number? : List Char → Option BitString
  | 'b' :: ':' :: letters => BitString.ofLetters? letters
  | text => (Word.ofText? text).map BitString.ofNumber

/-- The literal of an instruction with at most one parameter. A label left out is the empty one. -/
def param (line : Nat) (op : Opcode) : Option (List Char) → Except ListingError (Option BitString)
  | none =>
    match op.paramKind with
    | .none => .ok none
    | .number => .error (.missingNumber line op)
    | .label => .ok (some [])
  | some text =>
    let read (literal : Option BitString) : Except ListingError (Option BitString) :=
      match literal with
      | none => .error (.badParam line op (String.ofList text))
      | some bits => .ok (some bits)
    match op.paramKind with
    | .none => .error (.unexpectedParam line op)
    | .number => read (number? text)
    | .label => read (BitString.ofLetters? text)

/-- Reads the words of one line; a line without words holds no instruction. -/
def instruction? (line : Nat) : List (List Char) → Except ListingError (Option Instruction)
  | [] => .ok none
  | word :: params =>
    match Opcode.ofMnemonic? (String.ofList word) with
    | none => .error (.unknownMnemonic line (String.ofList word))
    | some op =>
      match params with
      | _ :: extra :: _ => .error (.badParam line op (String.ofList extra))
      | _ => (param line op params.head?).map fun literal => some ⟨op, literal, line⟩

def wordsOf (line : List Char) : List (List Char) :=
  Text.words (line.takeWhile (· != ';'))

def parseFrom (line : Nat) (read : Array Instruction) :
    List (List Char) → Except ListingError (List Instruction)
  | [] => .ok read.toList
  | text :: texts =>
    match instruction? line (wordsOf text) with
    | .error e => .error e
    | .ok none => parseFrom (line + 1) read texts
    | .ok (some i) => parseFrom (line + 1) (read.push i) texts

/-- Reads a listing. Lines are counted from 1. -/
def parse (text : List Char) : Except ListingError (List Instruction) :=
  parseFrom 1 #[] (Text.lines text)

end Listing

end Whitespace
