import Whitespace.Token
import Whitespace.Program

/-!
Reading programs from source. Up to four tokens select an opcode, one token at a time; if it takes
a literal, spaces and tabs follow up to a linefeed. Reading fails at the first token after which no
instruction can be completed.
-/
namespace Whitespace

inductive ParseError where
  | unknownOperation (line : Nat) (family : Family)
  | unexpectedEnd (line : Nat)
  deriving DecidableEq, Repr

namespace ParseError

def line : ParseError → Nat
  | .unknownOperation line _ | .unexpectedEnd line => line

def familyName : Family → String
  | .stack => "stack"
  | .arithmetic => "arithmetic"
  | .heap => "heap"
  | .flow => "flow control"
  | .io => "I/O"

def message : ParseError → String
  | .unknownOperation line family =>
    s!"{line}: syntax error: unknown " ++ familyName family ++ " operation"
  | .unexpectedEnd line => s!"{line}: unexpected end of input"

end ParseError

namespace Parser

/-- How tokens select an opcode: `next` looks at one token more. -/
inductive Choice where
  | opcode (op : Opcode)
  | unknown (family : Family)
  | next (space tab linefeed : Choice)
  deriving DecidableEq, Repr

def stackChoice : Choice :=
  .next (.opcode .push) (.unknown .stack) (.next (.opcode .dup) (.opcode .swap) (.opcode .pop))

def arithmeticChoice : Choice :=
  .next
    (.next (.opcode .add) (.opcode .sub) (.opcode .mul))
    (.next (.opcode .div) (.opcode .mod) (.unknown .arithmetic))
    (.unknown .arithmetic)

def heapChoice : Choice :=
  .next (.opcode .store) (.opcode .load) (.unknown .heap)

def ioChoice : Choice :=
  .next
    (.next (.opcode .writeChar) (.opcode .writeNumber) (.unknown .io))
    (.next (.opcode .readChar) (.opcode .readNumber) (.unknown .io))
    (.unknown .io)

def flowChoice : Choice :=
  .next
    (.next (.opcode .mark) (.opcode .call) (.opcode .jump))
    (.next (.opcode .jumpIfZero) (.opcode .jumpIfNegative) (.opcode .ret))
    (.next (.unknown .flow) (.unknown .flow) (.opcode .halt))

/-- The choice between all instructions. -/
def anyChoice : Choice :=
  .next stackChoice (.next arithmeticChoice heapChoice ioChoice) flowChoice

/-- What the front of a token stream selects, and the tokens after it. -/
inductive Selection where
  | opcode (op : Opcode) (rest : List Spanned)
  | unknown (family : Family) (rest : List Spanned)
  | cut
  deriving DecidableEq, Repr

def select : Choice → List Spanned → Selection
  | .opcode op, ts => .opcode op ts
  | .unknown family, ts => .unknown family ts
  | .next .., [] => .cut
  | .next space tab linefeed, t :: ts =>
    match t.token with
    | .space => select space ts
    | .tab => select tab ts
    | .linefeed => select linefeed ts
    | .eof => .cut

/-- The line on which the next token stands. -/
def lineOf : List Spanned → Nat
  | [] => 1
  | t :: _ => t.line

def lastLine (ts : List Spanned) : Nat :=
  (ts.getLast?.map Spanned.line).getD 1

/-- Reads up to the linefeed; `bits` has the bits read so far, the last one first. -/
def literal? (bits : BitString) : List Spanned → Option (BitString × List Spanned)
  | ⟨.space, _⟩ :: ts => literal? (.space :: bits) ts
  | ⟨.tab, _⟩ :: ts => literal? (.tab :: bits) ts
  | ⟨.linefeed, _⟩ :: ts => some (bits.reverse, ts)
  | _ => none

/-- Reads one instruction off the front. -/
def instruction (ts : List Spanned) : Except ParseError (Instruction × List Spanned) :=
  match select anyChoice ts with
  | .cut => .error (.unexpectedEnd (lastLine ts))
  | .unknown family rest => .error (.unknownOperation (lineOf rest) family)
  | .opcode op rest =>
    match op.paramKind with
    | .none => .ok (⟨op, none, lineOf ts⟩, rest)
    | _ =>
      match literal? [] rest with
      | none => .error (.unexpectedEnd (lastLine ts))
      | some (bits, rest) => .ok (⟨op, some bits, lineOf ts⟩, rest)

theorem length_of_select {choice : Choice} {ts rest : List Spanned} {op : Opcode}
    (h : select choice ts = .opcode op rest) : rest.length ≤ ts.length := by
  fun_induction select choice ts with
  | case1 => simp_all
  | case2 => cases h
  | case3 => cases h
  | case4 _ _ _ _ _ _ ih | case5 _ _ _ _ _ _ ih | case6 _ _ _ _ _ _ ih =>
    exact Nat.le_succ_of_le (ih h)
  | case7 => cases h

theorem length_of_select_anyChoice {ts rest : List Spanned} {op : Opcode}
    (h : select anyChoice ts = .opcode op rest) : rest.length < ts.length := by
  cases ts with
  | nil => cases h
  | cons t ts =>
    unfold anyChoice select at h
    split at h
    · exact Nat.lt_succ_of_le (length_of_select h)
    · exact Nat.lt_succ_of_le (length_of_select h)
    · exact Nat.lt_succ_of_le (length_of_select h)
    · cases h

theorem length_of_literal? {bits out : BitString} {ts rest : List Spanned}
    (h : literal? bits ts = some (out, rest)) : rest.length < ts.length := by
  fun_induction literal? bits ts with
  | case1 _ _ _ ih => exact Nat.lt_succ_of_lt (ih h)
  | case2 _ _ _ ih => exact Nat.lt_succ_of_lt (ih h)
  | case3 => simp_all
  | case4 => simp at h

theorem length_of_instruction {ts rest : List Spanned} {i : Instruction}
    (h : instruction ts = .ok (i, rest)) : rest.length < ts.length := by
  unfold instruction at h
  split at h
  · cases h
  · cases h
  · next op mid hsel =>
    have hmid := length_of_select_anyChoice hsel
    split at h
    · cases h; exact hmid
    · split at h
      · cases h
      · next hlit => cases h; exact Nat.lt_trans (length_of_literal? hlit) hmid

/-- Appends all instructions of the token stream to `p`. -/
def program (p : Program) (ts : List Spanned) : Except ParseError Program :=
  match ts with
  | [] => .ok p
  | ⟨.eof, _⟩ :: _ => .ok p
  | t :: ts =>
    match _h : instruction (t :: ts) with
    | .error e => .error e
    | .ok (i, rest) => program (p.add i) rest
termination_by ts.length
decreasing_by exact length_of_instruction _h

end Parser

/-- Reads a whole source. -/
def Program.parse (source : List UInt8) : Except ParseError Program :=
  Parser.program .empty (Scanner.ofBytes source).drain

end Whitespace
