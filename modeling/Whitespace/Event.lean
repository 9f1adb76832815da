import Whitespace.Code.Height
import Whitespace.Instruction
import Whitespace.Text.Decimal

/-!
Events: what the tool reports while it works, at one of five levels of severity.
-/
namespace Whitespace

inductive Level where
  | error | warn | info | debug | trace
  deriving DecidableEq, Repr

namespace Level

/-- The less severe, the higher. -/
def rank : Level → Nat
  | .error => 1
  | .warn => 2
  | .info => 3
  | .debug => 4
  | .trace => 5

def name : Level → String
  | .error => "ERROR"
  | .warn => "WARN"
  | .info => "INFO"
  | .debug => "DEBUG"
  | .trace => "TRACE"

def all : List Level := [.error, .warn, .info, .debug, .trace]

/-- A level is given by its rank, or by its name in letters of either case. -/
def ofText? (text : List Char) : Option Level :=
  match Decimal.natural? UInt64.size text with
  | some n => all.find? (·.rank == n)
  | none => all.find? fun level => level.name.toList == text.map Char.toUpper

end Level

inductive Event where
  | compiling (path : String) (bytes : Nat)
  | parseFailed (line : Nat)
  | emptySource
  | parsed (instructions labels : Nat)
  | lowered (index : Nat) (opcode : Opcode) (height : Int)
  | codeGenerated (instructions ops labels returnSites : Nat) (height : Int)
  | stackChecked
  | stackWarning (underflow : Underflow)
  | artifactWritten (path : String) (bytes : Nat)
  | built (source output : String) (ops : Nat)
  | runStarted (ops : Nat)
  | runFinished (steps stack : Nat) (ok : Bool)
  deriving DecidableEq, Repr

namespace Event

def level : Event → Level
  | .lowered .. => .trace
  | .emptySource | .built .. => .info
  | .stackWarning .. => .warn
  | _ => .debug

def message : Event → String
  | .compiling .. => "compiling"
  | .parseFailed .. => "parse failed"
  | .emptySource => "source contains no instructions"
  | .parsed .. => "parsed"
  | .lowered .. => "lowered"
  | .codeGenerated .. => "code generation finished"
  | .stackChecked => "stack check passed"
  | .stackWarning underflow => underflow.message
  | .artifactWritten .. => "artifact written"
  | .built source output ops => "compiled " ++ source ++ " to " ++ output ++ s!" ({ops} ops)"
  | .runStarted .. => "running bytecode"
  | .runFinished .. => "execution finished"

/-- Names and values of what an event tells besides its message. -/
def fields : Event → List (String × String)
  | .compiling path bytes => [("path", path), ("bytes", toString bytes)]
  | .parseFailed line => [("line", toString line)]
  | .parsed instructions labels =>
    [("instructions", toString instructions), ("labels", toString labels)]
  | .lowered index opcode height =>
    [("index", toString index), ("op", opcode.mnemonic), ("height", toString height)]
  | .codeGenerated instructions ops labels returnSites height =>
    [("instructions", toString instructions), ("ops", toString ops), ("labels", toString labels),
      ("return_sites", toString returnSites), ("final_height", toString height)]
  | .artifactWritten path bytes => [("path", path), ("bytes", toString bytes)]
  | .runStarted ops => [("ops", toString ops)]
  | .runFinished steps stack ok =>
    [("steps", toString steps), ("stack", toString stack), ("ok", toString ok)]
  | .emptySource | .stackChecked | .stackWarning _ | .built .. => []

/-- Whether the event is at least as severe as `level`. -/
def shownAt (level : Level) (e : Event) : Bool := e.level.rank ≤ level.rank

end Event

end Whitespace
