import Whitespace.Code.Lowering
import Whitespace.Event
import Whitespace.Machine
import Whitespace.Program.Parser

/-!
From source to checked code, with the events on the way, and the events of a run.
-/
namespace Whitespace

inductive BuildError where
  | parse (error : ParseError)
  | compile (error : CompileError)
  | stackCheck (underflow : Underflow)
  deriving DecidableEq, Repr

def BuildError.message : BuildError → String
  | .parse error => "parse error: " ++ error.message
  | .compile error => "compile error: " ++ error.message
  | .stackCheck underflow => underflow.message

/-- A value, and the events on the way to it. -/
structure Logged (α : Type) where
  events : List Event
  value : α

/-- The events of lowering, one for each instruction before the first that fails. -/
def Lowering.events (s : Lowering) (index : Nat) (found : Array Event) :
    List Instruction → List Event
  | [] => found.toList
  | i :: is =>
    match s.lower i with
    | .error _ => found.toList
    | .ok s => s.events (index + 1) (found.push (.lowered index i.opcode s.height)) is

namespace Program

/-- The event that closes a successful compilation. -/
def generated? (p : Program) : Option Event :=
  match Lowering.empty.lowerAll p.instructions.toList, p.compile with
  | .ok s, .ok code =>
    some (.codeGenerated p.size code.ops.size s.labels.size s.returnSites.size s.height)
  | _, _ => none

def compileEvents (p : Program) : List Event :=
  Lowering.empty.events 0 #[] p.instructions.toList ++ p.generated?.toList

/-- Compiles and checks. Unless `strict`, a possible underflow is only reported. -/
def build (p : Program) (strict : Bool) : Logged (Except BuildError Code) :=
  let events :=
    (if p.isEmpty then [.emptySource] else []) ++ [.parsed p.size p.labels.size] ++ p.compileEvents
  match p.compile with
  | .error e => ⟨events, .error (.compile e)⟩
  | .ok code =>
    match Height.check code.ops with
    | .ok () => ⟨events ++ [.stackChecked], .ok code⟩
    | .error u =>
      if strict then ⟨events, .error (.stackCheck u)⟩
      else ⟨events ++ [.stackWarning u], .ok code⟩

end Program

/-- Builds code from a source. -/
def build (source : List UInt8) (strict : Bool) : Logged (Except BuildError Code) :=
  match Program.parse source with
  | .error e => ⟨[.parseFailed e.line], .error (.parse e)⟩
  | .ok p => p.build strict

/-- The events of a run that came to this end. -/
def Progress.events (code : Code) (ending : Progress) : List Event :=
  [.runStarted code.ops.size,
    .runFinished ending.machine.steps ending.machine.data.stack.depth ending.fault?.isNone]

end Whitespace
