import Whitespace.CommandLine

/-!
The command line program.
-/
namespace Whitespace.CommandLine

def usageText : String :=
  "Usage: whitespace [-l LEVEL] COMMAND\n\n" ++
  "Commands:\n" ++
  "  build SOURCE [-o FILE] [--strict-stack]\n" ++
  "  run ARTIFACT [--max-steps N] [--max-call-depth N]\n" ++
  "  exec SOURCE [--strict-stack] [--max-steps N] [--max-call-depth N]\n" ++
  "  disasm SOURCE [--bytecode | --stats | --labels]\n" ++
  "  asm LISTING [-o FILE]\n" ++
  "  tokens SOURCE [--no-color]\n\n" ++
  "LEVEL is error, warn, info, debug or trace.\n"

def fileError : IO.Error → FileError
  | .noFileOrDirectory .. => .notFound
  | .resourceBusy .. => .busy
  | .inappropriateType _ code details =>
    if code == 21 then .isDirectory else if code == 20 then .notDirectory else .other details
  | .invalidArgument _ code details =>
    if code == 36 then .nameTooLong else if code == 22 then .invalidArgument else .other details
  | e => .other (toString e)

def attempt {α : Type} (act : IO α) : IO (Except FileError α) := do
  try return .ok (← act)
  catch e => return .error (fileError e)

def readFile (path : String) : IO (Except FileError (List UInt8)) :=
  attempt do return (← IO.FS.readBinFile path).toList

def writeFile (path : String) (bytes : List UInt8) : IO (Except FileError Unit) :=
  attempt (IO.FS.writeBinFile path ⟨bytes.toArray⟩)

/-- Writes the artifact beside its place and moves it there. -/
def saveFile (path : String) (bytes : List UInt8) : IO (Except FileError Unit) :=
  attempt do
    let staged := path ++ ".part"
    IO.FS.writeBinFile staged ⟨bytes.toArray⟩
    try IO.FS.rename staged path
    catch e =>
      IO.FS.removeFile staged
      throw e

def report (level : Level) (events : List Event) : IO Unit := do
  let err ← IO.getStderr
  for e in events do
    if e.shownAt level then
      let fields := e.fields.map fun (name, value) => " " ++ name ++ "=" ++ value
      err.putStrLn (e.level.name ++ " " ++ e.message ++ String.join fields)

/-- Prints what was written after the first `shown` bytes. -/
def flushOutput (shown : Nat) (m : Machine) : IO Nat := do
  let out ← IO.getStdout
  let written := m.data.output.written
  out.write ⟨written.extract shown written.size⟩
  out.flush
  return written.size

def reads : Op → Bool
  | .readChar | .readNumber => true
  | _ => false

/-- One line of standard input, with its linefeed. -/
partial def readLine (read : Array UInt8) : IO (List UInt8) := do
  let bytes ← (← IO.getStdin).read 1
  match bytes.toList with
  | [] => return read.toList
  | b :: _ => if b == Byte.lf then return (read.push b).toList else readLine (read.push b)

/-- Runs to the end, and asks for a line of input only when one is needed. -/
partial def execute (code : Code) (limits : Limits) (shown : Nat) (ended : Bool) (m : Machine) :
    IO Progress := do
  if !ended && m.data.input.isEmpty && (code.ops[m.address]?.map reads).getD false then
    let shown ← flushOutput shown m
    let line ← readLine #[]
    execute code limits shown line.isEmpty { m with data := { m.data with input := line } }
  else
    match m.step limits code.ops with
    | .running m => execute code limits shown ended m
    | ending =>
      let _ ← flushOutput shown ending.machine
      return ending

/-- Does what an action says. A run has printed its output already. -/
def perform : Action → IO Outcome
  | .fail message => return .failed message
  | .print text => return .printed text
  | .save code source path => return .saved code source path (← saveFile path code.toBytes)
  | .write path bytes => return .written path (← writeFile path bytes)
  | .run code limits => do
    let ending ← execute code limits 0 false (.fresh [] .unlimited)
    return { Outcome.ofRun code ending with stdout := [] }

end Whitespace.CommandLine

open Whitespace Whitespace.CommandLine in
def main (args : List String) : IO UInt32 := do
  match CommandLine.parse args with
  | .error usage =>
    if usage == .help then IO.print usageText else IO.eprint usageText
    return usage.exitCode.toUInt32
  | .ok invocation =>
    let plan := invocation.command.plan (← readFile invocation.command.input)
    report invocation.level plan.events
    let outcome ← perform plan.value
    (← IO.getStdout).write ⟨outcome.stdout.toArray⟩
    report invocation.level outcome.events
    match outcome.failure with
    | some message => IO.eprintln ("ERROR " ++ message)
    | none => pure ()
    return outcome.exitCode.toUInt32
