import Whitespace.Build
import Whitespace.Code.Artifact
import Whitespace.Code.Census
import Whitespace.CommandLine.Arguments
import Whitespace.CommandLine.Files
import Whitespace.Program.Listing

/-!
The commands. Each reads one file; what it does then is an action, which may be to write a file or
to run code. The events come before those of the action.
-/
namespace Whitespace.CommandLine

inductive Action where
  | fail (message : String)
  | print (text : List UInt8)
  | save (code : Code) (source path : String)
  | write (path : String) (bytes : List UInt8)
  | run (code : Code) (limits : Limits)

/-- What a command leaves behind besides files. -/
structure Outcome where
  events : List Event
  stdout : List UInt8
  failure : Option String

/-- The file a command reads. -/
def Command.input : Command → String
  | .build source .. | .exec source .. | .disasm source _ | .tokens source _ => source
  | .run artifact _ => artifact
  | .asm listing _ => listing

def failedToOpen (path : String) (e : FileError) : String :=
  "cant open " ++ path ++ ": " ++ e.message

/-- Goes on with the code that a source builds. -/
def building (path : String) (source : List UInt8) (strict : Bool) (k : Code → Action) :
    Logged Action :=
  let built := Whitespace.build source strict
  ⟨.compiling path source.length :: built.events,
    match built.value with
    | .error e => .fail e.message
    | .ok code => k code⟩

/-- Goes on with the program of a source. -/
def parsing (source : List UInt8) (k : Program → String) : Logged Action :=
  ⟨[], match Program.parse source with
    | .error e => .fail e.message
    | .ok p => .print (Utf8.encodeAll (k p).toList)⟩

/-- The path with another extension: what follows the last dot of its last part, unless that dot
comes first, is replaced. If only two dots are left without it, they stand for a directory, and get
no extension. -/
def withExtension (path extension : String) : String :=
  let chars := path.toList.reverse
  let name := chars.takeWhile (· != '/')
  let directory := String.ofList (chars.drop name.length).reverse
  let extended (stem : List Char) := directory ++ String.ofList stem.reverse ++ "." ++ extension
  match name.dropWhile (· != '.') with
  | [] | ['.'] => extended name
  | ['.', '.'] => directory ++ ".."
  | _ :: stem => extended stem

def print (text : String) : Action := .print (Utf8.encodeAll text.toList)

/-- What a command does with the contents of its file. -/
def Command.action (content : List UInt8) : Command → Logged Action
  | .build source output strict =>
    building source content strict fun code =>
      .save code source (output.getD (withExtension source "wsbc"))
  | .run artifact limits =>
    ⟨[], match Code.ofBytes content with
      | .error e => .fail ("cant load " ++ artifact ++ ": " ++ e.message)
      | .ok code => .run code limits⟩
  | .exec source strict limits => building source content strict fun code => .run code limits
  | .disasm source .bytecode => building source content false fun code => print code.print
  | .disasm source .statistics => building source content false fun code => print code.statistics
  | .disasm _ .listing => parsing content Program.listing
  | .disasm _ .labels => parsing content Program.labelTable
  | .asm listing output =>
    ⟨[], match Utf8.decodeAll? content with
      | none => .fail (failedToOpen listing .notText)
      | some text =>
        match Listing.parse text with
        | .error e => .fail e.message
        | .ok instructions =>
          match output with
          | some path => .write path (Instruction.encodeAll instructions)
          | none => .print (Instruction.encodeAll instructions)⟩
  | .tokens _ color => ⟨[], print (Spanned.dump color (Scanner.ofBytes content).drain)⟩

/-- What a command does when its file cannot be read. -/
def Command.unread (e : FileError) : Command → Action
  | .run artifact _ => .fail ("cant load " ++ artifact ++ ": artifact i/o: " ++ e.message)
  | command => .fail (failedToOpen command.input e)

/-- The action of a command, given what reading its file came to. -/
def Command.plan (command : Command) : Except FileError (List UInt8) → Logged Action
  | .error e => ⟨[], command.unread e⟩
  | .ok content => command.action content

namespace Outcome

def failed (message : String) : Outcome := ⟨[], [], some message⟩

def printed (text : List UInt8) : Outcome := ⟨[], text, none⟩

/-- After an attempt to put an artifact in its place. -/
def saved (code : Code) (source path : String) : Except FileError Unit → Outcome
  | .error e => failed ("artifact i/o: " ++ e.message)
  | .ok () =>
    ⟨[.artifactWritten path code.toBytes.length, .built source path code.ops.size], [], none⟩

/-- After an attempt to write a file. -/
def written (path : String) : Except FileError Unit → Outcome
  | .error e => failed ("cant write " ++ path ++ ": " ++ e.message)
  | .ok () => ⟨[], [], none⟩

/-- After a run. -/
def ofRun (code : Code) (ending : Progress) : Outcome :=
  ⟨ending.events code, ending.machine.data.output.written.toList,
    ending.fault?.map fun (f, address) => f.message address⟩

def after (events : List Event) (o : Outcome) : Outcome := { o with events := events ++ o.events }

def exitCode (o : Outcome) : Nat := if o.failure.isSome then 1 else 0

end Outcome

/-- A command in a tree of files: it is done, or there is code to run. -/
inductive Job where
  | done (files : FileTree) (outcome : Outcome)
  | run (events : List Event) (code : Code) (limits : Limits)

/-- Does all of a command but the run. -/
def Command.start (files : FileTree) (command : Command) : Job :=
  let plan := command.plan (files.read command.input)
  let finish (result : Except FileError FileTree) (outcome : Except FileError Unit → Outcome) :=
    match result with
    | .error e => Job.done files ((outcome (.error e)).after plan.events)
    | .ok files => .done files ((outcome (.ok ())).after plan.events)
  match plan.value with
  | .fail message => .done files ((Outcome.failed message).after plan.events)
  | .print text => .done files ((Outcome.printed text).after plan.events)
  | .save code source path =>
    finish (files.replace path code.toBytes) (Outcome.saved code source path)
  | .write path bytes => finish (files.write path bytes) (Outcome.written path)
  | .run code limits => .run plan.events code limits

end Whitespace.CommandLine
