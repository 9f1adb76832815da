import Whitespace.Event
import Whitespace.Machine

/-!
The arguments of the command line. Options may stand on either side of the file; their values may
be attached or be the next argument. A value that is the next argument is looked at only when a
later argument of the same level comes or the level ends, so a request for help inside the
command goes before a bad value in front of it.
-/
namespace Whitespace.CommandLine

inductive View where
  | listing | bytecode | statistics | labels
  deriving DecidableEq, Repr

inductive Command where
  | build (source : String) (output : Option String) (strict : Bool)
  | run (artifact : String) (limits : Limits)
  | exec (source : String) (strict : Bool) (limits : Limits)
  | disasm (source : String) (view : View)
  | asm (listing : String) (output : Option String)
  | tokens (source : String) (color : Bool)
  deriving DecidableEq, Repr

structure Invocation where
  level : Level
  command : Command
  deriving DecidableEq, Repr

/-- Why there is nothing to do. -/
inductive Usage where
  | help | rejected
  deriving DecidableEq, Repr

def Usage.exitCode : Usage → Nat
  | .help => 0
  | .rejected => 2

inductive Key where
  | help | version | logLevel
  | file | output | strictStack | maxSteps | maxCallDepth
  | bytecode | stats | labels | noColor
  deriving DecidableEq, Repr

namespace Key

def long : Key → String
  | .help => "help"
  | .version => "version"
  | .logLevel => "log-level"
  | .file => ""
  | .output => "output"
  | .strictStack => "strict-stack"
  | .maxSteps => "max-steps"
  | .maxCallDepth => "max-call-depth"
  | .bytecode => "bytecode"
  | .stats => "stats"
  | .labels => "labels"
  | .noColor => "no-color"

def short? : Key → Option Char
  | .help => some 'h'
  | .version => some 'V'
  | .logLevel => some 'l'
  | .output => some 'o'
  | _ => none

def takesValue : Key → Bool
  | .logLevel | .file | .output | .maxSteps | .maxCallDepth => true
  | _ => false

/-- A count of 64 bits. -/
def count? (text : String) : Option Nat := Decimal.natural? UInt64.size text.toList

def accepts (text : String) : Key → Bool
  | .logLevel => (Level.ofText? text.toList).isSome
  | .file | .output => !text.isEmpty
  | .maxSteps | .maxCallDepth => (count? text).isSome
  | _ => true

end Key

inductive CommandName where
  | build | run | exec | disasm | asm | tokens
  deriving DecidableEq, Repr

namespace CommandName

def all : List CommandName := [.build, .run, .exec, .disasm, .asm, .tokens]

def text : CommandName → String
  | .build => "build"
  | .run => "run"
  | .exec => "exec"
  | .disasm => "disasm"
  | .asm => "asm"
  | .tokens => "tokens"

def ofText? (text : String) : Option CommandName := all.find? (·.text == text)

/-- The options of a command. -/
def options : CommandName → List Key
  | .build => [.help, .logLevel, .output, .strictStack]
  | .run => [.help, .logLevel, .maxSteps, .maxCallDepth]
  | .exec => [.help, .logLevel, .strictStack, .maxSteps, .maxCallDepth]
  | .disasm => [.help, .logLevel, .bytecode, .stats, .labels]
  | .asm => [.help, .logLevel, .output]
  | .tokens => [.help, .logLevel, .noColor]

end CommandName

/-- The options before the command. -/
def outerOptions : List Key := [.help, .version, .logLevel]

/-- What one level of the arguments has given so far. -/
structure Given where
  values : List (Key × String)
  /-- The last argument with a value, which may still have to come. -/
  pending : Option (Key × Option String)
  deriving Repr

namespace Given

def none : Given := ⟨[], Option.none⟩

def value? (g : Given) (key : Key) : Option String := g.values.lookup key

def has (g : Given) (key : Key) : Bool := (g.value? key).isSome

/-- Nothing may be given twice. -/
def add (g : Given) (key : Key) (text : String) : Except Usage Given :=
  if g.has key || !key.accepts text then .error .rejected
  else .ok { g with values := (key, text) :: g.values }

/-- Looks at the pending value. -/
def settle (g : Given) : Except Usage Given :=
  match g.pending with
  | Option.none => .ok g
  | some (_, Option.none) => .error .rejected
  | some (key, some text) => { g with pending := Option.none }.add key text

def flag (g : Given) (key : Key) : Except Usage Given := do
  let g ← g.settle
  match key with
  | .help | .version => .error .help
  | key => g.add key ""

def option (g : Given) (key : Key) (attached : Option String) : Except Usage Given := do
  let g ← g.settle
  match attached with
  | some text => g.add key text
  | Option.none => .ok { g with pending := some (key, Option.none) }

/-- Whether the next argument is a value, unless it looks like an option. -/
def awaits? (g : Given) : Option Key :=
  match g.pending with
  | some (key, Option.none) => some key
  | _ => Option.none

/-- An argument such as --name or --name=value, without its dashes. -/
def long (g : Given) (options : List Key) (text : List Char) : Except Usage Given :=
  let name := text.takeWhile (· != '=')
  let attached := match text.dropWhile (· != '=') with
    | [] => Option.none
    | _ :: value => some (String.ofList value)
  match options.find? (·.long == String.ofList name) with
  | Option.none => .error .rejected
  | some key =>
    if key.takesValue then g.option key attached
    else if attached.isSome then .error .rejected
    else g.flag key

/-- An argument such as -n, -nvalue or -n=value, without its dash. -/
def short (g : Given) (options : List Key) : List Char → Except Usage Given
  | [] => .ok g
  | c :: cs =>
    match options.find? (·.short? == some c) with
    | Option.none => .error .rejected
    | some key =>
      if key.takesValue then
        g.option key (match cs with
          | [] => Option.none
          | '=' :: value => some (String.ofList value)
          | value => some (String.ofList value))
      else
        match g.flag key with
        | .error usage => .error usage
        | .ok g => g.short options cs

/-- An argument that is no option. -/
def plain (g : Given) (text : String) : Except Usage Given :=
  match g.awaits? with
  | some key => .ok { g with pending := some (key, some text) }
  | Option.none => do
    let g ← g.settle
    if g.has .file then .error .rejected else .ok { g with pending := some (.file, some text) }

/-- An argument after --, which is never an option nor its value. -/
def trailing (g : Given) (text : String) : Except Usage Given := do
  let g ← g.settle
  if g.has .file then .error .rejected else .ok { g with pending := some (.file, some text) }

end Given

/-- What the look of an argument says about it. -/
inductive Shape where
  | separator
  | long (text : List Char)
  | short (text : List Char)
  | plain
  deriving DecidableEq, Repr

def shape (arg : String) : Shape :=
  match arg.toList with
  | ['-', '-'] => .separator
  | '-' :: '-' :: text => .long text
  | '-' :: c :: text => .short (c :: text)
  | _ => .plain

/-- The arguments after the name of a command. -/
def inner (options : List Key) (g : Given) : List String → Except Usage Given
  | [] => g.settle
  | arg :: args =>
    match shape arg with
    | .separator => do (← args.foldlM Given.trailing g).settle
    | .long text => do inner options (← g.long options text) args
    | .short text => do inner options (← g.short options text) args
    | .plain => do inner options (← g.plain arg) args

def limits (g : Given) : Limits :=
  { Limits.standard with
    maxSteps := (g.value? .maxSteps).bind Key.count?
    maxCallDepth := ((g.value? .maxCallDepth).bind Key.count?).getD Limits.standard.maxCallDepth }

def view (g : Given) : Except Usage View :=
  match g.has .bytecode, g.has .stats, g.has .labels with
  | false, false, false => .ok .listing
  | true, false, false => .ok .bytecode
  | false, true, false => .ok .statistics
  | false, false, true => .ok .labels
  | _, _, _ => .error .rejected

def command (name : CommandName) (g : Given) : Except Usage Command := do
  match g.value? .file with
  | none => .error .rejected
  | some file =>
    match name with
    | .build => return .build file (g.value? .output) (g.has .strictStack)
    | .run => return .run file (limits g)
    | .exec => return .exec file (g.has .strictStack) (limits g)
    | .disasm => return .disasm file (← view g)
    | .asm => return .asm file (g.value? .output)
    | .tokens => return .tokens file (!g.has .noColor)

/-- The level given inside the command goes before the one given in front of it. -/
def level (outer inside : Given) : Level :=
  let text := (inside.value? .logLevel).orElse fun _ => outer.value? .logLevel
  (text.bind fun text => Level.ofText? text.toList).getD .warn

/-- Help may be asked for about one command, or about help. -/
def helpFor : List String → Usage
  | [] => .help
  | [topic] => if topic == "help" || (CommandName.ofText? topic).isSome then .help else .rejected
  | _ => .rejected

/-- Reads all arguments. -/
def parseFrom (g : Given) : List String → Except Usage Invocation
  | [] => .error .rejected
  | arg :: args =>
    match shape arg with
    | .separator => .error .rejected
    | .long text => do parseFrom (← g.long outerOptions text) args
    | .short text => do parseFrom (← g.short outerOptions text) args
    | .plain =>
      match g.awaits? with
      | some key => parseFrom { g with pending := some (key, some arg) } args
      | none =>
        match CommandName.ofText? arg with
        | none => .error (if arg == "help" then helpFor args else .rejected)
        | some name => do
          let inside ← inner name.options .none args
          let command ← command name inside
          let outer ← g.settle
          return { level := level outer inside, command }

def parse (args : List String) : Except Usage Invocation := parseFrom .none args

end Whitespace.CommandLine
