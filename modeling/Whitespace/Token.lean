import Whitespace.Text.Column

/-!
Tokens: a source is a byte string in which only spaces, tabs and linefeeds mean something. A
scanner stands somewhere in a source and knows its line, which is one more than the number of
linefeeds it has passed.
-/
namespace Whitespace

inductive Token where
  | space | tab | linefeed | eof
  deriving DecidableEq, Repr

namespace Token

def name : Token → String
  | .space => "SPACE"
  | .tab => "TAB"
  | .linefeed => "LF"
  | .eof => "EOF"

/-- Every byte that is no token is a comment. -/
def ofByte? (b : UInt8) : Option Token :=
  if b = 32 then some .space
  else if b = 9 then some .tab
  else if b = 10 then some .linefeed
  else none

/-- The line after a token that stands on line `line`. -/
def lineAfter (line : Nat) : Token → Nat
  | .linefeed => line + 1
  | _ => line

/-- The terminal escape that begins the token's colour. -/
def color : Token → String
  | .space => "\x1b[36m"
  | .tab => "\x1b[33m"
  | .linefeed => "\x1b[35m"
  | .eof => "\x1b[2m"

end Token

/-- A token and the line it stands on. -/
structure Spanned where
  token : Token
  line : Nat
  deriving DecidableEq, Repr

namespace Spanned

def render (color : Bool) (s : Spanned) : String :=
  let shown := if color then s.token.color ++ s.token.name ++ "\x1b[0m" else s.token.name
  "[" ++ Column.address s.line ++ "] " ++ shown ++ "\n"

/-- One line for each token. -/
def dump (color : Bool) (tokens : List Spanned) : String :=
  String.join (tokens.map (render color))

end Spanned

structure Scanner where
  rest : List UInt8
  line : Nat
  deriving DecidableEq, Repr

namespace Scanner

def ofBytes (source : List UInt8) : Scanner := ⟨source, 1⟩

def nextFrom (line : Nat) : List UInt8 → Token × Scanner
  | [] => (.eof, ⟨[], line⟩)
  | b :: rest =>
    match Token.ofByte? b with
    | none => nextFrom line rest
    | some t => (t, ⟨rest, t.lineAfter line⟩)

/-- Reads one token; at the end of the source it reads `eof` again and again. -/
def next (s : Scanner) : Token × Scanner := nextFrom s.line s.rest

def drainFrom (line : Nat) (read : Array Spanned) : List UInt8 → List Spanned
  | [] => (read.push ⟨.eof, line⟩).toList
  | b :: rest =>
    match Token.ofByte? b with
    | none => drainFrom line read rest
    | some t => drainFrom (t.lineAfter line) (read.push ⟨t, line⟩) rest

/-- All that is left to read, with one `eof` at the end. -/
def drain (s : Scanner) : List Spanned := drainFrom s.line #[] s.rest

/-- The scanner after all that is left. -/
def atEnd (s : Scanner) : Scanner := ⟨[], s.line + s.rest.count 10⟩

end Scanner

end Whitespace
