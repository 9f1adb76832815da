import Whitespace.Text.Hidden

/-!
Quoted text, for messages: a text between double quotes in which every character can be seen.
-/
namespace Whitespace.Text

/-- A code point in hexadecimal digits between braces. -/
def escapeCodePoint (c : Char) : List Char :=
  ['\\', 'u', '\x7b'] ++ Nat.toDigits 16 c.toNat ++ ['\x7d']

def escape (c : Char) : List Char :=
  match c with
  | '"' => ['\\', '"']
  | '\\' => ['\\', '\\']
  | '\t' => ['\\', 't']
  | '\r' => ['\\', 'r']
  | '\n' => ['\\', 'n']
  | '\x00' => ['\\', '0']
  | c => if isHidden c then escapeCodePoint c else [c]

def quote (cs : List Char) : String :=
  String.ofList ('"' :: cs.flatMap escape ++ ['"'])

end Whitespace.Text
