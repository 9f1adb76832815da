import Std.Data.HashMap
import Whitespace.Code
import Whitespace.Machine.Fault
import Whitespace.Machine.Stack
import Whitespace.Text.Blank
import Whitespace.Text.Utf8

/-!
The data side of the machine: operand stack, heap, unread input and output, and what the ops that
are not control flow do to them. An op takes its operands off the stack one at a time, and what it
took is gone also when it faults.
-/
namespace Whitespace

/-- With a capacity, no more than so many bytes are ever written. -/
structure Output where
  written : Array UInt8
  capacity : Option Nat

namespace Output

def unlimited : Output := ⟨#[], none⟩

/-- How many of `bytes` can still be written. -/
def room (o : Output) (bytes : List UInt8) : Nat :=
  match o.capacity with
  | none => bytes.length
  | some capacity => capacity - o.written.size

/-- Writes the bytes that fit, and says whether all of them did. -/
def write (o : Output) (bytes : List UInt8) : Output × Bool :=
  let room := o.room bytes
  ({ o with written := o.written ++ bytes.take room }, bytes.length ≤ room)

end Output

structure Data where
  stack : Stack Word
  heap : Std.HashMap Word Word
  input : List UInt8
  output : Output

inductive DataStep where
  | done (d : Data)
  | fault (f : Fault) (d : Data)

namespace Data

/-- Nothing on the stack or in the heap. -/
def fresh (input : List UInt8) (output : Output) : Data := ⟨.empty, ∅, input, output⟩

@[inline] def push (d : Data) (w : Word) : Data := { d with stack := d.stack.push w }

/-- Takes the top value off the stack and goes on with it. -/
@[inline] def pop (d : Data) (k : Word → Data → DataStep) : DataStep :=
  match d.stack.pop? with
  | none => .fault .stackUnderflow d
  | some (w, stack) => k w { d with stack }

/-- Takes two values off the stack; the lower one is the first argument. -/
@[inline] def pop2 (d : Data) (k : Word → Word → Data → DataStep) : DataStep :=
  d.pop fun b d => d.pop fun a d => k a b d

@[inline] def set (d : Data) (address value : Word) : Data :=
  { d with heap := d.heap.insert address value }

/-- Division rounds toward zero. Its one quotient that is no word is an overflow, and so is the
remainder that goes with it. -/
def divide (d : Data) (a b result : Word) : DataStep :=
  if b = 0 then .fault .divisionByZero d
  else if a = Int32.minValue ∧ b = -1 then .fault .overflow d
  else .done (d.push result)

def get (d : Data) (address : Word) : DataStep :=
  match d.heap[address]? with
  | none => .fault (.undefinedHeapAddress address) d
  | some value => .done (d.push value)

def write (d : Data) (bytes : List UInt8) : DataStep :=
  let (output, complete) := d.output.write bytes
  if complete then .done { d with output } else .fault .outputFull { d with output }

/-- The character of a word: its low 16 bits as a UTF-16 unit. -/
def charOf (w : Word) : Char :=
  (Utf8.scalar? (w.toUInt32.toNat % 65536)).getD Utf8.replacement

/-- Stores the code point of the next character, or -1 at the end of the input. -/
def readChar (d : Data) (address : Word) : DataStep :=
  match Utf8.readChar d.input with
  | none => .done (d.set address (-1))
  | some (c, input) => .done ({ d with input }.set address (Int32.ofNat c.toNat))

/-- Reads a line with one number and blanks around it. The line is read also when it is no
number. -/
def readNumber (d : Data) (address : Word) : DataStep :=
  if d.input.isEmpty then .fault .unexpectedEndOfInput d
  else
    let line := d.input.takeWhile (· != Byte.lf)
    let d := { d with input := (d.input.dropWhile (· != Byte.lf)).drop 1 }
    match Utf8.decodeAll? line with
    | none => .fault .inputNotText d
    | some cs =>
      match Word.ofText? (Text.trim cs) with
      | none => .fault (.invalidNumber (Text.trim cs)) d
      | some value => .done (d.set address value)

/-- What an op does to the data; control flow does nothing to it. -/
def apply (d : Data) : Op → DataStep
  | .push value => .done (d.push value)
  | .dup => d.pop fun a d => .done ((d.push a).push a)
  | .swap => d.pop2 fun a b d => .done ((d.push b).push a)
  | .drop => d.pop fun _ d => .done d
  | .add => d.pop2 fun a b d => .done (d.push (a + b))
  | .sub => d.pop2 fun a b d => .done (d.push (a - b))
  | .mul => d.pop2 fun a b d => .done (d.push (a * b))
  | .div => d.pop2 fun a b d => d.divide a b (a / b)
  | .mod => d.pop2 fun a b d => d.divide a b (a % b)
  | .store => d.pop2 fun address value d => .done (d.set address value)
  | .load => d.pop fun address d => d.get address
  | .writeChar => d.pop fun w d => d.write (Utf8.encode (charOf w))
  | .writeNumber => d.pop fun w d => d.write (Utf8.encodeAll w.text)
  | .readChar => d.pop fun address d => d.readChar address
  | .readNumber => d.pop fun address d => d.readNumber address
  | .jump _ | .jumpIfZero _ | .jumpIfNegative _ | .pushReturn _ | .dispatch _ | .halt => .done d

end Data

end Whitespace
