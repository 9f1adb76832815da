import Whitespace.Code
import Whitespace.Code.Varint

/-!
Artifacts: code as bytes. Four bytes of magic and a version number come first; then the ops, each a
variant number and its operand, the number of return sites, the dispatcher and the number of
source instructions. A list is its length and its items. Bytes after the end are ignored.
-/
namespace Whitespace

inductive ArtifactError where
  | badMagic
  | unsupportedVersion (version : UInt8)
  | decode (error : DecodeError)
  deriving DecidableEq, Repr

def ArtifactError.message : ArtifactError → String
  | .badMagic => "not a bytecode artifact (bad magic)"
  | .unsupportedVersion version => s!"unsupported artifact format version {version.toNat}"
  | .decode error => "cannot decode artifact: " ++ error.message

namespace Op

def encode : Op → List UInt8
  | .push value => 0 :: Varint.encodeInt value
  | .dup => [1]
  | .swap => [2]
  | .drop => [3]
  | .add => [4]
  | .sub => [5]
  | .mul => [6]
  | .div => [7]
  | .mod => [8]
  | .store => [9]
  | .load => [10]
  | .jump offset => 11 :: Varint.encodeInt offset
  | .jumpIfZero offset => 12 :: Varint.encodeInt offset
  | .jumpIfNegative offset => 13 :: Varint.encodeInt offset
  | .pushReturn site => 14 :: Varint.encode site.toNat
  | .dispatch table => 15 :: Varint.encode table.size ++ table.toList.flatMap Varint.encodeInt
  | .writeChar => [16]
  | .writeNumber => [17]
  | .readChar => [18]
  | .readNumber => [19]
  | .halt => [20]

end Op

namespace Decoder

def failure {α : Type} (e : DecodeError) : Decoder α := fun _ => .error e

def byte : Decoder UInt8
  | [] => .error .endOfBuffer
  | b :: bs => .ok (b, bs)

/-- Reads `n` items after those in `read`. -/
def itemsFrom {α : Type} (item : Decoder α) (read : Array α) : Nat → Decoder (Array α)
  | 0 => pure read
  | n + 1 => do itemsFrom item (read.push (← item)) n

def array {α : Type} (item : Decoder α) : Decoder (Array α) := do
  itemsFrom item #[] (← Varint.decode64).toNat

def option {α : Type} (item : Decoder α) : Decoder (Option α) := do
  match (← byte).toNat with
  | 0 => return none
  | 1 => return some (← item)
  | _ => failure .badOption

def op : Decoder Op := do
  match (← Varint.decode32).toNat with
  | 0 => return .push (← Varint.decodeInt)
  | 1 => return .dup
  | 2 => return .swap
  | 3 => return .drop
  | 4 => return .add
  | 5 => return .sub
  | 6 => return .mul
  | 7 => return .div
  | 8 => return .mod
  | 9 => return .store
  | 10 => return .load
  | 11 => return .jump (← Varint.decodeInt)
  | 12 => return .jumpIfZero (← Varint.decodeInt)
  | 13 => return .jumpIfNegative (← Varint.decodeInt)
  | 14 => return .pushReturn (← Varint.decode32)
  | 15 => return .dispatch (← array Varint.decodeInt)
  | 16 => return .writeChar
  | 17 => return .writeNumber
  | 18 => return .readChar
  | 19 => return .readNumber
  | 20 => return .halt
  | _ => failure .unknownVariant

def code : Decoder Code := do
  let ops ← array op
  let returnSites ← Varint.decode32
  let dispatcher ← option Varint.decode64
  let sourceInstructions ← Varint.decode64
  return { ops, returnSites, dispatcher, sourceInstructions }

end Decoder

namespace Code

def magic : List UInt8 := [0x57, 0x53, 0x42, 0x43]

def version : UInt8 := 1

def body (code : Code) : List UInt8 :=
  Varint.encode code.ops.size ++ code.ops.toList.flatMap Op.encode ++
    Varint.encode code.returnSites.toNat ++
    (match code.dispatcher with
      | none => [0]
      | some address => 1 :: Varint.encode address.toNat) ++
    Varint.encode code.sourceInstructions.toNat

def toBytes (code : Code) : List UInt8 := magic ++ version :: code.body

def ofBytes (bytes : List UInt8) : Except ArtifactError Code :=
  match bytes.take 4 == magic, bytes.drop 4 with
  | true, v :: body =>
    if v = version then
      match Decoder.code.run body with
      | .ok (code, _) => .ok code
      | .error e => .error (.decode e)
    else .error (.unsupportedVersion v)
  | _, _ => .error .badMagic

end Code

end Whitespace
