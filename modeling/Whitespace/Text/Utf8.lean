/-!
UTF-8. The bytes of a text are cut into segments, one for each character: a leading byte, and as
many of the continuation bytes after it as the leading byte asks for. A segment that is no
character's encoding is malformed.
-/
namespace Whitespace.Utf8

/-- The character with this code point, unless it is a surrogate or too large. -/
def scalar? (n : Nat) : Option Char :=
  if h : n.isValidChar then some (Char.ofNatAux n h) else none

/-- Stands for what cannot be read or written. -/
def replacement : Char := '�'

def encode (c : Char) : List UInt8 :=
  let n := c.toNat
  if n < 0x80 then [n.toUInt8]
  else if n < 0x800 then [(0xC0 + n / 64).toUInt8, (0x80 + n % 64).toUInt8]
  else if n < 0x10000 then
    [(0xE0 + n / 4096).toUInt8, (0x80 + n / 64 % 64).toUInt8, (0x80 + n % 64).toUInt8]
  else
    [(0xF0 + n / 262144).toUInt8, (0x80 + n / 4096 % 64).toUInt8, (0x80 + n / 64 % 64).toUInt8,
      (0x80 + n % 64).toUInt8]

/-- How many continuation bytes a leading byte asks for. -/
def continuations? (lead : UInt8) : Option Nat :=
  if lead < 0x80 then some 0
  else if lead < 0xC0 then none
  else if lead < 0xE0 then some 1
  else if lead < 0xF0 then some 2
  else if lead < 0xF8 then some 3
  else none

def isContinuation (b : UInt8) : Bool := 0x80 ≤ b && b < 0xC0

/-- Splits off at most `n` continuation bytes. -/
def splitContinuations : Nat → List UInt8 → List UInt8 × List UInt8
  | n + 1, b :: bs =>
    if isContinuation b then
      let (taken, rest) := splitContinuations n bs
      (b :: taken, rest)
    else ([], b :: bs)
  | _, bs => ([], bs)

/-- The character that a complete segment encodes. Longer encodings than needed are malformed. -/
def decode? : List UInt8 → Option Char
  | [a] => if a < 0x80 then scalar? a.toNat else none
  | [a, b] =>
    let n := (a.toNat - 0xC0) * 64 + (b.toNat - 0x80)
    if a < 0xE0 ∧ 0x80 ≤ n then scalar? n else none
  | [a, b, c] =>
    let n := (a.toNat - 0xE0) * 4096 + (b.toNat - 0x80) * 64 + (c.toNat - 0x80)
    if a < 0xF0 ∧ 0x800 ≤ n then scalar? n else none
  | [a, b, c, d] =>
    let n := (a.toNat - 0xF0) * 262144 + (b.toNat - 0x80) * 4096 + (c.toNat - 0x80) * 64 +
      (d.toNat - 0x80)
    if 0x10000 ≤ n then scalar? n else none
  | _ => none

/-- The first segment, decoded if it is well formed, and the bytes after it. A byte that cannot
lead is a segment of its own. -/
def segment? : List UInt8 → Option (Option Char × List UInt8)
  | [] => none
  | lead :: bs =>
    match continuations? lead with
    | none => some (none, bs)
    | some n =>
      let (taken, rest) := splitContinuations n bs
      some (decode? (lead :: taken), rest)

/-- Reads one character; a malformed segment reads as the replacement character. -/
def readChar (bytes : List UInt8) : Option (Char × List UInt8) :=
  (segment? bytes).map fun (c, rest) => (c.getD replacement, rest)

theorem length_splitContinuations (n : Nat) (bs : List UInt8) :
    (splitContinuations n bs).2.length ≤ bs.length := by
  fun_induction splitContinuations n bs with
  | case1 n b bs h taken rest heq ih =>
    rw [heq] at ih
    exact Nat.le_succ_of_le ih
  | case2 => exact Nat.le_refl _
  | case3 => exact Nat.le_refl _

theorem length_of_segment? {bytes rest : List UInt8} {c : Option Char}
    (h : segment? bytes = some (c, rest)) : rest.length < bytes.length := by
  cases bytes with
  | nil => cases h
  | cons lead bs =>
    simp only [segment?] at h
    split at h
    · simp_all
    · next n _ =>
      simp only [Option.some.injEq, Prod.mk.injEq] at h
      rw [← h.2]
      exact Nat.lt_succ_of_le (length_splitContinuations n bs)

/-- Decodes a whole text; `read` has the characters before, the last one first. -/
def decodeFrom? (read : List Char) (bytes : List UInt8) : Option (List Char) :=
  match _h : segment? bytes with
  | none => some read.reverse
  | some (none, _) => none
  | some (some c, rest) => decodeFrom? (c :: read) rest
termination_by bytes.length
decreasing_by exact length_of_segment? _h

/-- Decodes bytes of which every segment is well formed. -/
def decodeAll? (bytes : List UInt8) : Option (List Char) := decodeFrom? [] bytes

def encodeAll (cs : List Char) : List UInt8 := cs.flatMap encode

end Whitespace.Utf8
