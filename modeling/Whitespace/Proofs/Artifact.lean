import Whitespace.Proofs.Codec

/-!
Artifacts keep what they were made from. Code is read back from its artifact, whatever bytes come
after, and no artifact that was cut short is taken for another one.
-/
namespace Whitespace

open Decoder
open Varint (reads_int32 reads_uint32 reads_uint64)

/-- The length of the table is a number of 64 bits. -/
def Op.Representable : Op → Prop
  | .dispatch table => table.size < 2 ^ 64
  | _ => True

/-- All lengths are numbers of 64 bits. -/
def Code.Representable (code : Code) : Prop :=
  code.ops.size < 2 ^ 64 ∧ ∀ op ∈ code.ops, op.Representable

theorem reads_variant (n : Nat) (h : n < 128) : Reads Varint.decode32 [n.toUInt8] n.toUInt32 := by
  have hread : Reads Varint.decode32 (Varint.encode n) n.toUInt32 :=
    Varint.reads_decode32 (by omega)
  rw [Varint.encode, if_pos h] at hread
  exact hread

theorem reads_op {op : Op} (h : op.Representable) : Reads Decoder.op op.encode op := by
  cases op with
  | push value =>
    exact (reads_variant 0 (by decide)).bind ((reads_int32 value).map Op.push rfl)
  | dup => exact (reads_variant 1 (by decide)).bind (reads_pure _)
  | swap => exact (reads_variant 2 (by decide)).bind (reads_pure _)
  | drop => exact (reads_variant 3 (by decide)).bind (reads_pure _)
  | add => exact (reads_variant 4 (by decide)).bind (reads_pure _)
  | sub => exact (reads_variant 5 (by decide)).bind (reads_pure _)
  | mul => exact (reads_variant 6 (by decide)).bind (reads_pure _)
  | div => exact (reads_variant 7 (by decide)).bind (reads_pure _)
  | mod => exact (reads_variant 8 (by decide)).bind (reads_pure _)
  | store => exact (reads_variant 9 (by decide)).bind (reads_pure _)
  | load => exact (reads_variant 10 (by decide)).bind (reads_pure _)
  | jump offset =>
    exact (reads_variant 11 (by decide)).bind ((reads_int32 offset).map Op.jump rfl)
  | jumpIfZero offset =>
    exact (reads_variant 12 (by decide)).bind ((reads_int32 offset).map Op.jumpIfZero rfl)
  | jumpIfNegative offset =>
    exact (reads_variant 13 (by decide)).bind ((reads_int32 offset).map Op.jumpIfNegative rfl)
  | pushReturn site =>
    exact (reads_variant 14 (by decide)).bind ((reads_uint32 site).map Op.pushReturn rfl)
  | dispatch table =>
    have htable := reads_array table h fun offset _ => reads_int32 offset
    exact (reads_variant 15 (by decide)).bind (htable.map Op.dispatch rfl)
  | writeChar => exact (reads_variant 16 (by decide)).bind (reads_pure _)
  | writeNumber => exact (reads_variant 17 (by decide)).bind (reads_pure _)
  | readChar => exact (reads_variant 18 (by decide)).bind (reads_pure _)
  | readNumber => exact (reads_variant 19 (by decide)).bind (reads_pure _)
  | halt => exact (reads_variant 20 (by decide)).bind (reads_pure _)

namespace Code

theorem reads_dispatcher (dispatcher : Option UInt64) :
    Reads (option Varint.decode64)
      (match dispatcher with
        | none => [0]
        | some address => 1 :: Varint.encode address.toNat) dispatcher := by
  cases dispatcher with
  | none => exact (reads_byte 0).bind (reads_pure none)
  | some address => exact (reads_byte 1).bind ((reads_uint64 address).map some rfl)

theorem reads_body {code : Code} (h : code.Representable) :
    Reads Decoder.code code.body code := by
  have hops := reads_array code.ops h.1 fun op hop => reads_op (h.2 op hop)
  have hsites := reads_uint32 code.returnSites
  have hdispatcher := reads_dispatcher code.dispatcher
  have hsources := reads_uint64 code.sourceInstructions
  rw [body, List.append_assoc, List.append_assoc]
  exact hops.bind (hsites.bind (hdispatcher.bind (hsources.map _ rfl)))

/-- What stands before the body. -/
def header : List UInt8 := magic ++ [version]

theorem toBytes_eq (code : Code) : code.toBytes = header ++ code.body := rfl

theorem ofBytes_header (bytes : List UInt8) :
    ofBytes (header ++ bytes) =
      match Decoder.code bytes with
      | .ok (code, _) => .ok code
      | .error e => .error (.decode e) :=
  rfl

theorem ofBytes_of_length_lt {bytes : List UInt8} (h : bytes.length < header.length) :
    ofBytes bytes = .error .badMagic := by
  have hdrop : bytes.drop 4 = [] := List.drop_eq_nil_of_le (Nat.le_of_lt_succ h)
  rw [ofBytes, hdrop]
  split
  · next hcons => cases hcons
  · rfl

theorem ofBytes_toBytes_append {code : Code} (h : code.Representable) (tail : List UInt8) :
    ofBytes (code.toBytes ++ tail) = .ok code := by
  rw [toBytes_eq, List.append_assoc, ofBytes_header, (reads_body h).whole]

theorem ofBytes_of_cut {code : Code} (h : code.Representable) {part : List UInt8}
    (hpart : part <+: code.toBytes) (hne : part ≠ code.toBytes)
    (hlength : header.length ≤ part.length) : ofBytes part = .error (.decode .endOfBuffer) := by
  have hheader : header <+: part :=
    List.prefix_of_prefix_length_le (List.prefix_append header code.body) hpart hlength
  obtain ⟨bytes, rfl⟩ := hheader
  have hbytes : bytes <+: code.body := (List.prefix_append_right_inj header).mp hpart
  have hcut := (reads_body h).cut bytes hbytes fun heq => hne (heq ▸ rfl)
  rw [ofBytes_header, hcut]

/-- Code is read back from its artifact, whatever comes after; and whatever is less than its
artifact ends too early, in the magic and the version or after them. -/
theorem artifact_read_back_or_cut {code : Code} (h : code.Representable) :
    (∀ tail, ofBytes (code.toBytes ++ tail) = .ok code) ∧
      ∀ part, part <+: code.toBytes → part ≠ code.toBytes →
        ofBytes part =
          .error (if part.length < 5 then .badMagic else .decode .endOfBuffer) := by
  refine ⟨ofBytes_toBytes_append h, fun part hpart hne => ?_⟩
  split
  · next hlt => exact ofBytes_of_length_lt hlt
  · next hle => exact ofBytes_of_cut h hpart hne (Nat.le_of_not_lt hle)

/-- Code with the largest numbers that there are. -/
def widest : Code where
  ops := #[.push Int32.minValue, .jump Int32.maxValue, .pushReturn 0xffffffff,
    .dispatch #[-1, 0, 64], .halt]
  returnSites := 0xffffffff
  dispatcher := some 0xffffffffffffffff
  sourceInstructions := 0xffffffffffffffff

theorem widest_read_back_or_cut :
    widest.Representable ∧ ofBytes (widest.toBytes ++ [1, 2, 3]) = .ok widest ∧
      ∀ n < widest.toBytes.length, ofBytes (widest.toBytes.take n) =
        .error (if n < 5 then .badMagic else .decode .endOfBuffer) := by
  have h : widest.Representable := by
    simp [Representable, widest, Op.Representable]
  obtain ⟨hwhole, hcut⟩ := artifact_read_back_or_cut h
  refine ⟨h, hwhole [1, 2, 3], fun n hn => ?_⟩
  have hlength : (widest.toBytes.take n).length = n := List.length_take_of_le (Nat.le_of_lt hn)
  have hne : widest.toBytes.take n ≠ widest.toBytes := by
    intro heq
    rw [heq] at hlength
    omega
  have hpart := hcut _ (List.take_prefix n _) hne
  rw [hlength] at hpart
  exact hpart

end Code

end Whitespace
