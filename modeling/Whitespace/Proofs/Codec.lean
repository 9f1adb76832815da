import Mathlib
import Whitespace.Code.Artifact

/-!
What it means that a decoder reads bytes as a value: it leaves all bytes after them, and it comes
to the end of the buffer if any of them are cut off. This holds of a sequence of decoders if it
holds of each, so it goes from the numbers up to lists and options.
-/
namespace Whitespace

namespace Decoder

/-- The decoder reads `bytes`, and no less, as `a`. -/
structure Reads {α : Type} (dec : Decoder α) (bytes : List UInt8) (a : α) : Prop where
  whole : ∀ tail, dec (bytes ++ tail) = .ok (a, tail)
  cut : ∀ part, part <+: bytes → part ≠ bytes → dec part = .error .endOfBuffer

variable {α β : Type} {dec : Decoder α} {bytes rest : List UInt8} {a : α}

theorem bind_of_ok {f : α → Decoder β} (h : dec bytes = .ok (a, rest)) :
    (dec >>= f) bytes = f a rest := by
  change (dec bytes >>= fun p => f p.1 p.2) = f a rest
  rw [h]
  rfl

theorem bind_of_error {f : α → Decoder β} {e : DecodeError} (h : dec bytes = .error e) :
    (dec >>= f) bytes = .error e := by
  change (dec bytes >>= fun p => f p.1 p.2) = .error e
  rw [h]
  rfl

theorem reads_pure (a : α) : Reads (pure a) [] a where
  whole _ := rfl
  cut _ hpart hne := absurd (List.prefix_nil.mp hpart) hne

theorem Reads.bind {f : α → Decoder β} {b : β} (h : Reads dec bytes a)
    (hf : Reads (f a) rest b) : Reads (dec >>= f) (bytes ++ rest) b where
  whole tail := by
    rw [List.append_assoc, bind_of_ok (h.whole _), hf.whole]
  cut part hpart hne := by
    by_cases hbytes : bytes <+: part
    · obtain ⟨more, rfl⟩ := hbytes
      rw [bind_of_ok (h.whole more)]
      exact hf.cut more ((List.prefix_append_right_inj bytes).mp hpart) fun heq => hne (heq ▸ rfl)
    · have hfirst : part <+: bytes :=
        (List.prefix_or_prefix_of_prefix hpart (List.prefix_append bytes rest)).resolve_right hbytes
      exact bind_of_error (h.cut part hfirst fun heq => hbytes (heq ▸ List.prefix_rfl))

theorem Reads.map {b : β} (h : Reads dec bytes a) (f : α → β) (hf : f a = b) :
    Reads (dec >>= fun a => pure (f a)) bytes b := by
  have hpure : Reads (pure (f a)) [] b := hf ▸ reads_pure (f a)
  have hbind := h.bind (f := fun a => pure (f a)) hpure
  rw [List.append_nil] at hbind
  exact hbind

/-- It is enough to look at the bytes after the first. -/
theorem reads_cons {b : UInt8} (hnil : dec [] = .error .endOfBuffer)
    (hwhole : ∀ tail, dec (b :: (bytes ++ tail)) = .ok (a, tail))
    (hcut : ∀ part, part <+: bytes → part ≠ bytes → dec (b :: part) = .error .endOfBuffer) :
    Reads dec (b :: bytes) a where
  whole := hwhole
  cut part hpart hne := by
    rcases List.prefix_cons_iff.mp hpart with rfl | ⟨more, rfl, hmore⟩
    · exact hnil
    · exact hcut more hmore fun heq => hne (heq ▸ rfl)

theorem reads_singleton {b : UInt8} (hnil : dec [] = .error .endOfBuffer)
    (hwhole : ∀ tail, dec (b :: tail) = .ok (a, tail)) : Reads dec [b] a :=
  reads_cons hnil hwhole fun _ hpart hne => absurd (List.prefix_nil.mp hpart) hne

end Decoder

namespace Varint

open Decoder (Reads reads_cons reads_singleton)

theorem toNat_toUInt8 {n : Nat} (h : n < 256) : n.toUInt8.toNat = n := by
  simp [Nat.mod_eq_of_lt h]

theorem reads_small {last left n : Nat} (h : n < 128) (hlast : left = 0 → n ≤ last) :
    Reads (decodeFrom last (left + 1)) [n.toUInt8] n := by
  have hbyte : n.toUInt8.toNat = n := toNat_toUInt8 (by omega)
  have hlt : n.toUInt8 < 128 := by
    rw [UInt8.lt_iff_toNat_lt, hbyte]
    exact h
  refine reads_singleton rfl fun tail => ?_
  rw [decodeFrom, if_pos hlt, hbyte, if_neg (by omega)]

/-- A number that `left` bytes more and a last one of at most `last` have room for is read from its
encoding. -/
theorem reads_decodeFrom {last left n : Nat} (hlast : last < 128)
    (h : n < (last + 1) * 128 ^ left) :
    Reads (decodeFrom last (left + 1)) (encode n) n := by
  induction left generalizing n with
  | zero =>
    rw [encode, if_pos (by omega)]
    exact reads_small (by omega) (by omega)
  | succ left ih =>
    rw [encode]
    split
    · next hn => exact reads_small hn (by omega)
    · next hn =>
      have hbyte : (n % 128 + 128).toUInt8.toNat = n % 128 + 128 := toNat_toUInt8 (by omega)
      have hnot : ¬ (n % 128 + 128).toUInt8 < 128 := by
        rw [UInt8.lt_iff_toNat_lt, hbyte]
        exact Nat.not_lt.mpr (Nat.le_add_left _ _)
      have hdiv : n / 128 < (last + 1) * 128 ^ left := by
        rw [Nat.div_lt_iff_lt_mul (by decide), Nat.mul_assoc, ← Nat.pow_succ]
        exact h
      have hrest := ih hdiv
      refine reads_cons rfl (fun tail => ?_) fun part hpart hne => ?_
      · have hsum : n % 128 + 128 - 128 + 128 * (n / 128) = n := by omega
        simp only [decodeFrom, if_neg hnot, hrest.whole tail, hbyte, hsum]
      · simp only [decodeFrom, if_neg hnot, hrest.cut part hpart hne]

theorem reads_decode32 {n : Nat} (h : n < 2 ^ 32) : Reads decode32 (encode n) n.toUInt32 :=
  (reads_decodeFrom (by decide) (by omega)).map _ rfl

theorem reads_decode64 {n : Nat} (h : n < 2 ^ 64) : Reads decode64 (encode n) n.toUInt64 :=
  (reads_decodeFrom (by decide) (by omega)).map _ rfl

theorem reads_uint32 (n : UInt32) : Reads decode32 (encode n.toNat) n := by
  have hn : n.toNat.toUInt32 = n := UInt32.ofNat_toNat
  have h := reads_decode32 n.toNat_lt
  rw [hn] at h
  exact h

theorem reads_uint64 (n : UInt64) : Reads decode64 (encode n.toNat) n := by
  have hn : n.toNat.toUInt64 = n := UInt64.ofNat_toNat
  have h := reads_decode64 n.toNat_lt
  rw [hn] at h
  exact h

theorem zigzag_lt (i : Int32) : zigzag i.toInt < 2 ^ 32 := by
  have hle := i.toInt_lt
  have hge := i.le_toInt
  unfold zigzag
  split <;> omega

theorem reads_int32 (i : Int32) : Reads decodeInt (encodeInt i) i := by
  refine (reads_decode32 (zigzag_lt i)).map _ ?_
  rw [UInt32.toNat_ofNat_of_lt' (zigzag_lt i), unzigzag_zigzag, Int32.ofInt_toInt]

end Varint

namespace Decoder

variable {α : Type} {item : Decoder α}

theorem reads_items {encode : α → List UInt8} (xs : List α)
    (h : ∀ x ∈ xs, Reads item (encode x) x) (read : Array α) :
    Reads (itemsFrom item read xs.length) (xs.flatMap encode) (read ++ xs) := by
  induction xs generalizing read with
  | nil =>
    simpa [itemsFrom] using reads_pure read
  | cons x xs ih =>
    have hrest := ih (fun y hy => h y (List.mem_cons_of_mem x hy)) (read.push x)
    have hitems := (h x List.mem_cons_self).bind
      (f := fun x => itemsFrom item (read.push x) xs.length) hrest
    simpa [itemsFrom] using hitems

theorem reads_array {encode : α → List UInt8} (xs : Array α) (hsize : xs.size < 2 ^ 64)
    (h : ∀ x ∈ xs, Reads item (encode x) x) :
    Reads (array item) (Varint.encode xs.size ++ xs.toList.flatMap encode) xs := by
  refine (Varint.reads_decode64 hsize).bind ?_
  have hlength : xs.size.toUInt64.toNat = xs.toList.length := UInt64.toNat_ofNat_of_lt' hsize
  rw [hlength]
  have hitems := reads_items xs.toList (fun x hx => h x (Array.mem_toList_iff.mp hx)) #[]
  simpa using hitems

theorem reads_byte (b : UInt8) : Reads byte [b] b :=
  reads_singleton rfl fun _ => rfl

end Decoder

end Whitespace
