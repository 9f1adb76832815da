import Whitespace.Proofs.Artifact

/-!
An artifact has no shorter spelling. A number may be read with needless zeros at its end, and bytes
after the record are ignored, so many strings of bytes are read as the same code. But whatever a
decoder reads as a value is the value's own encoding or is longer, and this goes from the numbers up
to the whole record.
-/
namespace Whitespace

/-- The bytes are `own`, or there are more of them. -/
def Pads (bytes own : List UInt8) : Prop := bytes = own ∨ own.length < bytes.length

namespace Pads

variable {bytes own bytes' own' : List UInt8}

theorem length_le (h : Pads bytes own) : own.length ≤ bytes.length := by
  obtain rfl | hlt := h
  · exact Nat.le_refl _
  · exact hlt.le

theorem append (h : Pads bytes own) (h' : Pads bytes' own') :
    Pads (bytes ++ bytes') (own ++ own') := by
  obtain rfl | hlt := h
  · obtain rfl | hlt' := h'
    · exact .inl rfl
    · exact .inr (by simpa using hlt')
  · have hle := h'.length_le
    refine .inr ?_
    rw [List.length_append, List.length_append]
    omega

end Pads

namespace Decoder

variable {α β : Type} {dec : Decoder α} {f : α → Decoder β} {front bytes rest : List UInt8}
  {a : α} {b : β} {own : α → List UInt8} {own' : β → List UInt8}

theorem exists_of_bind (h : (dec >>= f) bytes = .ok (b, rest)) :
    ∃ a mid, dec bytes = .ok (a, mid) ∧ f a mid = .ok (b, rest) := by
  cases hdec : dec bytes with
  | error e =>
    rw [bind_of_error hdec] at h
    cases h
  | ok read => exact ⟨read.1, read.2, rfl, (bind_of_ok hdec).symm.trans h⟩

/-- Some bytes are read as `a`. -/
def Gives (dec : Decoder α) (a : α) : Prop := ∃ bytes rest, dec bytes = .ok (a, rest)

theorem Gives.of_bind (h : Gives (dec >>= f) b) : ∃ a, Gives dec a ∧ Gives (f a) b := by
  obtain ⟨bytes, rest, h⟩ := h
  obtain ⟨a, mid, hdec, hf⟩ := exists_of_bind h
  exact ⟨a, ⟨bytes, mid, hdec⟩, mid, rest, hf⟩

theorem Gives.of_pure {a' : α} (h : Gives (pure a) a') : a' = a := by
  obtain ⟨bytes, rest, h⟩ := h
  cases h
  rfl

/-- What is read after `front` brings it to the encoding of the value, or is longer than that. -/
def Completes (front : List UInt8) (dec : Decoder α) (own : α → List UInt8) : Prop :=
  ∀ ⦃bytes a rest⦄, dec bytes = .ok (a, rest) →
    ∃ taken missing, bytes = taken ++ rest ∧ own a = front ++ missing ∧ Pads taken missing

theorem completes_pure (h : own a = front) : Completes front (pure a) own := by
  intro bytes a rest hread
  cases hread
  exact ⟨[], [], rfl, by rw [h, List.append_nil], .inl rfl⟩

theorem completes_failure (e : DecodeError) : Completes front (failure e) own := by
  intro bytes a rest hread
  cases hread

theorem Completes.bind (h : Completes [] dec own)
    (hf : ∀ a, Gives dec a → Completes (front ++ own a) (f a) own') :
    Completes front (dec >>= f) own' := by
  intro bytes b rest hread
  obtain ⟨a, mid, hdec, hrest⟩ := exists_of_bind hread
  obtain ⟨taken, missing, rfl, hown, hpads⟩ := h hdec
  obtain ⟨taken', missing', rfl, hown', hpads'⟩ := hf a ⟨_, _, hdec⟩ hrest
  rw [List.nil_append] at hown
  refine ⟨taken ++ taken', missing ++ missing', (List.append_assoc ..).symm, ?_,
    hpads.append hpads'⟩
  rw [hown', hown, List.append_assoc]

theorem Completes.map {g : α → β} (h : Completes [] dec own)
    (hg : ∀ a, Gives dec a → own' (g a) = front ++ own a) :
    Completes front (dec >>= fun a => pure (g a)) own' :=
  h.bind fun a ha => completes_pure (hg a ha)

theorem completes_byte : Completes [] byte fun b => [b] := by
  intro bytes b rest hread
  cases bytes with
  | nil => cases hread
  | cons c bytes =>
    cases hread
    exact ⟨[b], [b], rfl, rfl, .inl rfl⟩

end Decoder

namespace Varint

open Decoder (Gives Completes)

variable {last left n : Nat} {bytes rest : List UInt8}

theorem encode_small {b : UInt8} (h : b < 128) : encode b.toNat = [b] := by
  have hlt : b.toNat < 128 := UInt8.lt_iff_toNat_lt.mp h
  rw [encode, if_pos hlt]
  exact congrArg (fun b => [b]) UInt8.ofNat_toNat

theorem encode_pos (n : Nat) : 0 < (encode n).length := by
  rw [encode]
  split <;> exact Nat.succ_pos _

theorem encode_step {b : UInt8} (h : ¬ b < 128) (hn : 0 < n) :
    encode (b.toNat - 128 + 128 * n) = b :: encode n := by
  have hlow : 128 ≤ b.toNat := Nat.le_of_not_lt fun hlt => h (UInt8.lt_iff_toNat_lt.mpr hlt)
  have hhigh := b.toNat_lt
  have hmod : (b.toNat - 128 + 128 * n) % 128 + 128 = b.toNat := by omega
  have hdiv : (b.toNat - 128 + 128 * n) / 128 = n := by omega
  rw [encode, if_neg (by omega), hmod, hdiv]
  exact congrArg (· :: encode n) UInt8.ofNat_toNat

/-- A number is read from one byte that is the last, or from one byte and a number after it. -/
theorem decodeFrom_cases (h : decodeFrom last (left + 1) bytes = .ok (n, rest)) :
    (∃ b, bytes = b :: rest ∧ b < 128 ∧ n = b.toNat ∧ (left = 0 → b.toNat ≤ last)) ∨
      ∃ b more m, bytes = b :: more ∧ ¬ b < 128 ∧ decodeFrom last left more = .ok (m, rest) ∧
        n = b.toNat - 128 + 128 * m := by
  cases bytes with
  | nil => cases h
  | cons b more =>
    rw [decodeFrom] at h
    split at h
    · next hsmall =>
      split at h
      · cases h
      · next hlast =>
        cases h
        refine .inl ⟨b, rfl, hsmall, rfl, ?_⟩
        intro hleft
        exact Nat.le_of_not_lt fun hlt => hlast ⟨hleft, hlt⟩
    · next hlarge =>
      split at h
      · cases h
      · next m mid hmore =>
        cases h
        exact .inr ⟨b, more, m, rfl, hlarge, hmore, rfl⟩

theorem completes_decodeFrom (last left : Nat) : Completes [] (decodeFrom last left) encode := by
  induction left with
  | zero =>
    intro bytes n rest hread
    cases hread
  | succ left ih =>
    intro bytes n rest hread
    obtain ⟨b, rfl, hsmall, rfl, -⟩ | ⟨b, more, m, rfl, hlarge, hmore, rfl⟩ :=
      decodeFrom_cases hread
    · exact ⟨[b], [b], rfl, encode_small hsmall, .inl rfl⟩
    · obtain ⟨taken, missing, rfl, hown, hpads⟩ := ih hmore
      rw [List.nil_append] at hown
      subst hown
      refine ⟨b :: taken, encode (b.toNat - 128 + 128 * m), rfl, rfl, ?_⟩
      obtain rfl | hm := Nat.eq_zero_or_pos m
      · -- Only zeros come after the first byte, so one byte would have been enough.
        have hhigh := b.toNat_lt
        have htaken : 0 < taken.length := (encode_pos 0).trans_le hpads.length_le
        rw [encode, if_pos (by omega)]
        exact .inr (by simpa using htaken)
      · rw [encode_step hlarge hm]
        exact Pads.append (.inl rfl : Pads [b] [b]) hpads

/-- No number is read that the bytes have no room for. -/
theorem lt_of_decodeFrom (h : decodeFrom last (left + 1) bytes = .ok (n, rest)) :
    n < (last + 1) * 128 ^ left := by
  induction left generalizing bytes n with
  | zero =>
    obtain ⟨b, -, -, rfl, hlast⟩ | ⟨b, more, m, -, -, hmore, -⟩ := decodeFrom_cases h
    · have hle := hlast rfl
      omega
    · cases hmore
  | succ left ih =>
    rw [Nat.pow_succ, ← Nat.mul_assoc]
    obtain ⟨b, -, hsmall, rfl, -⟩ | ⟨b, more, m, -, -, hmore, rfl⟩ := decodeFrom_cases h
    · have hb : b.toNat < 128 := UInt8.lt_iff_toNat_lt.mp hsmall
      have hroom : 0 < (last + 1) * 128 ^ left := by positivity
      omega
    · have hm := ih hmore
      have hb := b.toNat_lt
      omega

theorem completes_decode32 : Completes [] decode32 fun n => encode n.toNat := by
  refine (completes_decodeFrom 15 5).map fun n hn => ?_
  obtain ⟨bytes, rest, hread⟩ := hn
  have hlt : n < 2 ^ 32 := lt_of_decodeFrom hread
  rw [UInt32.toNat_ofNat_of_lt' hlt, List.nil_append]

theorem completes_decode64 : Completes [] decode64 fun n => encode n.toNat := by
  refine (completes_decodeFrom 1 10).map fun n hn => ?_
  obtain ⟨bytes, rest, hread⟩ := hn
  have hlt : n < 2 ^ 64 := lt_of_decodeFrom hread
  rw [UInt64.toNat_ofNat_of_lt' hlt, List.nil_append]

theorem zigzag_unzigzag (n : Nat) : zigzag (unzigzag n) = n := by
  unfold zigzag unzigzag
  split <;> split <;> omega

theorem completes_decodeInt : Completes [] decodeInt encodeInt := by
  refine completes_decode32.map fun n _ => ?_
  have hn := n.toNat_lt
  have hfits : (Int32.ofInt (unzigzag n.toNat)).toInt = unzigzag n.toNat := by
    apply Int32.toInt_ofInt_of_le
    · unfold unzigzag; split <;> omega
    · unfold unzigzag; split <;> omega
  rw [encodeInt, hfits, zigzag_unzigzag, List.nil_append]

end Varint

namespace Decoder

open Varint (completes_decode32 completes_decode64 completes_decodeInt)

variable {α : Type} {item : Decoder α} {own : α → List UInt8}

/-- An array's length and its items. -/
def ownArray (own : α → List UInt8) (xs : Array α) : List UInt8 :=
  Varint.encode xs.size ++ xs.toList.flatMap own

theorem completes_itemsFrom (h : Completes [] item own) (n : Nat) (read : Array α) :
    Completes (Varint.encode (read.size + n) ++ read.toList.flatMap own) (itemsFrom item read n)
      (ownArray own) := by
  induction n generalizing read with
  | zero => exact completes_pure rfl
  | succ n ih =>
    refine h.bind fun x _ => ?_
    have hread := ih (read.push x)
    rw [Array.size_push, Array.toList_push, List.flatMap_append, List.flatMap_singleton,
      ← List.append_assoc, Nat.add_right_comm] at hread
    exact hread

theorem completes_array (h : Completes [] item own) : Completes [] (array item) (ownArray own) := by
  refine completes_decode64.bind fun n _ => ?_
  have hitems := completes_itemsFrom h n.toNat #[]
  simpa using hitems

/-- As many items are read as were asked for, each of them by `item`. -/
theorem items_of_gives {n : Nat} {read xs : Array α} (h : Gives (itemsFrom item read n) xs) :
    xs.size = read.size + n ∧ ∀ x ∈ xs, x ∈ read ∨ Gives item x := by
  induction n generalizing read with
  | zero =>
    obtain rfl := h.of_pure
    exact ⟨rfl, fun x hx => .inl hx⟩
  | succ n ih =>
    obtain ⟨x, hx, hrest⟩ := h.of_bind
    obtain ⟨hsize, hmem⟩ := ih hrest
    refine ⟨by rw [hsize, Array.size_push]; omega, fun y hy => ?_⟩
    obtain hread | hgives := hmem y hy
    · obtain hread | rfl := Array.mem_push.mp hread
      · exact .inl hread
      · exact .inr hx
    · exact .inr hgives

theorem array_of_gives {xs : Array α} (h : Gives (array item) xs) :
    xs.size < 2 ^ 64 ∧ ∀ x ∈ xs, Gives item x := by
  obtain ⟨n, _, hitems⟩ := h.of_bind
  obtain ⟨hsize, hmem⟩ := items_of_gives hitems
  refine ⟨?_, fun x hx => (hmem x hx).resolve_left (by simp)⟩
  rw [hsize, Array.size_empty, Nat.zero_add]
  exact n.toNat_lt

/-- An option's tag and its item, if there is one. -/
def ownOption (own : α → List UInt8) : Option α → List UInt8
  | none => [0]
  | some a => 1 :: own a

theorem completes_option (h : Completes [] item own) :
    Completes [] (option item) (ownOption own) := by
  refine completes_byte.bind fun tag _ => ?_
  rw [List.nil_append]
  obtain rfl | hzero := eq_or_ne tag 0
  · exact completes_pure rfl
  · obtain rfl | hone := eq_or_ne tag 1
    · exact h.map fun _ _ => rfl
    · split
      · next h => exact absurd (UInt8.toNat_inj.mp h) hzero
      · next h => exact absurd (UInt8.toNat_inj.mp h) hone
      · exact completes_failure _

theorem completes_variant {n : Nat} {dec : Decoder Op} (hn : n < 128)
    (h : Completes [n.toUInt8] dec Op.encode) : Completes (Varint.encode n) dec Op.encode := by
  rw [Varint.encode, if_pos hn]
  exact h

theorem completes_op : Completes [] op Op.encode := by
  refine completes_decode32.bind fun variant _ => ?_
  rw [List.nil_append]
  generalize variant.toNat = n
  split
  -- The variants in the order of their numbers: `push` and the branches have a signed operand,
  -- `pushReturn` an unsigned one, `dispatch` a table, and the last case is no variant.
  case h_1 | h_12 | h_13 | h_14 =>
    exact completes_variant (by decide) (completes_decodeInt.map fun _ _ => rfl)
  case h_15 => exact completes_variant (by decide) (completes_decode32.map fun _ _ => rfl)
  case h_16 =>
    exact completes_variant (by decide) ((completes_array completes_decodeInt).map fun _ _ => rfl)
  case h_22 => exact completes_failure _
  all_goals exact completes_variant (by decide) (completes_pure rfl)

theorem completes_code : Completes [] code Code.body := by
  refine (completes_array completes_op).bind fun ops _ => ?_
  refine completes_decode32.bind fun returnSites _ => ?_
  refine (completes_option completes_decode64).bind fun dispatcher _ => ?_
  refine completes_decode64.map fun sourceInstructions _ => ?_
  cases dispatcher <;> rfl

theorem representable_of_op {o : Op} (h : Gives op o) : o.Representable := by
  cases o
  case dispatch table =>
    obtain ⟨variant, _, hop⟩ := h.of_bind
    generalize variant.toNat = n at hop
    split at hop
    -- Only the variant of `dispatch` gives a table.
    case h_16 =>
      obtain ⟨offsets, hoffsets, hpure⟩ := hop.of_bind
      cases hpure.of_pure
      exact (array_of_gives hoffsets).1
    case h_1 | h_12 | h_13 | h_14 | h_15 =>
      obtain ⟨_, _, hpure⟩ := hop.of_bind
      cases hpure.of_pure
    case h_22 =>
      obtain ⟨bytes, rest, hfail⟩ := hop
      cases hfail
    all_goals cases hop.of_pure
  all_goals trivial

theorem representable_of_code {c : Code} (h : Gives code c) : c.Representable := by
  obtain ⟨ops, hops, h⟩ := h.of_bind
  obtain ⟨returnSites, _, h⟩ := h.of_bind
  obtain ⟨dispatcher, _, h⟩ := h.of_bind
  obtain ⟨sourceInstructions, _, h⟩ := h.of_bind
  cases h.of_pure
  obtain ⟨hsize, hitems⟩ := array_of_gives hops
  exact ⟨hsize, fun op hop => representable_of_op (hitems op hop)⟩

end Decoder

namespace Code

theorem exists_of_ofBytes {bytes : List UInt8} {code : Code} (h : ofBytes bytes = .ok code) :
    ∃ record rest, bytes = header ++ record ∧ Decoder.code record = .ok (code, rest) := by
  unfold ofBytes at h
  split at h
  · next v record hmagic hrecord =>
    split at h
    · next hversion =>
      subst hversion
      have hbytes : bytes = header ++ record := by
        rw [← List.take_append_drop 4 bytes, beq_iff_eq.mp hmagic, hrecord]
        rfl
      cases hread : Decoder.code.run record with
      | error e =>
        rw [hread] at h
        cases h
      | ok read =>
        rw [hread] at h
        cases h
        exact ⟨record, read.2, hbytes, hread⟩
    · cases h
  · cases h

/-- Whatever is read as some code, its artifact is read as the same code, and there is no other way
to write it in as few bytes. -/
theorem artifact_is_shortest {bytes : List UInt8} {code : Code} (h : ofBytes bytes = .ok code) :
    ofBytes code.toBytes = .ok code ∧ code.toBytes.length ≤ bytes.length ∧
      (code.toBytes.length = bytes.length → code.toBytes = bytes) := by
  obtain ⟨record, rest, rfl, hread⟩ := exists_of_ofBytes h
  have hback := ofBytes_toBytes_append (Decoder.representable_of_code ⟨record, rest, hread⟩) []
  obtain ⟨taken, missing, rfl, hbody, hpads⟩ := Decoder.completes_code hread
  rw [List.append_nil] at hback
  rw [List.nil_append] at hbody
  subst hbody
  have hle := hpads.length_le
  rw [toBytes_eq] at hback ⊢
  simp only [List.length_append]
  refine ⟨hback, by omega, fun hlength => ?_⟩
  have hrest : rest = [] := List.eq_nil_of_length_eq_zero (by omega)
  obtain rfl | hlt := hpads
  · rw [hrest, List.append_nil]
  · omega

/-- One op that pushes -1. The length, the variant and the operand are written with one byte more
than they need, and one byte follows the record. -/
def swollen : List UInt8 := header ++ [0x81, 0x00, 0x80, 0x00, 0x81, 0x00, 0x00, 0x00, 0x02, 0x07]

theorem swollen_has_shorter :
    ∃ code, ofBytes swollen = .ok code ∧ ofBytes code.toBytes = .ok code ∧
      code.toBytes.length + 4 = swollen.length ∧ code.toBytes.length ≤ swollen.length ∧
      (code.toBytes.length = swollen.length → code.toBytes = swollen) := by
  have hread : ofBytes swollen = .ok ⟨#[.push (-1)], 0, none, 2⟩ := by rfl
  exact ⟨_, hread, (artifact_is_shortest hread).1, by cbv, (artifact_is_shortest hread).2⟩

end Code

end Whitespace
