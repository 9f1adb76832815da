import Whitespace.Proofs.Reading

/-!
Reading character by character. The bytes fall into segments of one to four bytes, and a byte that
continues nothing starts a new one, so reading finds its way back after whatever came before. A text
in UTF-8 is read as its characters, and nothing but the encoding of a character is read as it.
-/
namespace Whitespace.Utf8

/-- The longest front of at most `n` continuation bytes. -/
structure Continuation (n : Nat) (taken rest : List UInt8) : Prop where
  length_le : taken.length ≤ n
  continues : ∀ b ∈ taken, isContinuation b = true
  stops : taken.length = n ∨ ∀ b ∈ rest.head?, isContinuation b = false

/-- The first segment before the rest, with the character that it encodes: a byte that cannot lead,
or a leading byte and its continuation. -/
inductive Segment : List UInt8 → Option Char → List UInt8 → Prop where
  | stray {lead rest} (h : continuations? lead = none) : Segment [lead] none rest
  | led {lead n taken rest} (h : continuations? lead = some n)
      (hrun : Continuation n taken rest) : Segment (lead :: taken) (decode? (lead :: taken)) rest

variable {bytes taken rest more : List UInt8} {lead : UInt8} {n : Nat} {c : Char}
  {found : Option Char}

theorem splitContinuations_spec (n : Nat) (bytes : List UInt8) :
    bytes = (splitContinuations n bytes).1 ++ (splitContinuations n bytes).2 ∧
      Continuation n (splitContinuations n bytes).1 (splitContinuations n bytes).2 := by
  fun_induction splitContinuations n bytes with
  | case1 n b bytes hb taken rest heq ih =>
    rw [heq] at ih
    obtain ⟨rfl, hrun⟩ := ih
    exact ⟨rfl, Nat.succ_le_succ hrun.length_le, List.forall_mem_cons.mpr ⟨hb, hrun.continues⟩,
      hrun.stops.imp_left fun h => congrArg (· + 1) h⟩
  | case2 n b bytes hb =>
    exact ⟨rfl, Nat.zero_le _, fun _ h => absurd h List.not_mem_nil, .inr (by simpa using hb)⟩
  | case3 n bytes h =>
    refine ⟨rfl, Nat.zero_le _, fun _ h => absurd h List.not_mem_nil, ?_⟩
    -- Either no more bytes are asked for or there are none.
    cases n with
    | zero => exact .inl rfl
    | succ n =>
      cases bytes with
      | nil => exact .inr (by simp)
      | cons b bytes => exact absurd rfl (h n b bytes rfl)

theorem Continuation.splitContinuations_append (h : Continuation n taken rest) :
    splitContinuations n (taken ++ rest) = (taken, rest) := by
  induction taken generalizing n with
  | nil =>
    cases n with
    | zero => rfl
    | succ n =>
      cases rest with
      | nil => rfl
      | cons b rest =>
        have hb : isContinuation b = false :=
          (h.stops.resolve_left (Nat.succ_ne_zero n).symm) b rfl
        simp [splitContinuations, hb]
  | cons b taken ih =>
    obtain ⟨hb, htaken⟩ := List.forall_mem_cons.mp h.continues
    cases n with
    | zero => exact absurd h.length_le (by simp)
    | succ n =>
      have hrest := ih ⟨Nat.le_of_succ_le_succ h.length_le, htaken, by simpa using h.stops⟩
      rw [List.cons_append, splitContinuations, if_pos hb, hrest]

/-- More bytes after the rest change nothing unless they continue the segment. -/
theorem Continuation.append (h : Continuation n taken rest)
    (hmore : ∀ b ∈ more.head?, isContinuation b = false) : Continuation n taken (rest ++ more) where
  length_le := h.length_le
  continues := h.continues
  stops := by
    refine h.stops.imp_right fun hrest => ?_
    cases rest with
    | nil => exact hmore
    | cons b rest => exact hrest

theorem Segment.readChar_append (h : Segment taken found rest) :
    readChar (taken ++ rest) = some (found.getD replacement, rest) := by
  cases h with
  | stray h => exact readChar_of_stray h rest
  | led h hrun => rw [List.cons_append, readChar_of_lead h, hrun.splitContinuations_append]

theorem exists_segment (h : readChar bytes = some (c, rest)) :
    ∃ taken found, bytes = taken ++ rest ∧ Segment taken found rest ∧
      c = found.getD replacement := by
  cases bytes with
  | nil => cases h
  | cons lead bytes =>
    cases hlead : continuations? lead with
    | none =>
      rw [readChar_of_stray hlead] at h
      cases h
      exact ⟨[lead], none, rfl, .stray hlead, rfl⟩
    | some n =>
      rw [readChar_of_lead hlead] at h
      cases h
      obtain ⟨hbytes, hrun⟩ := splitContinuations_spec n bytes
      exact ⟨_, _, congrArg (lead :: ·) hbytes, .led hlead hrun, rfl⟩

theorem Segment.append (h : Segment taken found rest)
    (hmore : ∀ b ∈ more.head?, isContinuation b = false) : Segment taken found (rest ++ more) := by
  cases h with
  | stray h => exact .stray h
  | led h hrun => exact .led h (hrun.append hmore)

theorem continuations?_eq_some_iff : continuations? lead = some n ↔
    lead.toNat < 0x80 ∧ n = 0 ∨ 0xC0 ≤ lead.toNat ∧ lead.toNat < 0xE0 ∧ n = 1 ∨
      0xE0 ≤ lead.toNat ∧ lead.toNat < 0xF0 ∧ n = 2 ∨
      0xF0 ≤ lead.toNat ∧ lead.toNat < 0xF8 ∧ n = 3 := by
  simp only [continuations?, UInt8.lt_iff_toNat_lt, UInt8.reduceToNat]
  split_ifs <;> simp <;> omega

theorem isContinuation_iff {b : UInt8} :
    isContinuation b = true ↔ 0x80 ≤ b.toNat ∧ b.toNat < 0xC0 := by
  simp only [isContinuation, Bool.and_eq_true, decide_eq_true_eq, UInt8.le_iff_toNat_le,
    UInt8.lt_iff_toNat_lt, UInt8.reduceToNat]

theorem Segment.length (h : Segment taken found rest) :
    1 ≤ taken.length ∧ taken.length ≤ 4 := by
  cases h with
  | stray h => exact ⟨Nat.le_refl 1, Nat.le_add_left 1 3⟩
  | led h hrun =>
    have hn := continuations?_eq_some_iff.mp h
    have hle := hrun.length_le
    rw [List.length_cons]
    omega

theorem length_of_readChar (h : readChar bytes = some (c, rest)) : rest.length < bytes.length := by
  obtain ⟨taken, found, rfl, hsegment, -⟩ := exists_segment h
  have hlength := hsegment.length.1
  rw [List.length_append]
  omega

/-- The characters that are read until there is nothing left. -/
def chars (bytes : List UInt8) : List Char :=
  match _h : readChar bytes with
  | none => []
  | some (c, rest) => c :: chars rest
termination_by bytes.length
decreasing_by exact length_of_readChar _h

theorem chars_nil : chars [] = [] := by
  rw [chars]
  rfl

theorem chars_of_readChar (h : readChar bytes = some (c, rest)) :
    chars bytes = c :: chars rest := by
  rw [chars]
  split
  · next hnone =>
    rw [h] at hnone
    cases hnone
  · next hsome =>
    rw [h] at hsome
    cases hsome
    rfl

theorem scalar?_toNat (c : Char) : scalar? c.toNat = some c := by
  have hvalid : c.toNat.isValidChar := c.valid
  rw [scalar?, dif_pos hvalid]
  rfl

theorem toNat_of_scalar? (h : scalar? n = some c) : c.toNat = n := by
  unfold scalar? at h
  split at h
  · next hn =>
    cases h
    rfl
  · cases h

/-- The table of UTF-8: the bits of a character's number, six in each continuation byte. -/
inductive Encodes (c : Char) : List UInt8 → Prop where
  | one {a : UInt8} (hc : c.toNat < 0x80) (ha : a.toNat = c.toNat) : Encodes c [a]
  | two {a b : UInt8} (hlow : 0x80 ≤ c.toNat) (hhigh : c.toNat < 0x800)
      (ha : a.toNat = 0xC0 + c.toNat / 64) (hb : b.toNat = 0x80 + c.toNat % 64) : Encodes c [a, b]
  | three {a b d : UInt8} (hlow : 0x800 ≤ c.toNat) (hhigh : c.toNat < 0x10000)
      (ha : a.toNat = 0xE0 + c.toNat / 4096) (hb : b.toNat = 0x80 + c.toNat / 64 % 64)
      (hd : d.toNat = 0x80 + c.toNat % 64) : Encodes c [a, b, d]
  | four {a b d e : UInt8} (hlow : 0x10000 ≤ c.toNat) (hhigh : c.toNat < 0x110000)
      (ha : a.toNat = 0xF0 + c.toNat / 262144) (hb : b.toNat = 0x80 + c.toNat / 4096 % 64)
      (hd : d.toNat = 0x80 + c.toNat / 64 % 64) (he : e.toNat = 0x80 + c.toNat % 64) :
      Encodes c [a, b, d, e]

theorem toNat_lt (c : Char) : c.toNat < 0x110000 := by
  have hvalid : c.toNat.isValidChar := c.valid
  unfold Nat.isValidChar at hvalid
  omega

theorem toNat_byte (h : n < 256) : n.toUInt8.toNat = n := UInt8.toNat_ofNat_of_lt' h

theorem encodes_encode (c : Char) : Encodes c (encode c) := by
  have hlt := toNat_lt c
  rw [encode]
  split_ifs with h1 h2 h3
  · exact .one h1 (toNat_byte (by omega))
  · exact .two (by omega) h2 (toNat_byte (by omega)) (toNat_byte (by omega))
  · exact .three (by omega) h3 (toNat_byte (by omega)) (toNat_byte (by omega))
      (toNat_byte (by omega))
  · exact .four (by omega) hlt (toNat_byte (by omega)) (toNat_byte (by omega))
      (toNat_byte (by omega)) (toNat_byte (by omega))

theorem Encodes.eq_encode (h : Encodes c bytes) : bytes = encode c := by
  cases h with
  | one hc ha =>
    rw [encode, if_pos hc, ← ha]
    simp
  | two hlow hhigh ha hb =>
    simp only [encode, if_neg (Nat.not_lt.mpr hlow), if_pos hhigh, ← ha, ← hb]
    simp
  | three hlow hhigh ha hb hd =>
    have h1 : ¬ c.toNat < 0x80 := by omega
    simp only [encode, if_neg h1, if_neg (Nat.not_lt.mpr hlow), if_pos hhigh, ← ha, ← hb, ← hd]
    simp
  | four hlow hhigh ha hb hd he =>
    have h1 : ¬ c.toNat < 0x80 := by omega
    have h2 : ¬ c.toNat < 0x800 := by omega
    simp only [encode, if_neg h1, if_neg h2, if_neg (Nat.not_lt.mpr hlow), ← ha, ← hb, ← hd, ← he]
    simp

theorem utf8EncodeChar_eq (c : Char) : String.utf8EncodeChar c = encode c := by
  have hlt := toNat_lt c
  have hval : c.val.toNat = c.toNat := rfl
  apply Encodes.eq_encode
  rw [String.utf8EncodeChar, hval]
  split_ifs with h1 h2 h3
  · exact .one (by omega) (toNat_byte (by omega))
  · refine .two (by omega) (by omega) ((toNat_byte (by omega)).trans ?_)
      ((toNat_byte (by omega)).trans ?_)
    all_goals omega
  · refine .three (by omega) (by omega) ((toNat_byte (by omega)).trans ?_)
      ((toNat_byte (by omega)).trans ?_) ((toNat_byte (by omega)).trans ?_)
    all_goals omega
  · refine .four (by omega) hlt ((toNat_byte (by omega)).trans ?_)
      ((toNat_byte (by omega)).trans ?_) ((toNat_byte (by omega)).trans ?_)
      ((toNat_byte (by omega)).trans ?_)
    all_goals omega

theorem Encodes.decode?_eq (h : Encodes c bytes) : decode? bytes = some c := by
  cases h with
  | one hc ha =>
    simp only [decode?, ha, scalar?_toNat, UInt8.lt_iff_toNat_lt, UInt8.reduceToNat]
    rw [if_pos hc]
  | two hlow hhigh ha hb =>
    have hvalue : (0xC0 + c.toNat / 64 - 0xC0) * 64 + (0x80 + c.toNat % 64 - 0x80) = c.toNat := by
      omega
    simp only [decode?, ha, hb, hvalue, scalar?_toNat, UInt8.lt_iff_toNat_lt, UInt8.reduceToNat]
    rw [if_pos (by omega)]
  | three hlow hhigh ha hb hd =>
    have hvalue : (0xE0 + c.toNat / 4096 - 0xE0) * 4096 + (0x80 + c.toNat / 64 % 64 - 0x80) * 64 +
        (0x80 + c.toNat % 64 - 0x80) = c.toNat := by
      omega
    simp only [decode?, ha, hb, hd, hvalue, scalar?_toNat, UInt8.lt_iff_toNat_lt,
      UInt8.reduceToNat]
    rw [if_pos (by omega)]
  | four hlow hhigh ha hb hd he =>
    have hvalue : (0xF0 + c.toNat / 262144 - 0xF0) * 262144 +
        (0x80 + c.toNat / 4096 % 64 - 0x80) * 4096 + (0x80 + c.toNat / 64 % 64 - 0x80) * 64 +
        (0x80 + c.toNat % 64 - 0x80) = c.toNat := by
      omega
    simp only [decode?, ha, hb, hd, he, hvalue, scalar?_toNat]
    rw [if_pos hlow]

theorem isContinuation_of_toNat {b : UInt8} (h : b.toNat = 0x80 + n % 64) :
    isContinuation b = true :=
  isContinuation_iff.mpr (by omega)

/-- A leading byte that is followed by all that it asks for. -/
theorem segment_of_complete (h : continuations? lead = some taken.length)
    (hall : ∀ b ∈ taken, isContinuation b = true) (rest : List UInt8) :
    Segment (lead :: taken) (decode? (lead :: taken)) rest :=
  .led h ⟨Nat.le_refl _, hall, .inl rfl⟩

theorem Encodes.segment (h : Encodes c taken) (rest : List UInt8) :
    Segment taken (some c) rest := by
  rw [← h.decode?_eq]
  cases h with
  | one hc ha =>
    exact segment_of_complete (continuations?_eq_some_iff.mpr (.inl ⟨by omega, rfl⟩)) (by simp) rest
  | two hlow hhigh ha hb =>
    refine segment_of_complete (continuations?_eq_some_iff.mpr ?_) ?_ rest
    · exact .inr (.inl ⟨by omega, by omega, rfl⟩)
    · simp [isContinuation_of_toNat hb]
  | three hlow hhigh ha hb hd =>
    refine segment_of_complete (continuations?_eq_some_iff.mpr ?_) ?_ rest
    · exact .inr (.inr (.inl ⟨by omega, by omega, rfl⟩))
    · simp [isContinuation_of_toNat hb, isContinuation_of_toNat hd]
  | four hlow hhigh ha hb hd he =>
    refine segment_of_complete (continuations?_eq_some_iff.mpr ?_) ?_ rest
    · exact .inr (.inr (.inr ⟨by omega, by omega, rfl⟩))
    · simp [isContinuation_of_toNat hb, isContinuation_of_toNat hd, isContinuation_of_toNat he]

theorem toNat_of_guarded {p : Prop} [Decidable p] (h : (if p then scalar? n else none) = some c) :
    p ∧ c.toNat = n := by
  split at h
  · next hp => exact ⟨hp, toNat_of_scalar? h⟩
  · cases h

/-- The encoding itself: a leading byte that asks for more is turned down, and so is a number that
fewer bytes have room for. -/
theorem Segment.encodes (h : Segment taken (some c) rest) : Encodes c taken := by
  generalize hfound : some c = found at h
  cases h with
  | stray h => cases hfound
  | @led lead n taken rest h hrun =>
    have hlead := continuations?_eq_some_iff.mp h
    have hlength := hrun.length_le
    have hall := hrun.continues
    have hlt := toNat_lt c
    -- By the number of continuation bytes, of which the leading byte asks for no fewer. That it
    -- asks for no more is what `decode?` checks.
    rcases taken with _ | ⟨b, _ | ⟨d, _ | ⟨e, _ | ⟨f, taken⟩⟩⟩⟩
    · rw [decode?] at hfound
      obtain ⟨hsmall, hvalue⟩ := toNat_of_guarded hfound.symm
      exact .one (hvalue ▸ UInt8.lt_iff_toNat_lt.mp hsmall) hvalue.symm
    · rw [decode?] at hfound
      obtain ⟨⟨hsmall, hlow⟩, hvalue⟩ := toNat_of_guarded hfound.symm
      replace hsmall : lead.toNat < 0xE0 := UInt8.lt_iff_toNat_lt.mp hsmall
      simp only [List.forall_mem_cons, isContinuation_iff] at hall
      simp only [List.length_cons, List.length_nil] at hlength
      exact .two (by omega) (by omega) (by omega) (by omega)
    · rw [decode?] at hfound
      obtain ⟨⟨hsmall, hlow⟩, hvalue⟩ := toNat_of_guarded hfound.symm
      replace hsmall : lead.toNat < 0xF0 := UInt8.lt_iff_toNat_lt.mp hsmall
      simp only [List.forall_mem_cons, isContinuation_iff] at hall
      simp only [List.length_cons, List.length_nil] at hlength
      exact .three (by omega) (by omega) (by omega) (by omega) (by omega)
    · rw [decode?] at hfound
      obtain ⟨hlow, hvalue⟩ := toNat_of_guarded hfound.symm
      simp only [List.forall_mem_cons, isContinuation_iff] at hall
      simp only [List.length_cons, List.length_nil] at hlength
      exact .four (by omega) hlt (by omega) (by omega) (by omega) (by omega)
    · cases hfound

theorem readChar_eq_none_iff : readChar bytes = none ↔ bytes = [] := by
  constructor
  · intro h
    by_contra hne
    obtain ⟨ch, rest, hread, -, -⟩ := exists_readChar hne
    rw [hread] at h
    cases h
  · rintro rfl
    rfl

/-- Calls one after the other until there is nothing left: the character that each of them reads,
and the bytes that it takes. -/
inductive Calls : List UInt8 → List (Char × List UInt8) → Prop where
  | done {bytes : List UInt8} (h : readChar bytes = none) : Calls bytes []
  | next {c : Char} {taken rest : List UInt8} {calls : List (Char × List UInt8)}
      (h : readChar (taken ++ rest) = some (c, rest)) (hrest : Calls rest calls) :
      Calls (taken ++ rest) ((c, taken) :: calls)

/-- The calls end, and each of them takes one to four bytes. -/
theorem exists_calls (bytes : List UInt8) : ∃ calls, Calls bytes calls ∧
    calls.map Prod.fst = chars bytes ∧ ∀ call ∈ calls, 1 ≤ call.2.length ∧ call.2.length ≤ 4 := by
  fun_induction chars bytes with
  | case1 bytes h => exact ⟨[], .done h, rfl, by simp⟩
  | case2 bytes c rest h ih =>
    obtain ⟨calls, hcalls, hchars, hall⟩ := ih
    obtain ⟨taken, found, rfl, hsegment, rfl⟩ := exists_segment h
    exact ⟨_, .next h hcalls, congrArg _ hchars, List.forall_mem_cons.mpr ⟨hsegment.length, hall⟩⟩

theorem chars_append (bytes : List UInt8)
    (hmore : ∀ b ∈ more.head?, isContinuation b = false) :
    chars (bytes ++ more) = chars bytes ++ chars more := by
  fun_induction chars bytes with
  | case1 bytes h =>
    rw [readChar_eq_none_iff.mp h, List.nil_append, List.nil_append]
  | case2 bytes c rest h ih =>
    obtain ⟨taken, found, rfl, hsegment, rfl⟩ := exists_segment h
    have hread := (hsegment.append hmore).readChar_append
    rw [List.append_assoc, chars_of_readChar hread, ih, List.cons_append]

theorem chars_encodeAll (cs : List Char) : chars (encodeAll cs) = cs := by
  induction cs with
  | nil => exact chars_nil
  | cons c cs ih =>
    have hread := ((encodes_encode c).segment (encodeAll cs)).readChar_append
    exact (chars_of_readChar hread).trans (congrArg (c :: ·) ih)

theorem eq_encode_append (h : readChar bytes = some (c, rest)) (hc : c ≠ replacement) :
    bytes = encode c ++ rest := by
  obtain ⟨taken, found, rfl, hsegment, hfound⟩ := exists_segment h
  cases found with
  | none => exact absurd hfound hc
  | some c' =>
    cases hfound
    exact congrArg (· ++ rest) hsegment.encodes.eq_encode

/-- Reading character by character ends, with one to four bytes for each. A byte that continues
nothing is where reading could as well have started. A text in UTF-8 is read as its characters, and
any character but the replacement character is read from its own encoding only. -/
theorem chars_segment_input :
    (∀ bytes, ∃ calls, Calls bytes calls ∧ calls.map Prod.fst = chars bytes ∧
      ∀ call ∈ calls, 1 ≤ call.2.length ∧ call.2.length ≤ 4) ∧
    (∀ bytes more, (∀ b ∈ more.head?, b < 0x80 ∨ 0xBF < b) →
      chars (bytes ++ more) = chars bytes ++ chars more) ∧
    (∀ cs : List Char, chars (cs.flatMap String.utf8EncodeChar) = cs) ∧
    ∀ bytes rest c, readChar bytes = some (c, rest) → c ≠ '\uFFFD' →
      bytes = String.utf8EncodeChar c ++ rest := by
  have hutf8 : String.utf8EncodeChar = encode := funext utf8EncodeChar_eq
  rw [hutf8]
  refine ⟨exists_calls, fun bytes more hmore => chars_append bytes fun b hb => ?_, chars_encodeAll,
    fun _ _ _ => eq_encode_append⟩
  have hout : b.toNat < 0x80 ∨ 0xBF < b.toNat :=
    (hmore b hb).imp UInt8.lt_iff_toNat_lt.mp UInt8.lt_iff_toNat_lt.mp
  rw [← Bool.not_eq_true, isContinuation_iff]
  omega

/-- Two of the three bytes of the euro sign, an overlong slash, a surrogate and a byte that leads
nothing. -/
def garbage : List UInt8 := [0xE2, 0x82, 0xC0, 0xAF, 0xED, 0xA0, 0x80, 0xFF]

theorem garbage_resynchronised :
    chars (garbage ++ ['a', '€'].flatMap String.utf8EncodeChar) =
      ['\uFFFD', '\uFFFD', '\uFFFD', '\uFFFD', 'a', '€'] := by
  obtain ⟨-, happend, hutf8, -⟩ := chars_segment_input
  have hgarbage : chars garbage = ['\uFFFD', '\uFFFD', '\uFFFD', '\uFFFD'] := by cbv
  have hfresh : ∀ b ∈ (['a', '€'].flatMap String.utf8EncodeChar).head?, b < 0x80 ∨ 0xBF < b := by
    rintro b ⟨⟩
    decide
  rw [happend garbage _ hfresh, hgarbage, hutf8]
  rfl

end Whitespace.Utf8
