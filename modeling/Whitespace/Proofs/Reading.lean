import Mathlib
import Whitespace.Machine.Data

/-!
What reading takes from the input. A character or a line is taken off the front, and all that is
seen of the rest is one byte: a character is complete when the next byte does not continue it, a
line when its linefeed has been read.
-/
namespace Whitespace

variable {c : UInt8} {q s bytes rest : List UInt8}

namespace Utf8

theorem splitContinuations_suffix (n : Nat) (bytes : List UInt8) :
    (splitContinuations n bytes).2 <:+ bytes := by
  fun_induction splitContinuations n bytes with
  | case1 n b bytes _ taken rest heq ih =>
    rw [heq] at ih
    exact ih.trans (List.suffix_cons b bytes)
  | case2 => exact List.suffix_refl _
  | case3 => exact List.suffix_refl _

theorem readChar_of_stray {lead : UInt8} (h : continuations? lead = none) (bytes : List UInt8) :
    readChar (lead :: bytes) = some (replacement, bytes) := by
  simp [readChar, segment?, h]

theorem readChar_of_lead {lead : UInt8} {n : Nat} (h : continuations? lead = some n)
    (bytes : List UInt8) :
    readChar (lead :: bytes) =
      some ((decode? (lead :: (splitContinuations n bytes).1)).getD replacement,
        (splitContinuations n bytes).2) := by
  simp [readChar, segment?, h]

/-- Where there is input, a character is read, and something is consumed. -/
theorem exists_readChar (h : bytes ≠ []) :
    ∃ ch rest, readChar bytes = some (ch, rest) ∧ rest <:+ bytes ∧ rest.length < bytes.length := by
  cases bytes with
  | nil => exact absurd rfl h
  | cons lead bytes =>
    have hsuffix : ∀ {rest}, rest <:+ bytes →
        rest <:+ lead :: bytes ∧ rest.length < (lead :: bytes).length := by
      intro rest hrest
      exact ⟨hrest.trans (List.suffix_cons lead bytes), Nat.lt_succ_of_le hrest.length_le⟩
    cases hn : continuations? lead with
    | none => exact ⟨_, _, readChar_of_stray hn bytes, hsuffix (List.suffix_refl bytes)⟩
    | some n => exact ⟨_, _, readChar_of_lead hn bytes, hsuffix (splitContinuations_suffix n bytes)⟩

/-- As long as the byte `c` is left, what comes after it has not been looked at. -/
theorem splitContinuations_swap {n : Nat}
    (h : s.length < (splitContinuations n (q ++ c :: s)).2.length) (s' : List UInt8) :
    ∃ taken q', splitContinuations n (q ++ c :: s) = (taken, q' ++ c :: s) ∧
      splitContinuations n (q ++ c :: s') = (taken, q' ++ c :: s') := by
  induction q generalizing n with
  | nil =>
    cases n with
    | zero => exact ⟨[], [], rfl, rfl⟩
    | succ n =>
      by_cases hc : isContinuation c = true
      · have hrest := (splitContinuations_suffix n s).length_le
        simp only [List.nil_append, splitContinuations, hc, if_true] at h
        omega
      · refine ⟨[], [], ?_, ?_⟩ <;> simp [splitContinuations, hc]
  | cons b q ih =>
    cases n with
    | zero => exact ⟨[], b :: q, rfl, rfl⟩
    | succ n =>
      by_cases hb : isContinuation b = true
      · simp only [List.cons_append, splitContinuations, hb, if_true] at h ⊢
        obtain ⟨taken, q', hs, hs'⟩ := ih h
        exact ⟨b :: taken, q', by rw [hs], by rw [hs']⟩
      · refine ⟨[], b :: q, ?_, ?_⟩ <;> simp [splitContinuations, hb]

theorem readChar_swap {ch : Char} (h : readChar (q ++ c :: s) = some (ch, rest))
    (hleft : s.length < rest.length) (s' : List UInt8) :
    ∃ q', rest = q' ++ c :: s ∧ readChar (q ++ c :: s') = some (ch, q' ++ c :: s') := by
  cases q with
  | nil =>
    -- the byte `c` itself would have been read
    obtain ⟨ch', rest', hread, -, hlt⟩ := exists_readChar (List.cons_ne_nil c s)
    rw [List.nil_append, hread] at h
    cases h
    rw [List.length_cons] at hlt
    omega
  | cons lead q =>
    rw [List.cons_append] at h ⊢
    cases hn : continuations? lead with
    | none =>
      rw [readChar_of_stray hn] at h ⊢
      cases h
      exact ⟨q, rfl, rfl⟩
    | some n =>
      rw [readChar_of_lead hn] at h ⊢
      cases h
      obtain ⟨taken, q', hs, hs'⟩ := splitContinuations_swap hleft s'
      rw [hs, hs']
      exact ⟨q', rfl, rfl⟩

end Utf8

namespace Data

/-- The bytes of the first line, without its linefeed. -/
def line (input : List UInt8) : List UInt8 := input.takeWhile (· != Byte.lf)

def afterLine (input : List UInt8) : List UInt8 := (input.dropWhile (· != Byte.lf)).drop 1

theorem afterLine_suffix (input : List UInt8) : afterLine input <:+ input :=
  (List.drop_suffix 1 _).trans (List.dropWhile_suffix _)

theorem afterLine_linefeed (bytes : List UInt8) : afterLine (Byte.lf :: bytes) = bytes := rfl

theorem line_cons {b : UInt8} (h : b ≠ Byte.lf) (bytes : List UInt8) :
    line (b :: bytes) = b :: line bytes := by
  simp [line, h]

theorem afterLine_cons {b : UInt8} (h : b ≠ Byte.lf) (bytes : List UInt8) :
    afterLine (b :: bytes) = afterLine bytes := by
  simp [afterLine, h]

theorem length_afterLine_cons (b : UInt8) (bytes : List UInt8) :
    (afterLine (b :: bytes)).length ≤ bytes.length := by
  by_cases hb : b = Byte.lf
  · rw [hb, afterLine_linefeed]
  · rw [afterLine_cons hb]
    exact (afterLine_suffix bytes).length_le

/-- A line that ends before the byte `c` depends neither on that byte nor on what comes after. -/
theorem line_swap (h : s.length < (afterLine (q ++ c :: s)).length) :
    ∃ q', ∀ tail, line (q ++ tail) = line q ∧ afterLine (q ++ tail) = q' ++ tail := by
  induction q with
  | nil =>
    have hrest := length_afterLine_cons c s
    rw [List.nil_append] at h
    omega
  | cons b q ih =>
    by_cases hb : b = Byte.lf
    · subst hb
      exact ⟨q, fun tail => ⟨rfl, rfl⟩⟩
    · rw [List.cons_append, afterLine_cons hb] at h
      obtain ⟨q', hq'⟩ := ih h
      refine ⟨q', fun tail => ?_⟩
      rw [List.cons_append, line_cons hb, line_cons hb, afterLine_cons hb, (hq' tail).1]
      exact ⟨rfl, (hq' tail).2⟩

/-- Stores the number on a line that has been read. -/
def storeLine (d : Data) (address : Word) (line : List UInt8) : DataStep :=
  match Utf8.decodeAll? line with
  | none => .fault .inputNotText d
  | some cs =>
    match Word.ofText? (Text.trim cs) with
    | none => .fault (.invalidNumber (Text.trim cs)) d
    | some value => .done (d.set address value)

variable {d : Data}

theorem readNumber_of_nil (h : d.input = []) (address : Word) :
    d.readNumber address = .fault .unexpectedEndOfInput d := by
  rw [readNumber, h]
  rfl

theorem readNumber_of_ne_nil (h : d.input ≠ []) (address : Word) :
    d.readNumber address =
      storeLine { d with input := afterLine d.input } address (line d.input) := by
  rw [readNumber, if_neg (by simpa using h)]
  rfl

theorem readChar_of_nil (h : d.input = []) (address : Word) :
    d.readChar address = .done (d.set address (-1)) := by
  rw [readChar, h]
  rfl

theorem readChar_of_some {ch : Char} (h : Utf8.readChar d.input = some (ch, rest))
    (address : Word) :
    d.readChar address = .done ({ d with input := rest }.set address (Int32.ofNat ch.toNat)) := by
  rw [readChar, h]

end Data

end Whitespace
