import Whitespace.Proofs.Characters
import Whitespace.Proofs.Consumption
import Whitespace.Proofs.Listing
import Whitespace.Proofs.Reuse

/-!
What is written can be read back. A word that is written as a character is read as its low 16 bits,
unless these are half of a surrogate pair, and one that is written as a number, on a line of its
own, is read as itself. Each read takes exactly its item off the input, and behind the last item
there is nothing to read.
-/
namespace Whitespace

namespace Word

/-- What is written for a word as a number. -/
def numberBytes (w : Word) : List UInt8 := Utf8.encodeAll w.text

end Word

namespace Data

variable {d : Data} {rest : Stack Word} {w : Word}

end Data

namespace Machine

end Machine

/-! Characters. -/

namespace Utf8

theorem Segment.segment?_append {taken rest : List UInt8} {found : Option Char}
    (h : Segment taken found rest) : segment? (taken ++ rest) = some (found, rest) := by
  cases h with
  | stray h => simp [segment?, h]
  | led h hrun => simp [segment?, h, hrun.splitContinuations_append]

theorem decodeFrom?_encodeAll (read cs : List Char) :
    decodeFrom? read (encodeAll cs) = some (read.reverse ++ cs) := by
  induction cs generalizing read with
  | nil =>
    unfold decodeFrom?
    rw [List.append_nil]
    rfl
  | cons c cs ih =>
    have hfirst : segment? (encodeAll (c :: cs)) = some (some c, encodeAll cs) :=
      ((encodes_encode c).segment (encodeAll cs)).segment?_append
    rw [decodeFrom?]
    split
    · next hnone =>
      rw [hfirst] at hnone
      cases hnone
    · next hbad =>
      rw [hfirst] at hbad
      cases hbad
    · next hsome =>
      rw [hfirst] at hsome
      cases hsome
      rw [ih, List.reverse_cons, List.append_assoc]
      rfl

theorem decodeAll?_encodeAll (cs : List Char) : decodeAll? (encodeAll cs) = some cs :=
  decodeFrom?_encodeAll [] cs

theorem encodeAll_append (cs ds : List Char) :
    encodeAll (cs ++ ds) = encodeAll cs ++ encodeAll ds :=
  List.flatMap_append

end Utf8

namespace Text

/-- What may stand around a number on its line. -/
def isGap (c : Char) : Bool := c == ' ' || c == '\t' || c == '\r'

theorem isBlank_of_isGap {c : Char} (h : isGap c = true) : isBlank c = true := by
  simp only [isGap, Bool.or_eq_true, beq_iff_eq, or_assoc] at h
  rcases h with rfl | rfl | rfl <;> rfl

theorem newline_notMem_gap {gap : List Char} (h : ∀ c ∈ gap, isGap c = true) : '\n' ∉ gap :=
  fun hc => absurd (h _ hc) (by decide)

theorem dropWhile_isBlank_append {gap cs : List Char} (hgap : ∀ c ∈ gap, isGap c = true) :
    (gap ++ cs).dropWhile isBlank = cs.dropWhile isBlank :=
  List.dropWhile_append_of_pos fun c hc => isBlank_of_isGap (hgap c hc)

theorem IsWord.dropWhile_append {w : List Char} (hw : IsWord w) (cs : List Char) :
    (w ++ cs).dropWhile isBlank = w ++ cs := by
  obtain ⟨c, w, rfl⟩ := List.exists_cons_of_ne_nil hw.1
  have hc := hw.isBlank_eq_false c List.mem_cons_self
  rw [List.cons_append, List.dropWhile_cons_of_neg (by simp [hc])]

theorem IsWord.reverse {w : List Char} (hw : IsWord w) : IsWord w.reverse :=
  ⟨by simpa using hw.1, by simpa using hw.2⟩

theorem IsWord.trim_eq {before w after : List Char} (hw : IsWord w)
    (hbefore : ∀ c ∈ before, isGap c = true) (hafter : ∀ c ∈ after, isGap c = true) :
    trim (before ++ (w ++ after)) = w := by
  have hafter : ∀ c ∈ after.reverse, isGap c = true := by simpa using hafter
  have hend := hw.reverse.dropWhile_append []
  rw [List.append_nil] at hend
  rw [trim, dropWhile_isBlank_append hbefore, hw.dropWhile_append, List.reverse_append,
    dropWhile_isBlank_append hafter, hend, List.reverse_reverse]

end Text

/-- A line, without its linefeed, on which the word was written as a number. -/
inductive Word.Line (w : Word) : List UInt8 → Prop where
  | intro {before after : List Char} (hbefore : ∀ c ∈ before, Text.isGap c = true)
      (hafter : ∀ c ∈ after, Text.isGap c = true) :
      Line w (Utf8.encodeAll before ++ (w.numberBytes ++ Utf8.encodeAll after))

theorem Word.Line.exists_text {w : Word} {line : List UInt8} (h : w.Line line) :
    ∃ cs, line = Utf8.encodeAll cs ∧ Text.trim cs = w.text ∧ '\n' ∉ cs := by
  cases h with
  | @intro before after hbefore hafter =>
    refine ⟨before ++ (w.text ++ after), ?_, w.isWord_text.trim_eq hbefore hafter, ?_⟩
    · rw [Utf8.encodeAll_append, Utf8.encodeAll_append, numberBytes]
    · simp only [List.mem_append, not_or]
      exact ⟨Text.newline_notMem_gap hbefore, w.isWord_text.newline_notMem,
        Text.newline_notMem_gap hafter⟩

theorem Word.Line.ne_nil {w : Word} {line : List UInt8} (h : w.Line line) : line ≠ [] := by
  rintro rfl
  obtain ⟨cs, htext, htrim, -⟩ := h.exists_text
  have hdecode := Utf8.decodeAll?_encodeAll cs
  rw [← htext] at hdecode
  have hcs : [] = cs := Option.some.inj ((Utf8.decodeAll?_encodeAll []).symm.trans hdecode)
  subst hcs
  exact w.isWord_text.1 htrim.symm

namespace Data

variable {text tail : List UInt8}

end Data

/-- Numbers as they stand line by line, linefeeds included; the last line may do without. -/
inductive NumberLines : List Word → List (List UInt8) → Prop where
  | nil : NumberLines [] []
  | last {w : Word} {line : List UInt8} (h : w.Line line) : NumberLines [w] [line]
  | cons {w : Word} {line : List UInt8} {ws : List Word} {lines : List (List UInt8)}
      (h : w.Line line) (hrest : NumberLines ws lines) :
      NumberLines (w :: ws) ((line ++ [Byte.lf]) :: lines)

namespace NumberLines

variable {w : Word} {ws : List Word} {lines : List (List UInt8)}

theorem tail (h : NumberLines ws lines) : NumberLines ws.tail lines.tail := by
  cases h with
  | nil => exact .nil
  | last h => exact .nil
  | cons h hrest => exact hrest

theorem drop (h : NumberLines ws lines) (k : Nat) : NumberLines (ws.drop k) (lines.drop k) := by
  induction k with
  | zero => exact h
  | succ k ih =>
    rw [← List.tail_drop, ← List.tail_drop]
    exact ih.tail

end NumberLines

end Whitespace
