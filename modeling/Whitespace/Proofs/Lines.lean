import Mathlib
import Whitespace.Proofs.Number
import Whitespace.Text.Blank
import Whitespace.Text.Column

/-!
How a text falls into lines and a line into words, said without the functions that cut them. A line
ends at a linefeed, with or without a carriage return before it; words are what stands between
blanks. For the words of a line it makes no difference whether the carriage return is left on it. A
text that was put together from lines falls into these lines again.
-/
namespace Whitespace.Text

/-- The lines of a text: a linefeed ends a line, and so does a carriage return and a linefeed. -/
def endedLines : List Char → List (List Char)
  | [] => [[]]
  | '\n' :: cs => [] :: endedLines cs
  | '\r' :: '\n' :: cs => [] :: endedLines cs
  | c :: cs => (endedLines cs).modifyHead (c :: ·)

/-- A text with its words, and blanks between and around them. -/
inductive Spaced : List Char → List (List Char) → Prop where
  | blank {cs : List Char} (h : ∀ c ∈ cs, isBlank c = true) : Spaced cs []
  | word (gap : List Char) {w rest : List Char} {ws : List (List Char)}
      (hgap : ∀ c ∈ gap, isBlank c = true) (hne : w ≠ []) (hw : ∀ c ∈ w, isBlank c = false)
      (hend : ∀ c ∈ rest.head?, isBlank c = true) (hrest : Spaced rest ws) :
      Spaced (gap ++ (w ++ rest)) (w :: ws)

variable {gap w cs ds : List Char} {ws : List (List Char)} {c : Char}

theorem words_append_cons (h : isBlank c = true) (cs ds : List Char) :
    words (cs ++ c :: ds) = words cs ++ words ds := by
  rw [words, List.splitOnP_append_cons cs ds h, List.filter_append]
  rfl

theorem words_cons_blank (h : isBlank c = true) (cs : List Char) : words (c :: cs) = words cs :=
  words_append_cons h [] cs

theorem words_append_blank (h : isBlank c = true) (cs : List Char) :
    words (cs ++ [c]) = words cs :=
  (words_append_cons h cs []).trans (List.append_nil _)

theorem words_gap (h : ∀ c ∈ gap, isBlank c = true) (cs : List Char) :
    words (gap ++ cs) = words cs := by
  induction gap with
  | nil => rfl
  | cons c gap ih =>
    obtain ⟨hc, hgap⟩ := List.forall_mem_cons.mp h
    rw [List.cons_append, words_cons_blank hc, ih hgap]

theorem words_word (hne : w ≠ []) (h : ∀ c ∈ w, isBlank c = false) : words w = [w] := by
  rw [words, List.splitOnP_eq_singleton h]
  simp [hne]

theorem Spaced.words_eq (h : Spaced cs ws) : words cs = ws := by
  induction h with
  | @blank cs hblank =>
    have hgap := words_gap hblank []
    rw [List.append_nil] at hgap
    exact hgap
  | @word gap w rest ws hgap hne hw hend _ ih =>
    rw [words_gap hgap, ← ih]
    cases rest with
    | nil =>
      rw [List.append_nil, words_word hne hw]
      rfl
    | cons c rest =>
      have hc := hend c rfl
      rw [words_append_cons hc, words_word hne hw, words_cons_blank hc]
      rfl

/-- One character more belongs to the gap in front, to the first word, or is a word of its own. -/
theorem exists_spaced (cs : List Char) : ∃ ws, Spaced cs ws := by
  induction cs with
  | nil => exact ⟨[], .blank (List.forall_mem_nil _)⟩
  | cons c cs ih =>
    obtain ⟨ws, h⟩ := ih
    cases hc : isBlank c with
    | true =>
      cases h with
      | blank hblank => exact ⟨[], .blank (List.forall_mem_cons.mpr ⟨hc, hblank⟩)⟩
      | @word gap w rest ws hgap hne hw hend hrest =>
        exact ⟨_, .word (c :: gap) (List.forall_mem_cons.mpr ⟨hc, hgap⟩) hne hw hend hrest⟩
    | false =>
      have hsingle : ∀ d ∈ [c], isBlank d = false := List.forall_mem_singleton.mpr hc
      by_cases hend : ∀ d ∈ cs.head?, isBlank d = true
      · exact ⟨_, .word [] (List.forall_mem_nil _) (List.cons_ne_nil c []) hsingle hend h⟩
      · cases h with
        | blank hblank =>
          refine absurd (fun d hd => hblank d (List.mem_of_mem_head? hd)) hend
        | @word gap w rest ws hgap hne hw hend' hrest =>
          cases gap with
          | nil =>
            exact ⟨_, .word [] (List.forall_mem_nil _) (List.cons_ne_nil c w)
              (List.forall_mem_cons.mpr ⟨hc, hw⟩) hend' hrest⟩
          | cons d gap =>
            refine absurd (fun e he => ?_) hend
            cases he
            exact hgap d List.mem_cons_self

theorem words_eq_iff : words cs = ws ↔ Spaced cs ws := by
  constructor
  · rintro rfl
    obtain ⟨ws, h⟩ := exists_spaced cs
    rw [h.words_eq]
    exact h
  · exact Spaced.words_eq

/-- The same line, or the same with a carriage return at its end. -/
def SameLine (line ended : List Char) : Prop := line = ended ∨ line = ended ++ ['\r']

theorem lines_linefeed (cs : List Char) : lines ('\n' :: cs) = [] :: lines cs := by
  rw [lines, List.splitOn_cons_eq_if_modifyHead]
  rfl

theorem lines_cons (h : c ≠ '\n') (cs : List Char) :
    lines (c :: cs) = (lines cs).modifyHead (c :: ·) := by
  rw [lines, List.splitOn_cons_eq_if_modifyHead, if_neg (by simpa using h)]
  rfl

theorem sameLine_lines (cs : List Char) : List.Forall₂ SameLine (lines cs) (endedLines cs) := by
  fun_induction endedLines cs with
  | case1 => exact .cons (.inl rfl) .nil
  | case2 cs ih =>
    rw [lines_linefeed]
    exact .cons (.inl rfl) ih
  | case3 cs ih =>
    rw [lines_cons (by decide), lines_linefeed]
    exact .cons (.inr rfl) ih
  | case4 c cs hlf hcrlf ih =>
    rw [lines_cons hlf]
    generalize lines cs = rest at ih
    generalize endedLines cs = ended at ih
    cases ih with
    | nil => exact .nil
    | cons hline hlines => exact .cons (hline.imp (congrArg (c :: ·)) (congrArg (c :: ·))) hlines

/-- No linefeed stands in the text. -/
def OneLine (text : String) : Prop := '\n' ∉ text.toList

instance (text : String) : Decidable (OneLine text) :=
  inferInstanceAs (Decidable ('\n' ∉ text.toList))

theorem OneLine.append {s t : String} (hs : OneLine s) (ht : OneLine t) : OneLine (s ++ t) := by
  rw [OneLine, String.toList_append, List.mem_append]
  exact fun h => h.elim hs ht

/-- Lines that are each ended by a linefeed. -/
def ofLines (texts : List String) : String := String.join (texts.map (· ++ "\n"))

theorem lines_ofLines {texts : List String} (h : ∀ text ∈ texts, OneLine text) :
    lines (ofLines texts).toList = texts.map String.toList ++ [[]] := by
  rw [ofLines, String.toList_join]
  induction texts with
  | nil => rfl
  | cons text texts ih =>
    obtain ⟨htext, htexts⟩ := List.forall_mem_cons.mp h
    have hline : (text ++ "\n").toList = text.toList ++ ['\n'] := String.toList_append
    rw [List.map_cons, List.flatMap_cons, hline, List.append_assoc, List.singleton_append, lines,
      List.splitOn_append_cons_self_of_not_mem htext]
    exact congrArg _ (ih htexts)

theorem ofLines_flatten (blocks : List (List String)) :
    ofLines blocks.flatten = String.join (blocks.map ofLines) := by
  induction blocks with
  | nil => rfl
  | cons block blocks ih =>
    rw [List.flatten_cons, List.map_cons, String.join_cons, ← ih, ofLines, List.map_append,
      String.join_append]
    rfl

theorem oneLine_ofInt (i : Int) : OneLine (String.ofList (Decimal.ofInt i)) := by
  have hdigits : '\n' ∉ Decimal.ofNat i.natAbs :=
    fun h => absurd (Decimal.isDigit_of_mem_ofNat h) (by decide)
  rw [OneLine, String.toList_ofList, Decimal.ofInt]
  split
  · exact List.not_mem_cons_of_ne_of_not_mem (by decide) hdigits
  · exact hdigits

theorem oneLine_toString (n : Nat) : OneLine (toString n) := by
  have hdigits : (toString n).toList = Decimal.ofNat n := Nat.toList_repr
  rw [OneLine, hdigits]
  exact fun h => absurd (Decimal.isDigit_of_mem_ofNat h) (by decide)

theorem oneLine_address (n : Nat) : OneLine (Column.address n) := by
  rw [OneLine, Column.address, String.toList_ofList, List.leftpad, List.mem_append]
  rintro (h | h)
  · exact absurd (List.eq_of_mem_replicate h) (by decide)
  · exact oneLine_toString n h

theorem OneLine.intercalate {gap : String} {texts : List String} (hgap : OneLine gap)
    (h : ∀ text ∈ texts, OneLine text) : OneLine (gap.intercalate texts) := by
  induction texts with
  | nil => exact List.not_mem_nil
  | cons text texts ih =>
    obtain ⟨htext, htexts⟩ := List.forall_mem_cons.mp h
    cases texts with
    | nil => exact htext
    | cons next texts =>
      rw [String.intercalate_cons_cons]
      exact (htext.append hgap).append (ih htexts)

theorem OneLine.left {text : String} (h : OneLine text) (width : Nat) :
    OneLine (Column.left width text) := by
  rw [OneLine, Column.left, String.toList_ofList, List.rightpad, List.mem_append]
  rintro (hmem | hmem)
  · exact h hmem
  · exact absurd (List.eq_of_mem_replicate hmem) (by decide)

end Whitespace.Text
