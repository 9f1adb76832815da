import Whitespace.Proofs.Interpreter
import Whitespace.Proofs.Listing

/-!
Where the instructions of a parsed program stand. An instruction is on the line after all linefeeds
in the encodings of those before it, for comments hold none. The label map knows the last mark of
each label, and the label table has a line for each mark, which names the last one where that is
another.
-/
namespace Whitespace

namespace Parser

theorem Reads.ne_nil {ts : List Spanned} {is : List Instruction} (h : Reads ts is) : ts ≠ [] := by
  rintro rfl
  have htokens := h.tokens
  simp at htokens

/-- In a stream that starts on `line`, an instruction is on the line to which the linefeeds of those
before it lead. -/
theorem Reads.line_eq {ts : List Spanned} {is : List Instruction} (h : Reads ts is) {line n : Nat}
    {tokens : List Token} (hts : ts = Token.spans line tokens) {i : Instruction}
    (hi : is[n]? = some i) :
    i.line = line + ((is.take n).flatMap Instruction.tokens).count .linefeed := by
  induction h generalizing line n tokens with
  | eof => cases hi
  | @cons front rest j is _ hline hfront hrest ih =>
    have hstream : front ++ rest ≠ [] := List.append_ne_nil_of_right_ne_nil _ hrest.ne_nil
    cases n with
    | zero =>
      obtain rfl := Option.some.inj hi
      rw [hline, hts]
      cases tokens with
      | nil => exact absurd hts hstream
      | cons t tokens => rfl
    | succ n =>
      have htokens : tokens = j.tokens ++ rest.map Spanned.token := by
        rw [← Token.map_token_spans line tokens, ← hts, List.map_append, hfront]
      rw [htokens] at hts
      rw [ih (Token.rest_of_spans hfront hts.symm) hi, List.take_succ_cons, List.flatMap_cons,
        List.count_append, Nat.add_assoc]

end Parser

namespace Program

/-- The instruction with index `j` is the last to mark the label. -/
structure LastMark (is : List Instruction) (label : BitString) (j : Nat) : Prop where
  marks : ∃ i, is[j]? = some i ∧ i.marks label = true
  last : ∀ {k i}, is[k]? = some i → i.marks label = true → k ≤ j

section LastMark

variable {is : List Instruction} {i : Instruction} {label : BitString} {j : Nat}

theorem lastMark_concat_of_marks (h : i.marks label = true) :
    LastMark (is ++ [i]) label j ↔ j = is.length := by
  constructor
  · rintro ⟨⟨i', hi', _⟩, hlast⟩
    have hlt := (List.getElem?_eq_some_iff.mp hi').1
    have hle : is.length ≤ j := hlast (i := i) (by simp) h
    rw [List.length_append, List.length_singleton] at hlt
    omega
  · rintro rfl
    refine ⟨⟨i, by simp, h⟩, fun {k i'} hk _ => ?_⟩
    have hlt := (List.getElem?_eq_some_iff.mp hk).1
    rw [List.length_append, List.length_singleton] at hlt
    omega

theorem lastMark_concat_of_not (h : i.marks label = false) :
    LastMark (is ++ [i]) label j ↔ LastMark is label j := by
  -- An instruction that marks the label is one of those before the last.
  have hbefore : ∀ {k : Nat} {i' : Instruction}, i'.marks label = true →
      ((is ++ [i])[k]? = some i' ↔ is[k]? = some i') := by
    intro k i' hmarks
    rcases Nat.lt_or_ge k is.length with hlt | hge
    · rw [List.getElem?_append_left hlt]
    · rw [List.getElem?_append_right hge, List.getElem?_eq_none hge]
      refine ⟨fun hk => ?_, nofun⟩
      rw [List.mem_singleton.mp (List.mem_of_getElem? hk), h] at hmarks
      cases hmarks
  constructor
  · rintro ⟨⟨i', hi', hmarks⟩, hlast⟩
    exact ⟨⟨i', (hbefore hmarks).mp hi', hmarks⟩, fun hk hm => hlast ((hbefore hm).mpr hk) hm⟩
  · rintro ⟨⟨i', hi', hmarks⟩, hlast⟩
    exact ⟨⟨i', (hbefore hmarks).mpr hi', hmarks⟩, fun hk hm => hlast ((hbefore hm).mp hk) hm⟩

theorem exists_lastMark (hi : i ∈ is) (hmarks : i.marks label = true) :
    ∃ j, LastMark is label j := by
  induction is using List.reverseRecOn with
  | nil => cases hi
  | append_singleton is last ih =>
    cases hlast : last.marks label with
    | true => exact ⟨_, (lastMark_concat_of_marks hlast).mpr rfl⟩
    | false =>
      have hbefore : i ∈ is := by
        rcases List.mem_append.mp hi with hmem | hmem
        · exact hmem
        · rw [List.mem_singleton.mp hmem, hlast] at hmarks
          cases hmarks
      obtain ⟨j, hj⟩ := ih hbefore
      exact ⟨j, (lastMark_concat_of_not hlast).mpr hj⟩

end LastMark

theorem labels_add (p : Program) (i : Instruction) (label : BitString) :
    (p.add i).labels[label]? =
      if i.marks label then some p.instructions.size else p.labels[label]? := by
  unfold add Instruction.marks
  split
  · next l hop hparam =>
    rw [push, mark, Std.HashMap.getElem?_insert, hop, hparam]
    simp
  · next hnot =>
    have hmarks : (i.opcode == .mark && i.param == some label) = false := by
      rw [Bool.eq_false_iff]
      intro h
      rw [Bool.and_eq_true, beq_iff_eq, beq_iff_eq] at h
      exact hnot label h.1 h.2
    rw [hmarks, push]
    rfl

/-- Adding instructions one by one keeps the last mark of each label. -/
theorem labels_foldl_add (is : List Instruction) (label : BitString) (j : Nat) :
    (is.foldl add empty).labels[label]? = some j ↔ LastMark is label j := by
  induction is using List.reverseRecOn with
  | nil =>
    constructor
    · intro h
      simp [empty] at h
    · rintro ⟨⟨i, hi, _⟩, _⟩
      cases hi
  | append_singleton is i ih =>
    have hsize : (is.foldl add empty).instructions.size = is.length := by
      rw [← Array.length_toList, toList_foldl_add]
      rfl
    rw [List.foldl_append, List.foldl_cons, List.foldl_nil, labels_add, hsize]
    cases hmarks : i.marks label with
    | true =>
      rw [lastMark_concat_of_marks hmarks, if_pos rfl, Option.some.injEq, eq_comm]
    | false => rw [lastMark_concat_of_not hmarks, if_neg Bool.false_ne_true, ih]

theorem labels_of_parse {source : List UInt8} {p : Program} (h : parse source = .ok p)
    (label : BitString) (j : Nat) :
    p.labels[label]? = some j ↔ LastMark p.instructions.toList label j := by
  obtain ⟨is, _, rfl⟩ := parse_eq_ok_iff.mp h
  rw [labels_foldl_add, toList_foldl_add]
  rfl

theorem line_of_parse {source : List UInt8} {p : Program} (h : parse source = .ok p) {n : Nat}
    {i : Instruction} (hi : p.instructions[n]? = some i) :
    i.line = 1 + (Instruction.encodeAll (p.instructions.toList.take n)).count Byte.lf := by
  rw [← Array.getElem?_toList] at hi
  rw [(reads_of_parse h).line_eq (Scanner.drain_ofBytes source) hi, ← Token.count_ofBytes,
    Instruction.ofBytes_encodeAll]

/-- The indices of all marks, in order. -/
def markIndices (is : List Instruction) : List Nat :=
  (is.zipIdx.filter (·.1.opcode == .mark)).map Prod.snd

/-- What the label table says of a mark: its index, its line and its label. -/
def markText (index line : Nat) (label : BitString) : String :=
  Column.address index ++ " line " ++ Column.left 5 (toString line) ++ " " ++
    if label.isEmpty then "(empty)" else label.name

/-- The line of the label table for the mark with index `n`. -/
inductive TableLine (is : List Instruction) (n : Nat) : String → Prop where
  | holds {i : Instruction} {label : BitString} (hi : is[n]? = some i)
      (hmarks : i.marks label = true) (hlast : LastMark is label n) :
      TableLine is n (markText n i.line label)
  | overridden {i : Instruction} {label : BitString} {j : Nat} (hi : is[n]? = some i)
      (hmarks : i.marks label = true) (hlast : LastMark is label j) (hlater : n < j) :
      TableLine is n (markText n i.line label ++ " ; overridden by " ++ Column.address j)

theorem oneLine_markText (index line : Nat) (label : BitString) :
    Text.OneLine (markText index line label) := by
  have hname : Text.OneLine (if label.isEmpty then "(empty)" else label.name) := by
    split
    · decide
    · next hempty =>
      rw [Text.OneLine, BitString.name, String.toList_ofList]
      exact (BitString.isWord_letters (by simpa using hempty)).newline_notMem
  have hplace := ((Text.oneLine_address index).append (t := " line ") (by decide)).append
    ((Text.oneLine_toString line).left 5)
  exact (hplace.append (t := " ") (by decide)).append hname

theorem TableLine.oneLine {is : List Instruction} {n : Nat} {text : String}
    (h : TableLine is n text) : Text.OneLine text := by
  cases h with
  | holds => exact oneLine_markText _ _ _
  | overridden =>
    exact ((oneLine_markText _ _ _).append (by decide)).append (Text.oneLine_address _)

section Table

variable {p : Program} (hlabels : ∀ label j, p.labels[label]? = some j ↔
  LastMark p.instructions.toList label j)
include hlabels

theorem labelLine?_of_marks {n : Nat} {i : Instruction} {label : BitString}
    (hi : p.instructions.toList[n]? = some i) (hmarks : i.marks label = true) :
    ∃ text, p.labelLine? i n = some (text ++ "\n") ∧ TableLine p.instructions.toList n text := by
  obtain ⟨j, hlast⟩ := exists_lastMark (List.mem_of_getElem? hi) hmarks
  obtain ⟨hop, hparam⟩ : i.opcode = .mark ∧ i.param = some label := by
    simpa [Instruction.marks] using hmarks
  have hwinner := (hlabels label j).mpr hlast
  by_cases hj : j = n
  · subst hj
    refine ⟨_, ?_, .holds hi hmarks hlast⟩
    simp only [labelLine?, hop, hparam, hwinner, if_pos, markText]
  · have hlater : n < j := Nat.lt_of_le_of_ne (hlast.last hi hmarks) (Ne.symm hj)
    refine ⟨_, ?_, .overridden hi hmarks hlast hlater⟩
    simp only [labelLine?, hop, hparam, hwinner, if_neg hj, markText]

/-- The table has a line for each mark and none for any other instruction. -/
theorem exists_tableLines (hp : ∀ i ∈ p.instructions.toList, i.WellFormed) :
    ∃ texts, p.labelTable = Text.ofLines texts ∧
      List.Forall₂ (TableLine p.instructions.toList) (markIndices p.instructions.toList) texts := by
  have hall : ∀ x ∈ p.instructions.toList.zipIdx,
      p.instructions.toList[x.2]? = some x.1 ∧ x.1.WellFormed := by
    intro x hx
    have hi := List.mem_zipIdx_iff_getElem?.mp hx
    exact ⟨hi, hp _ (List.mem_of_getElem? hi)⟩
  suffices htable : ∃ texts : List String,
      p.instructions.toList.zipIdx.filterMap (fun x => p.labelLine? x.1 x.2) =
        texts.map (· ++ "\n") ∧
      List.Forall₂ (TableLine p.instructions.toList) (markIndices p.instructions.toList) texts by
    obtain ⟨texts, htexts, hlines⟩ := htable
    exact ⟨texts, congrArg String.join htexts, hlines⟩
  unfold markIndices
  generalize p.instructions.toList.zipIdx = xs at hall
  induction xs with
  | nil => exact ⟨[], rfl, .nil⟩
  | cons x xs ih =>
    obtain ⟨⟨hi, hwf⟩, hxs⟩ := List.forall_mem_cons.mp hall
    obtain ⟨texts, htexts, hlines⟩ := ih hxs
    by_cases hop : x.1.opcode = .mark
    · obtain ⟨label, hparam⟩ := hwf.exists_param (by rw [hop]; decide)
      have hmarks : x.1.marks label = true := by simp [Instruction.marks, hop, hparam]
      obtain ⟨text, htext, hline⟩ := labelLine?_of_marks hlabels hi hmarks
      refine ⟨text :: texts, ?_, ?_⟩
      · simp only [List.filterMap_cons, htext, htexts, List.map_cons]
      · rw [List.filter_cons_of_pos (by simpa using hop), List.map_cons]
        exact .cons hline hlines
    · refine ⟨texts, ?_, ?_⟩
      · rw [List.filterMap_cons_none, htexts]
        simp [labelLine?, hop]
      · rw [List.filter_cons_of_neg (by simpa using hop)]
        exact hlines

end Table

/-- In a parsed program each instruction knows its line, which is one more than the linefeeds in the
encodings before it. The label map gives the last mark of each label and no other. The lines of the
label table are those of the marks, in order, and a mark that is not the last of its label says
which one is. -/
theorem parse_places_exactly {source : List UInt8} {p : Program} (h : parse source = .ok p) :
    (∀ n i, p.instructions[n]? = some i →
      i.line = 1 + (Instruction.encodeAll (p.instructions.toList.take n)).count Byte.lf) ∧
    (∀ label j, p.labels[label]? = some j ↔ LastMark p.instructions.toList label j) ∧
    ∃ texts, Text.lines p.labelTable.toList = texts.map String.toList ++ [[]] ∧
      List.Forall₂ (TableLine p.instructions.toList) (markIndices p.instructions.toList) texts := by
  refine ⟨fun n i hi => line_of_parse h hi, labels_of_parse h, ?_⟩
  obtain ⟨texts, htable, hlines⟩ :=
    exists_tableLines (labels_of_parse h) (reads_of_parse h).wellFormed
  refine ⟨texts, ?_, hlines⟩
  rw [htable, Text.lines_ofLines]
  intro text htext
  obtain ⟨k, hk, rfl⟩ := List.mem_iff_getElem.mp htext
  exact (hlines.get (hlines.length_eq ▸ hk) hk).oneLine

/-- Marks the label st, with a comment in the mark, then t and then st again. -/
def markedAgain : List UInt8 :=
  [32, 10, 32] ++ [10, 32, 99, 32, 32, 9, 10] ++ [10, 32, 32, 9, 10] ++ [10, 32, 32, 32, 9, 10]

theorem markedAgain_placed :
    ∃ p, parse markedAgain = .ok p ∧ p.instructions[3]? = some ⟨.mark, some [.space, .tab], 6⟩ ∧
      1 + (Instruction.encodeAll (p.instructions.toList.take 3)).count Byte.lf = 6 ∧
      p.labels[([.space, .tab] : BitString)]? = some 3 ∧
      LastMark p.instructions.toList [.space, .tab] 3 ∧
      p.labelTable = "0001 line 2     st ; overridden by 0003\n" ++ "0002 line 4     t\n" ++
        "0003 line 6     st\n" ∧
      ∃ texts, Text.lines p.labelTable.toList = texts.map String.toList ++ [[]] ∧
        List.Forall₂ (TableLine p.instructions.toList) [1, 2, 3] texts := by
  have hparse : parse markedAgain = .ok ([⟨.dup, none, 1⟩, ⟨.mark, some [.space, .tab], 2⟩,
      ⟨.mark, some [.tab], 4⟩, ⟨.mark, some [.space, .tab], 6⟩].foldl add empty) := by
    cbv
  obtain ⟨hline, hlabels, htable⟩ := parse_places_exactly hparse
  refine ⟨_, hparse, by cbv, (hline 3 _ (by cbv)).symm, by cbv, ?_, by cbv, htable⟩
  exact (hlabels _ _).mp (by cbv)

end Program

end Whitespace
