import Whitespace.Proofs.Lines
import Whitespace.Proofs.Listing

/-!
The grammar of listings. A line is blank, or a mnemonic with the parameters that its opcode takes;
whatever comes after a semicolon does not count. A listing is read exactly if each of its lines is
of this form, as one instruction for each line that is not blank; otherwise the first line that is
not of this form is reported, for the first thing that is wrong with it.
-/
namespace Whitespace

/-- A decimal number with or without a sign. -/
inductive Decimal.Numeral : List Char → Int → Prop where
  | plain {ds : List Char} (hne : ds ≠ []) (h : ∀ d ∈ ds, d.isDigit = true) :
    Numeral ds (Nat.ofDigitChars 10 ds 0)
  | plus {ds : List Char} (hne : ds ≠ []) (h : ∀ d ∈ ds, d.isDigit = true) :
    Numeral ('+' :: ds) (Nat.ofDigitChars 10 ds 0)
  | minus {ds : List Char} (hne : ds ≠ []) (h : ∀ d ∈ ds, d.isDigit = true) :
    Numeral ('-' :: ds) (-(Nat.ofDigitChars 10 ds 0 : Nat))

namespace Listing

/-- The parameter of an opcode that takes a number: a word in decimal, or any bits behind a mark. -/
inductive Number : List Char → BitString → Prop where
  | decimal {text : List Char} {w : Word} (h : Decimal.Numeral text w.toInt) :
    Number text (BitString.ofNumber w)
  | bits (bits : BitString) : Number ('b' :: ':' :: bits.letters) bits

/-- What the words of line `n` say: nothing, or an instruction. -/
inductive Entry (n : Nat) : List (List Char) → Option Instruction → Prop where
  | blank : Entry n [] none
  | plain {op : Opcode} (h : op.paramKind = .none) :
    Entry n [op.mnemonic.toList] (some ⟨op, none, n⟩)
  | number {op : Opcode} {text : List Char} {bits : BitString} (h : op.paramKind = .number)
      (hnumber : Number text bits) :
    Entry n [op.mnemonic.toList, text] (some ⟨op, some bits, n⟩)
  | label {op : Opcode} (h : op.paramKind = .label) (label : BitString) :
    Entry n [op.mnemonic.toList, label.letters] (some ⟨op, some label, n⟩)
  | emptyLabel {op : Opcode} (h : op.paramKind = .label) :
    Entry n [op.mnemonic.toList] (some ⟨op, some [], n⟩)

/-- What is wrong with the words of line `n`. The mnemonic comes before all else, and one parameter
too many before the parameter itself. -/
inductive Offence (n : Nat) : List (List Char) → ListingError → Prop where
  | unknown {word : List Char} (h : ∀ op : Opcode, word ≠ op.mnemonic.toList)
      (params : List (List Char)) :
    Offence n (word :: params) (.unknownMnemonic n (String.ofList word))
  | extra (op : Opcode) (param extra : List Char) (more : List (List Char)) :
    Offence n (op.mnemonic.toList :: param :: extra :: more) (.badParam n op (String.ofList extra))
  | missing {op : Opcode} (h : op.paramKind = .number) :
    Offence n [op.mnemonic.toList] (.missingNumber n op)
  | unexpected {op : Opcode} (h : op.paramKind = .none) (param : List Char) :
    Offence n [op.mnemonic.toList, param] (.unexpectedParam n op)
  | badNumber {op : Opcode} {param : List Char} (h : op.paramKind = .number)
      (hbad : ∀ bits, ¬ Number param bits) :
    Offence n [op.mnemonic.toList, param] (.badParam n op (String.ofList param))
  | badLabel {op : Opcode} {param : List Char} (h : op.paramKind = .label)
      (hbad : ∀ label : BitString, param ≠ label.letters) :
    Offence n [op.mnemonic.toList, param] (.badParam n op (String.ofList param))

/-- The words of a line, up to the first semicolon. -/
def Says (line : List Char) (ws : List (List Char)) : Prop :=
  ∃ code comment, line = code ++ comment ∧ ';' ∉ code ∧ (∀ c ∈ comment.head?, c = ';') ∧
    Text.Spaced code ws

/-- Line `n` is of the right form, and this is what it says. -/
def Fits (n : Nat) (line : List Char) (entry : Option Instruction) : Prop :=
  ∃ ws, Says line ws ∧ Entry n ws entry

/-- Line `n` is not of the right form, for this reason. -/
def Offends (n : Nat) (line : List Char) (e : ListingError) : Prop :=
  ∃ ws, Says line ws ∧ Offence n ws e

/-- What each line says, counted from line `n` on. -/
structure Reading (n : Nat) (lines : List (List Char)) (found : List (Option Instruction)) :
    Prop where
  length_eq : found.length = lines.length
  fits : ∀ k line entry, lines[k]? = some line → found[k]? = some entry → Fits (n + k) line entry

/-- The first line that offends, counted from line `n` on. -/
structure FirstOffence (n : Nat) (lines : List (List Char)) (k : Nat) (e : ListingError) :
    Prop where
  offends : ∃ line, lines[k]? = some line ∧ Offends (n + k) line e
  before : ∀ j < k, ∀ line, lines[j]? = some line → ∃ entry, Fits (n + j) line entry

end Listing

namespace Opcode

variable {word : List Char} {op : Opcode}

theorem ofMnemonic?_toList (op : Opcode) :
    ofMnemonic? (String.ofList op.mnemonic.toList) = some op := by
  rw [String.ofList_toList, ofMnemonic?_mnemonic]

theorem eq_mnemonic_of_ofMnemonic? (h : ofMnemonic? (String.ofList word) = some op) :
    word = op.mnemonic.toList := by
  have hfound : (op.mnemonic == String.ofList word) = true :=
    List.find?_some (p := fun op : Opcode => op.mnemonic == String.ofList word) h
  rw [beq_iff_eq.mp hfound, String.toList_ofList]

theorem ofMnemonic?_eq_none_iff :
    ofMnemonic? (String.ofList word) = none ↔ ∀ op : Opcode, word ≠ op.mnemonic.toList := by
  constructor
  · intro h op hword
    rw [hword, ofMnemonic?_toList] at h
    cases h
  · intro h
    cases hop : ofMnemonic? (String.ofList word) with
    | none => rfl
    | some op => exact absurd (eq_mnemonic_of_ofMnemonic? hop) (h op)

end Opcode

theorem Bit.eq_letter_of_ofLetter? {c : Char} {b : Bit} (h : ofLetter? c = some b) :
    c = b.letter := by
  unfold ofLetter? at h
  split at h
  · cases h
    rfl
  · cases h
    rfl
  · cases h

theorem BitString.ofLetters?_eq_some_iff {cs : List Char} {bits : BitString} :
    ofLetters? cs = some bits ↔ cs = bits.letters := by
  constructor
  · intro h
    induction cs generalizing bits with
    | nil =>
      cases h
      rfl
    | cons c cs ih =>
      rw [ofLetters?, List.mapM_cons] at h
      obtain ⟨b, hb, h⟩ := Option.bind_eq_some_iff.mp h
      obtain ⟨rest, hrest, h⟩ := Option.bind_eq_some_iff.mp h
      cases h
      rw [Bit.eq_letter_of_ofLetter? hb, ih hrest]
      rfl
  · rintro rfl
    exact ofLetters?_letters bits

namespace Decimal

variable {cs : List Char} {i : Int}

theorem digits?_eq_some_iff {n : Nat} : digits? cs = some n ↔
    (cs ≠ [] ∧ ∀ d ∈ cs, d.isDigit = true) ∧ Nat.ofDigitChars 10 cs 0 = n := by
  rw [digits?, Option.ite_none_right_eq_some, Bool.and_eq_true, List.all_eq_true,
    Option.some.injEq]
  simp

theorem exists_digits {f : Int → Int}
    (h : Option.map f (digits? cs >>= fun n => pure (n : Int)) = some i) :
    cs ≠ [] ∧ (∀ d ∈ cs, d.isDigit = true) ∧ i = f (Nat.ofDigitChars 10 cs 0) := by
  cases hdigits : digits? cs with
  | none =>
    rw [hdigits] at h
    cases h
  | some n =>
    rw [hdigits] at h
    cases h
    obtain ⟨⟨hne, hall⟩, rfl⟩ := digits?_eq_some_iff.mp hdigits
    exact ⟨hne, hall, rfl⟩

theorem numeral_of_integer? (h : integer? cs = some i) : Numeral cs i := by
  unfold integer? at h
  split at h
  · obtain ⟨hne, hall, rfl⟩ := exists_digits h
    exact .minus hne hall
  · obtain ⟨hne, hall, rfl⟩ := exists_digits h
    exact .plus hne hall
  · obtain ⟨hne, hall, rfl⟩ := exists_digits h
    exact .plain hne hall

theorem Numeral.integer?_eq (h : Numeral cs i) : integer? cs = some i := by
  cases h with
  | plain hne hall =>
    have hdigits := digits?_eq_some_iff.mpr ⟨⟨hne, hall⟩, rfl⟩
    unfold integer?
    split
    · next ds =>
      cases hall '-' List.mem_cons_self
    · next ds =>
      cases hall '+' List.mem_cons_self
    · rw [hdigits]
      rfl
  | plus hne hall =>
    rw [integer?, digits?_eq_some_iff.mpr ⟨⟨hne, hall⟩, rfl⟩]
    rfl
  | minus hne hall =>
    rw [integer?, digits?_eq_some_iff.mpr ⟨⟨hne, hall⟩, rfl⟩]
    rfl

/-- It begins with a sign or a digit. -/
theorem Numeral.head_ne {c : Char} (h : Numeral (c :: cs) i) : c ≠ 'b' := by
  rintro rfl
  cases h with
  | plain hne hall => cases hall 'b' List.mem_cons_self

end Decimal

theorem Word.ofText?_eq_some_iff {cs : List Char} {w : Word} :
    ofText? cs = some w ↔ Decimal.Numeral cs w.toInt := by
  constructor
  · intro h
    obtain ⟨i, hi, h⟩ := Option.bind_eq_some_iff.mp h
    rw [Option.ite_none_right_eq_some] at h
    obtain ⟨hrange, h⟩ := h
    cases h
    rw [Int32.toInt_ofInt_of_le (by omega) (by omega)]
    exact Decimal.numeral_of_integer? hi
  · intro h
    have hlow := w.le_toInt
    have hhigh := w.toInt_lt
    rw [ofText?, h.integer?_eq, Option.bind_some, if_pos (by omega), Int32.ofInt_toInt]

namespace Listing

variable {n : Nat} {text line : List Char} {ws : List (List Char)} {bits : BitString}
  {entry : Option Instruction} {e : ListingError}

theorem number_of_number? (h : number? text = some bits) : Number text bits := by
  unfold number? at h
  split at h
  · rw [BitString.ofLetters?_eq_some_iff.mp h]
    exact .bits bits
  · obtain ⟨w, hw, rfl⟩ := Option.map_eq_some_iff.mp h
    exact .decimal (Word.ofText?_eq_some_iff.mp hw)

theorem Number.number?_eq (h : Number text bits) : number? text = some bits := by
  cases h with
  | decimal h =>
    have hword := Word.ofText?_eq_some_iff.mpr h
    unfold number?
    split
    · exact absurd rfl h.head_ne
    · rw [hword]
      rfl
  | bits bits => exact number?_bits bits

theorem number?_eq_none_iff : number? text = none ↔ ∀ bits, ¬ Number text bits := by
  constructor
  · intro h bits hnumber
    rw [hnumber.number?_eq] at h
    cases h
  · intro h
    cases hnumber : number? text with
    | none => rfl
    | some bits => exact absurd (number_of_number? hnumber) (h bits)

theorem Entry.instruction?_eq (h : Entry n ws entry) : instruction? n ws = .ok entry := by
  cases h with
  | blank => rfl
  | plain h =>
    simp only [instruction?, Opcode.ofMnemonic?_toList, List.head?_nil, param, h]
    rfl
  | number h hnumber =>
    simp only [instruction?, Opcode.ofMnemonic?_toList, List.head?_cons, param, h,
      hnumber.number?_eq]
    rfl
  | label h label =>
    simp only [instruction?, Opcode.ofMnemonic?_toList, List.head?_cons, param, h,
      BitString.ofLetters?_letters]
    rfl
  | emptyLabel h =>
    simp only [instruction?, Opcode.ofMnemonic?_toList, List.head?_nil, param, h]
    rfl

theorem Offence.instruction?_eq (h : Offence n ws e) : instruction? n ws = .error e := by
  cases h with
  | unknown h params => simp only [instruction?, Opcode.ofMnemonic?_eq_none_iff.mpr h]
  | extra op param extra more => simp only [instruction?, Opcode.ofMnemonic?_toList]
  | missing h =>
    simp only [instruction?, Opcode.ofMnemonic?_toList, List.head?_nil, param, h]
    rfl
  | unexpected h text =>
    simp only [instruction?, Opcode.ofMnemonic?_toList, List.head?_cons, param, h]
    rfl
  | badNumber h hbad =>
    simp only [instruction?, Opcode.ofMnemonic?_toList, List.head?_cons, param, h,
      number?_eq_none_iff.mpr hbad]
    rfl
  | @badLabel op text h hbad =>
    have hnone : BitString.ofLetters? text = none := by
      cases hletters : BitString.ofLetters? text with
      | none => rfl
      | some label => exact absurd (BitString.ofLetters?_eq_some_iff.mp hletters) (hbad label)
    simp only [instruction?, Opcode.ofMnemonic?_toList, List.head?_cons, param, h, hnone]
    rfl

/-- The words of a line say something, or something is wrong with them. -/
theorem entry_or_offence (n : Nat) (ws : List (List Char)) :
    (∃ entry, Entry n ws entry) ∨ ∃ e, Offence n ws e := by
  cases ws with
  | nil => exact .inl ⟨none, .blank⟩
  | cons word params =>
    by_cases hword : ∀ op : Opcode, word ≠ op.mnemonic.toList
    · exact .inr ⟨_, .unknown hword params⟩
    · obtain ⟨op, hop⟩ := not_forall.mp hword
      obtain rfl := not_not.mp hop
      rcases params with _ | ⟨text, _ | ⟨extra, more⟩⟩
      · cases hkind : op.paramKind with
        | none => exact .inl ⟨_, .plain hkind⟩
        | number => exact .inr ⟨_, .missing hkind⟩
        | label => exact .inl ⟨_, .emptyLabel hkind⟩
      · cases hkind : op.paramKind with
        | none => exact .inr ⟨_, .unexpected hkind text⟩
        | number =>
          by_cases hnumber : ∃ bits, Number text bits
          · obtain ⟨bits, hnumber⟩ := hnumber
            exact .inl ⟨_, .number hkind hnumber⟩
          · exact .inr ⟨_, .badNumber hkind (not_exists.mp hnumber)⟩
        | label =>
          by_cases hlabel : ∃ label : BitString, text = label.letters
          · obtain ⟨label, rfl⟩ := hlabel
            exact .inl ⟨_, .label hkind label⟩
          · exact .inr ⟨_, .badLabel hkind (not_exists.mp hlabel)⟩
      · exact .inr ⟨_, .extra op text extra more⟩

theorem Entry.wellFormed {i : Instruction} (h : Entry n ws (some i)) : i.WellFormed := by
  cases h with
  | plain h => simp [Instruction.WellFormed, h]
  | number h hnumber => simp [Instruction.WellFormed, h]
  | label h label => simp [Instruction.WellFormed, h]
  | emptyLabel h => simp [Instruction.WellFormed, h]

theorem wordsOf_eq_iff : wordsOf line = ws ↔ Says line ws := by
  constructor
  · intro h
    refine ⟨line.takeWhile (· != ';'), line.dropWhile (· != ';'),
      List.takeWhile_append_dropWhile.symm, ?_, ?_, Text.words_eq_iff.mp h⟩
    · intro hmem
      cases List.mem_takeWhile_imp hmem
    · intro c hc
      have hstop := List.head?_dropWhile_not (· != ';') line
      rw [Option.mem_def.mp hc] at hstop
      simpa using hstop
  · rintro ⟨code, comment, rfl, hcode, hcomment, hspaced⟩
    have hrest : comment.takeWhile (· != ';') = [] := by
      cases comment with
      | nil => rfl
      | cons c comment =>
        rw [hcomment c rfl]
        rfl
    have hall : ∀ c ∈ code, (c != ';') = true := by
      intro c hc
      rw [bne_iff_ne]
      rintro rfl
      exact hcode hc
    rw [wordsOf, List.takeWhile_append_of_pos hall, hrest, List.append_nil]
    exact hspaced.words_eq

theorem Fits.instruction?_eq (h : Fits n line entry) :
    instruction? n (wordsOf line) = .ok entry := by
  obtain ⟨ws, hsays, hentry⟩ := h
  rw [wordsOf_eq_iff.mpr hsays, hentry.instruction?_eq]

theorem Offends.instruction?_eq (h : Offends n line e) :
    instruction? n (wordsOf line) = .error e := by
  obtain ⟨ws, hsays, hoffence⟩ := h
  rw [wordsOf_eq_iff.mpr hsays, hoffence.instruction?_eq]

theorem fits_or_offends (n : Nat) (line : List Char) :
    (∃ entry, Fits n line entry) ∨ ∃ e, Offends n line e := by
  have hsays : Says line (wordsOf line) := wordsOf_eq_iff.mp rfl
  obtain ⟨entry, hentry⟩ | ⟨e, hoffence⟩ := entry_or_offence n (wordsOf line)
  · exact .inl ⟨entry, _, hsays, hentry⟩
  · exact .inr ⟨e, _, hsays, hoffence⟩

theorem Fits.not_offends (h : Fits n line entry) : ¬ Offends n line e := by
  intro hoffends
  have heq := h.instruction?_eq
  rw [hoffends.instruction?_eq] at heq
  cases heq

variable {lines : List (List Char)} {found : List (Option Instruction)} {k : Nat}

theorem reading_nil (n : Nat) : Reading n [] [] where
  length_eq := rfl
  fits _ _ _ hline := by cases hline

theorem reading_cons_iff : Reading n (line :: lines) (entry :: found) ↔
    Fits n line entry ∧ Reading (n + 1) lines found := by
  constructor
  · intro h
    refine ⟨h.fits 0 line entry rfl rfl, Nat.succ.inj h.length_eq, ?_⟩
    intro k line entry hline hentry
    rw [Nat.add_right_comm]
    exact h.fits (k + 1) line entry hline hentry
  · rintro ⟨hfits, hrest⟩
    refine ⟨congrArg (· + 1) hrest.length_eq, ?_⟩
    intro k line' entry' hline hentry
    cases k with
    | zero =>
      cases hline
      cases hentry
      exact hfits
    | succ k =>
      have hk := hrest.fits k line' entry' hline hentry
      rw [Nat.add_right_comm] at hk
      exact hk

theorem firstOffence_zero (h : Offends n line e) (lines : List (List Char)) :
    FirstOffence n (line :: lines) 0 e where
  offends := ⟨line, rfl, h⟩
  before j hj := absurd hj (Nat.not_lt_zero j)

theorem firstOffence_succ_iff : FirstOffence n (line :: lines) (k + 1) e ↔
    (∃ entry, Fits n line entry) ∧ FirstOffence (n + 1) lines k e := by
  constructor
  · intro h
    obtain ⟨line', hline, hoffends⟩ := h.offends
    refine ⟨h.before 0 (Nat.succ_pos k) line rfl, ⟨line', hline, ?_⟩, ?_⟩
    · rw [Nat.add_right_comm]
      exact hoffends
    · intro j hj line' hline'
      rw [Nat.add_right_comm]
      exact h.before (j + 1) (Nat.succ_lt_succ hj) line' hline'
  · rintro ⟨hfits, hrest⟩
    obtain ⟨line', hline, hoffends⟩ := hrest.offends
    rw [Nat.add_right_comm] at hoffends
    refine ⟨⟨line', hline, hoffends⟩, ?_⟩
    intro j hj line' hline'
    cases j with
    | zero =>
      cases hline'
      exact hfits
    | succ j =>
      have hj' := hrest.before j (Nat.lt_of_succ_lt_succ hj) line' hline'
      rw [Nat.add_right_comm] at hj'
      exact hj'

theorem reading_or_firstOffence (n : Nat) (lines : List (List Char)) :
    (∃ found, Reading n lines found) ∨ ∃ k e, FirstOffence n lines k e := by
  induction lines generalizing n with
  | nil => exact .inl ⟨[], reading_nil n⟩
  | cons line lines ih =>
    obtain ⟨entry, hfits⟩ | ⟨e, hoffends⟩ := fits_or_offends n line
    · obtain ⟨found, hreading⟩ | ⟨k, e, hfirst⟩ := ih (n + 1)
      · exact .inl ⟨entry :: found, reading_cons_iff.mpr ⟨hfits, hreading⟩⟩
      · exact .inr ⟨k + 1, e, firstOffence_succ_iff.mpr ⟨⟨entry, hfits⟩, hfirst⟩⟩
    · exact .inr ⟨0, e, firstOffence_zero hoffends lines⟩

theorem Reading.parseFrom_eq (h : Reading n lines found) (read : Array Instruction) :
    parseFrom n read lines = .ok (read.toList ++ found.reduceOption) := by
  induction lines generalizing n found read with
  | nil =>
    rw [List.eq_nil_of_length_eq_zero h.length_eq, List.reduceOption_nil, List.append_nil]
    rfl
  | cons line lines ih =>
    obtain ⟨entry, found, rfl⟩ := List.exists_cons_of_length_eq_add_one h.length_eq
    obtain ⟨hfits, hrest⟩ := reading_cons_iff.mp h
    rw [parseFrom, hfits.instruction?_eq]
    cases entry with
    | none => exact ih hrest read
    | some i =>
      rw [List.reduceOption_cons_of_some]
      refine (ih hrest (read.push i)).trans ?_
      rw [Array.toList_push, List.append_assoc]
      rfl

theorem FirstOffence.parseFrom_eq (h : FirstOffence n lines k e) (read : Array Instruction) :
    parseFrom n read lines = .error e := by
  induction lines generalizing n k read with
  | nil =>
    obtain ⟨line, hline, -⟩ := h.offends
    cases hline
  | cons line lines ih =>
    cases k with
    | zero =>
      obtain ⟨_, hline, hoffends⟩ := h.offends
      cases hline
      rw [Nat.add_zero] at hoffends
      rw [parseFrom, hoffends.instruction?_eq]
    | succ k =>
      obtain ⟨⟨entry, hfits⟩, hrest⟩ := firstOffence_succ_iff.mp h
      rw [parseFrom, hfits.instruction?_eq]
      cases entry with
      | none => exact ih hrest read
      | some i => exact ih hrest (read.push i)

theorem wordsOf_of_sameLine {ended : List Char} (h : Text.SameLine line ended) :
    wordsOf line = wordsOf ended := by
  obtain rfl | rfl := h
  · rfl
  · -- A comment hides the carriage return; without one it is a blank after the last word.
    rw [wordsOf, wordsOf, List.takeWhile_append]
    split
    · next hall =>
      have hself : ended.takeWhile (· != ';') = ended :=
        (List.takeWhile_prefix _).eq_of_length hall
      rw [hself]
      exact Text.words_append_blank (by decide) ended
    · rfl

theorem parseFrom_of_sameLine {ended : List (List Char)}
    (h : List.Forall₂ Text.SameLine lines ended) (n : Nat) (read : Array Instruction) :
    parseFrom n read lines = parseFrom n read ended := by
  induction h generalizing n read with
  | nil => rfl
  | cons hline _ ih =>
    rw [parseFrom, parseFrom, wordsOf_of_sameLine hline]
    simp only [ih]

theorem parse_eq_parseFrom (text : List Char) :
    parse text = parseFrom 1 #[] (Text.endedLines text) :=
  parseFrom_of_sameLine (Text.sameLine_lines text) 1 #[]

theorem Reading.exists_fits (h : Reading n lines found) (hline : lines[k]? = some line) :
    ∃ entry, Fits (n + k) line entry := by
  have hk : k < found.length := h.length_eq ▸ (List.getElem?_eq_some_iff.mp hline).1
  exact ⟨found[k], h.fits k line found[k] hline (List.getElem?_eq_getElem hk)⟩

theorem Reading.wellFormed (h : Reading n lines found) :
    ∀ i ∈ found.reduceOption, i.WellFormed := by
  intro i hi
  rw [List.reduceOption_mem_iff] at hi
  obtain ⟨k, hk, hentry⟩ := List.getElem_of_mem hi
  have hlines : k < lines.length := h.length_eq ▸ hk
  obtain ⟨ws, -, hfits⟩ := h.fits k lines[k] (some i) (List.getElem?_eq_getElem hlines)
    (by rw [List.getElem?_eq_getElem hk, hentry])
  exact hfits.wellFormed

theorem Reading.parse_eq {text : List Char} (h : Reading 1 (Text.endedLines text) found) :
    parse text = .ok found.reduceOption := by
  rw [parse_eq_parseFrom, h.parseFrom_eq]
  rfl

theorem FirstOffence.parse_eq {text : List Char} (h : FirstOffence 1 (Text.endedLines text) k e) :
    parse text = .error e := by
  rw [parse_eq_parseFrom, h.parseFrom_eq]

theorem exists_reading {text : List Char} {is : List Instruction} (h : parse text = .ok is) :
    ∃ found, Reading 1 (Text.endedLines text) found ∧ is = found.reduceOption := by
  obtain ⟨found, hreading⟩ | ⟨k, e, hfirst⟩ := reading_or_firstOffence 1 (Text.endedLines text)
  · rw [hreading.parse_eq] at h
    cases h
    exact ⟨found, hreading, rfl⟩
  · rw [hfirst.parse_eq] at h
    cases h

theorem exists_parse_eq_ok_iff {text : List Char} : (∃ is, parse text = .ok is) ↔
    ∀ k line, (Text.endedLines text)[k]? = some line → ∃ entry, Fits (1 + k) line entry := by
  constructor
  · rintro ⟨is, hparse⟩ k line hline
    obtain ⟨found, hreading, -⟩ := exists_reading hparse
    exact hreading.exists_fits hline
  · intro hall
    obtain ⟨found, hreading⟩ | ⟨k, e, hfirst⟩ := reading_or_firstOffence 1 (Text.endedLines text)
    · exact ⟨_, hreading.parse_eq⟩
    · obtain ⟨line, hline, hoffends⟩ := hfirst.offends
      obtain ⟨entry, hfits⟩ := hall k line hline
      exact absurd hoffends hfits.not_offends

theorem parse_eq_error_iff {text : List Char} :
    parse text = .error e ↔ ∃ k, FirstOffence 1 (Text.endedLines text) k e := by
  constructor
  · intro h
    obtain ⟨found, hreading⟩ | ⟨k, e', hfirst⟩ := reading_or_firstOffence 1 (Text.endedLines text)
    · rw [hreading.parse_eq] at h
      cases h
    · rw [hfirst.parse_eq] at h
      cases h
      exact ⟨k, hfirst⟩
  · rintro ⟨k, hfirst⟩
    exact hfirst.parse_eq

/-- A listing is read exactly if each of its lines is of the right form. It is then read as what
its lines say, in order and each with the number of its line, and comes back when it is written as a
source and parsed. Otherwise the error is that of the first line that offends. -/
theorem parse_exactly_line_grammar (text : List Char) :
    ((∃ is, parse text = .ok is) ↔
      ∀ k line, (Text.endedLines text)[k]? = some line → ∃ entry, Fits (1 + k) line entry) ∧
    (∀ is, parse text = .ok is →
      (∃ found, Reading 1 (Text.endedLines text) found ∧ is = found.reduceOption) ∧
      (∀ i ∈ is, i.WellFormed) ∧
      ∃ p, Program.parse (Instruction.encodeAll is) = .ok p ∧
        p.instructions.toList.map Instruction.body = is.map Instruction.body) ∧
    ∀ e, parse text = .error e ↔ ∃ k, FirstOffence 1 (Text.endedLines text) k e := by
  refine ⟨exists_parse_eq_ok_iff, ?_, fun e => parse_eq_error_iff⟩
  intro is hparse
  obtain ⟨found, hreading, rfl⟩ := exists_reading hparse
  have hwf := hreading.wellFormed
  exact ⟨⟨found, hreading, rfl⟩, hwf,
    Program.parse_of_filter hwf (Instruction.filter_encodeAll _)⟩

/-- A comment, a push after an ideographic space, a blank line and a mark without a label; then a
line with two parameters too many, and one with an unknown mnemonic. -/
def remarked : List Char := "; go\r\n\u3000push +7 ; seven\r\n\nmrk\nadd x y\nnop".toList

theorem remarked_rejected :
    parse remarked = .error (.badParam 5 .add "y") ∧
      (∃ k, FirstOffence 1 (Text.endedLines remarked) k (.badParam 5 .add "y")) ∧
      ∃ p, Program.parse (Instruction.encodeAll
          [⟨.push, some [.space, .tab, .tab, .tab], 2⟩, ⟨.mark, some [], 4⟩]) = .ok p ∧
        p.instructions.toList.map Instruction.body =
          [(.push, some [.space, .tab, .tab, .tab]), (.mark, some [])] := by
  have herror : parse remarked = .error (.badParam 5 .add "y") := by decide +kernel
  have hfront : parse (remarked.take 28) =
      .ok [⟨.push, some [.space, .tab, .tab, .tab], 2⟩, ⟨.mark, some [], 4⟩] := by decide +kernel
  obtain ⟨-, haccepted, -⟩ := parse_exactly_line_grammar (remarked.take 28)
  obtain ⟨-, -, hparsed⟩ := haccepted _ hfront
  exact ⟨herror, ((parse_exactly_line_grammar remarked).2.2 _).mp herror, hparsed⟩

end Listing

end Whitespace
