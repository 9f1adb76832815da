import Whitespace.Program.Listing
import Whitespace.Proofs.Grammar
import Whitespace.Proofs.Lines

/-!
Listings are read back. A line of a listing is one word or two, for no mnemonic and no parameter
holds a blank or a semicolon, so the reader finds the words that were written. What it makes of them
is the instruction on its new line, with its number in normal form.
-/
namespace Whitespace

namespace Text

/-- Neither a blank nor the start of a comment. -/
def isInk (c : Char) : Bool := !isBlank c && c != ';'

/-- Read as one word wherever blanks stand around it. -/
def IsWord (cs : List Char) : Prop := cs ≠ [] ∧ cs.all isInk = true

instance (cs : List Char) : Decidable (IsWord cs) :=
  inferInstanceAs (Decidable (cs ≠ [] ∧ cs.all isInk = true))

theorem isInk_of_isDigit {c : Char} (h : c.isDigit = true) : isInk c = true := by
  have hrange : 48 ≤ c.toNat ∧ c.toNat ≤ 57 := by
    rw [Char.isDigit, Bool.and_eq_true, decide_eq_true_eq, decide_eq_true_eq] at h
    exact ⟨UInt32.le_iff_toNat_le.mp h.1, UInt32.le_iff_toNat_le.mp h.2⟩
  have hblank : isBlank c = false := by
    simp only [isBlank, Bool.or_eq_false_iff, Bool.and_eq_false_iff, decide_eq_false_iff_not,
      beq_eq_false_iff_ne]
    omega
  have hsemicolon : c ≠ ';' := by
    rintro rfl
    exact absurd hrange.2 (by decide)
  rw [isInk, hblank, bne_iff_ne.mpr hsemicolon]
  rfl

namespace IsWord

variable {w : List Char}

theorem isBlank_eq_false (hw : IsWord w) : ∀ c ∈ w, isBlank c = false := by
  intro c hc
  have hink := List.all_eq_true.mp hw.2 c hc
  rw [isInk, Bool.and_eq_true] at hink
  exact Bool.not_eq_true' _ |>.mp hink.1

theorem ne_semicolon (hw : IsWord w) : ∀ c ∈ w, (c != ';') = true := by
  intro c hc
  have hink := List.all_eq_true.mp hw.2 c hc
  rw [isInk, Bool.and_eq_true] at hink
  exact hink.2

theorem words_eq (hw : IsWord w) : words w = [w] := by
  rw [words, List.splitOnP_eq_singleton hw.isBlank_eq_false]
  simp [hw.1]

theorem words_append (hw : IsWord w) (rest : List Char) :
    words (w ++ ' ' :: rest) = w :: words rest := by
  rw [words, List.splitOnP_append_cons_of_forall_mem hw.isBlank_eq_false ' ' (by decide)]
  simp [hw.1, words]

theorem newline_notMem (hw : IsWord w) : '\n' ∉ w :=
  fun h => absurd (hw.isBlank_eq_false _ h) (by decide)

end IsWord

end Text

theorem Opcode.isWord_mnemonic (op : Opcode) : Text.IsWord op.mnemonic.toList := by
  cases op <;> decide

theorem Opcode.ofMnemonic?_mnemonic (op : Opcode) : ofMnemonic? op.mnemonic = some op := by
  cases op <;> rfl

theorem Word.isWord_text (w : Word) : Text.IsWord w.text := by
  have hdigits : (Decimal.ofNat w.toInt.natAbs).all Text.isInk = true :=
    List.all_eq_true.mpr fun c hc => Text.isInk_of_isDigit (Decimal.isDigit_of_mem_ofNat hc)
  rw [text, Decimal.ofInt]
  split
  · exact ⟨List.cons_ne_nil _ _, hdigits⟩
  · exact ⟨Decimal.ofNat_ne_nil _, hdigits⟩

namespace BitString

theorem all_isInk_letters (bits : BitString) : bits.letters.all Text.isInk = true := by
  rw [letters, List.all_map, List.all_eq_true]
  intro b _
  cases b <;> decide

theorem isWord_letters {bits : BitString} (h : bits ≠ []) : Text.IsWord bits.letters :=
  ⟨fun hnil => h (List.map_eq_nil_iff.mp hnil), all_isInk_letters bits⟩

end BitString

namespace Listing

theorem wordsOf_eq {line : List Char} (h : ∀ c ∈ line, (c != ';') = true) :
    wordsOf line = Text.words line := by
  rw [wordsOf, List.takeWhile_eq_self_iff.mpr h]

theorem wordsOf_word {w : List Char} (hw : Text.IsWord w) : wordsOf w = [w] := by
  rw [wordsOf_eq hw.ne_semicolon, hw.words_eq]

theorem wordsOf_pair {w v : List Char} (hw : Text.IsWord w) (hv : Text.IsWord v) :
    wordsOf (w ++ ' ' :: v) = [w, v] := by
  have hline : ∀ c ∈ w ++ ' ' :: v, (c != ';') = true := by
    rw [List.forall_mem_append, List.forall_mem_cons]
    exact ⟨hw.ne_semicolon, by decide, hv.ne_semicolon⟩
  rw [wordsOf_eq hline, hw.words_append, hv.words_eq]

theorem number?_bits (bits : BitString) : number? ('b' :: ':' :: bits.letters) = some bits :=
  BitString.ofLetters?_letters bits

theorem number?_text (w : Word) : number? w.text = some (BitString.ofNumber w) := by
  unfold number?
  split
  · next letters h =>
    -- A decimal text begins with a digit or a minus sign, never with b.
    rw [Word.text, Decimal.ofInt] at h
    split at h
    · cases h
    · have hdigit : 'b'.isDigit = true := Decimal.isDigit_of_mem_ofNat (h ▸ List.mem_cons_self)
      cases hdigit
  · rw [Word.ofText?_text, Option.map_some]

end Listing

namespace Instruction

/-- The instruction as a listing gives it back: on a new line, its number in normal form. -/
def relisted (i : Instruction) (line : Nat) : Instruction :=
  { i with
    param := if i.opcode.paramKind = .number then i.param.map BitString.normal else i.param
    line }

theorem param_relisted_of_number {i : Instruction} (h : i.opcode.paramKind = .number) (line : Nat) :
    (i.relisted line).param = i.param.map BitString.normal :=
  if_pos h

theorem param_relisted_of_ne {i : Instruction} (h : i.opcode.paramKind ≠ .number) (line : Nat) :
    (i.relisted line).param = i.param :=
  if_neg h

theorem relisted_of_body {i j : Instruction} {line : Nat} (h : j.body = (i.relisted line).body) :
    j = i.relisted j.line := by
  obtain ⟨hopcode, hparam⟩ := Prod.mk.inj h
  cases j
  exact congrArg₂ (fun op param => Instruction.mk op param _) hopcode hparam

theorem WellFormed.param_eq_none {i : Instruction} (hi : i.WellFormed)
    (h : i.opcode.paramKind = .none) : i.param = none :=
  Option.not_isSome_iff_eq_none.mp fun hsome => hi.mp hsome h

theorem WellFormed.exists_param {i : Instruction} (hi : i.WellFormed)
    (h : i.opcode.paramKind ≠ .none) : ∃ bits, i.param = some bits :=
  Option.isSome_iff_exists.mp (hi.mpr h)

theorem WellFormed.relisted {i : Instruction} (hi : i.WellFormed) (line : Nat) :
    (i.relisted line).WellFormed := by
  have hsome : (i.relisted line).param.isSome = i.param.isSome := by
    by_cases hkind : i.opcode.paramKind = .number
    · rw [param_relisted_of_number hkind, Option.isSome_map]
    · rw [param_relisted_of_ne hkind]
  rw [WellFormed, hsome]
  exact hi

theorem paramText_of_none {i : Instruction} (h : i.opcode.paramKind = .none) :
    i.paramText = none := by
  simp only [paramText, h]

theorem paramText_of_number {i : Instruction} {bits : BitString} {w : Word}
    (h : i.opcode.paramKind = .number) (hparam : i.param = some bits)
    (hw : bits.toNumber = .ok w) : i.paramText = some (String.ofList w.text) := by
  simp only [paramText, h, hparam, hw]

theorem paramText_of_wide {i : Instruction} {bits : BitString} {e : BitString.Overflow}
    (h : i.opcode.paramKind = .number) (hparam : i.param = some bits)
    (he : bits.toNumber = .error e) : i.paramText = some ("b:" ++ bits.name) := by
  simp only [paramText, h, hparam, he]

theorem paramText_of_label {i : Instruction} {bits : BitString}
    (h : i.opcode.paramKind = .label) (hparam : i.param = some bits) :
    i.paramText = if bits.isEmpty then none else some bits.name := by
  simp only [paramText, h, hparam]

/-- What is written after the mnemonic, nothing or one word, is read back in normal form. -/
theorem WellFormed.paramText_cases {i : Instruction} (hi : i.WellFormed) (line : Nat) :
    (i.paramText = none ∧ Listing.param line i.opcode none = .ok (i.relisted line).param) ∨
      ∃ text, i.paramText = some (String.ofList text) ∧ Text.IsWord text ∧
        Listing.param line i.opcode (some text) = .ok (i.relisted line).param := by
  cases hkind : i.opcode.paramKind with
  | none =>
    refine .inl ⟨paramText_of_none hkind, ?_⟩
    simp [Listing.param, Instruction.relisted, hkind, hi.param_eq_none hkind]
  | number =>
    obtain ⟨bits, hbits⟩ := hi.exists_param (by rw [hkind]; decide)
    right
    cases hnumber : bits.toNumber with
    | ok w =>
      have hnormal : bits.normal = BitString.ofNumber w := by rw [BitString.normal, hnumber]
      refine ⟨w.text, paramText_of_number hkind hbits hnumber, w.isWord_text, ?_⟩
      simp [Listing.param, Instruction.relisted, hkind, hbits, Listing.number?_text, hnormal]
    | error e =>
      have hnormal : bits.normal = bits := by rw [BitString.normal, hnumber]
      have htext : "b:" ++ bits.name = String.ofList ('b' :: ':' :: bits.letters) :=
        String.toList_injective (by simp [BitString.name])
      refine ⟨'b' :: ':' :: bits.letters, ?_, ⟨List.cons_ne_nil _ _, bits.all_isInk_letters⟩, ?_⟩
      · rw [paramText_of_wide hkind hbits hnumber, htext]
      · simp [Listing.param, Instruction.relisted, hkind, hbits, Listing.number?_bits, hnormal]
  | label =>
    obtain ⟨bits, hbits⟩ := hi.exists_param (by rw [hkind]; decide)
    have htext := paramText_of_label hkind hbits
    by_cases hempty : bits = []
    · subst hempty
      refine .inl ⟨htext, ?_⟩
      simp [Listing.param, Instruction.relisted, hkind, hbits]
    · rw [if_neg (by simpa using hempty)] at htext
      refine .inr ⟨bits.letters, htext, BitString.isWord_letters hempty, ?_⟩
      simp [Listing.param, Instruction.relisted, hkind, hbits, BitString.ofLetters?_letters]

/-- A line of a listing is the mnemonic alone, or followed by one word. -/
theorem WellFormed.listing_cases {i : Instruction} (hi : i.WellFormed) (line : Nat) :
    (i.listing.toList = i.opcode.mnemonic.toList ∧
        Listing.param line i.opcode none = .ok (i.relisted line).param) ∨
      ∃ text, i.listing.toList = i.opcode.mnemonic.toList ++ ' ' :: text ∧ Text.IsWord text ∧
        Listing.param line i.opcode (some text) = .ok (i.relisted line).param := by
  obtain ⟨hnone, hparam⟩ | ⟨text, hsome, htext, hparam⟩ := hi.paramText_cases line
  · left
    refine ⟨?_, hparam⟩
    simp only [listing, hnone]
  · right
    refine ⟨text, ?_, htext, hparam⟩
    simp [listing, hsome]

theorem WellFormed.newline_notMem_listing {i : Instruction} (hi : i.WellFormed) :
    '\n' ∉ i.listing.toList := by
  have hmnemonic := i.opcode.isWord_mnemonic.newline_notMem
  obtain ⟨hlisting, _⟩ | ⟨text, hlisting, htext, _⟩ := hi.listing_cases 0
  · rwa [hlisting]
  · have hrest : '\n' ∉ ' ' :: text :=
      List.not_mem_cons_of_ne_of_not_mem (by decide) htext.newline_notMem
    rw [hlisting]
    exact fun h => (List.mem_append.mp h).elim hmnemonic hrest

theorem WellFormed.instruction?_listing {i : Instruction} (hi : i.WellFormed) (line : Nat) :
    Listing.instruction? line (Listing.wordsOf i.listing.toList) =
      .ok (some (i.relisted line)) := by
  have hmnemonic := i.opcode.isWord_mnemonic
  have hread : Opcode.ofMnemonic? (String.ofList i.opcode.mnemonic.toList) = some i.opcode := by
    rw [String.ofList_toList, Opcode.ofMnemonic?_mnemonic]
  obtain ⟨hlisting, hparam⟩ | ⟨text, hlisting, htext, hparam⟩ := hi.listing_cases line
  · rw [hlisting, Listing.wordsOf_word hmnemonic]
    simp only [Listing.instruction?, hread, List.head?_nil, hparam]
    rfl
  · rw [hlisting, Listing.wordsOf_pair hmnemonic htext]
    simp only [Listing.instruction?, hread, List.head?_cons, hparam]
    rfl

theorem paramText_relisted (i : Instruction) (line : Nat) :
    (i.relisted line).paramText = i.paramText := by
  by_cases hkind : i.opcode.paramKind = .number
  · cases hparam : i.param with
    | none => simp only [paramText, relisted, hkind, hparam, if_pos, Option.map_none]
    | some bits =>
      have hrelisted : (i.relisted line).param = some bits.normal := by
        rw [param_relisted_of_number hkind, hparam, Option.map_some]
      cases hnumber : bits.toNumber with
      | ok w =>
        rw [paramText_of_number hkind hparam hnumber,
          paramText_of_number (i := i.relisted line) hkind hrelisted
            (bits.toNumber_normal.trans hnumber)]
      | error e =>
        have hnormal : bits.normal = bits := by rw [BitString.normal, hnumber]
        rw [hnormal] at hrelisted
        rw [paramText_of_wide hkind hparam hnumber,
          paramText_of_wide (i := i.relisted line) hkind hrelisted hnumber]
  · rw [relisted, if_neg hkind]
    rfl

/-- A listing of what was read from a listing is the same text. -/
theorem listing_relisted (i : Instruction) (line : Nat) :
    (i.relisted line).listing = i.listing := by
  rw [listing, listing, paramText_relisted]
  rfl

end Instruction

namespace Listing

theorem parseFrom_listing {is : List Instruction} (h : ∀ i ∈ is, i.WellFormed) (line : Nat)
    (read : Array Instruction) :
    parseFrom line read (is.map (·.listing.toList) ++ [[]]) =
      .ok (read.toList ++ is.mapIdx fun k i => i.relisted (line + k)) := by
  induction is generalizing line read with
  | nil => simp [parseFrom, wordsOf, Text.words, instruction?]
  | cons i is ih =>
    obtain ⟨hi, his⟩ := List.forall_mem_cons.mp h
    have hline : (fun k (j : Instruction) => j.relisted (line + (k + 1))) =
        fun k j => j.relisted (line + 1 + k) := by
      funext k j
      rw [Nat.add_right_comm, Nat.add_assoc]
    rw [List.map_cons, List.cons_append, parseFrom, hi.instruction?_listing line]
    simp only [ih his]
    rw [List.mapIdx_cons, hline, Array.toList_push, List.append_assoc]
    rfl

end Listing

namespace Program

theorem lines_listing {p : Program} (h : ∀ i ∈ p.instructions.toList, i.WellFormed) :
    Text.lines p.listing.toList = p.instructions.toList.map (·.listing.toList) ++ [[]] := by
  have hlines : p.listing = Text.ofLines (p.instructions.toList.map (·.listing)) := by
    rw [listing, Text.ofLines, List.map_map]
    rfl
  rw [hlines, Text.lines_ofLines, List.map_map]
  · rfl
  · rw [List.forall_mem_map]
    exact fun i hi => (h i hi).newline_notMem_listing

theorem parse_listing {p : Program} (h : ∀ i ∈ p.instructions.toList, i.WellFormed) :
    Listing.parse p.listing.toList =
      .ok (p.instructions.toList.mapIdx fun k i => i.relisted (k + 1)) := by
  rw [Listing.parse, lines_listing h, Listing.parseFrom_listing h]
  simp [Nat.add_comm]

end Program

end Whitespace
