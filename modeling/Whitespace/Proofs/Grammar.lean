import Whitespace.Program.Parser
import Whitespace.Proofs.Scanning

/-!
The parser accepts exactly the grammar. A choice between opcodes is the set of its paths, and the
paths of the choice between all of them are the opcodes' encodings. So an instruction is read off
the front of a token stream exactly if its encoding stands there, and a whole program exactly if
the stream is made of such encodings.
-/
namespace Whitespace

def Bit.token : Bit → Token
  | .space => .space
  | .tab => .tab

theorem Bit.ofByte?_byte (b : Bit) : Token.ofByte? b.byte = some b.token := by
  cases b <;> rfl

theorem Token.ofBytes_bits (bits : BitString) :
    ofBytes (bits.map Bit.byte) = bits.map Bit.token := by
  induction bits with
  | nil => rfl
  | cons b bits ih =>
    rw [ofBytes] at ih ⊢
    rw [List.map_cons, List.filterMap_cons_some b.ofByte?_byte, ih, List.map_cons]

def Opcode.tokens (op : Opcode) : List Token := Token.ofBytes op.encoding

namespace Instruction

/-- A literal is there exactly if the opcode takes one. -/
def WellFormed (i : Instruction) : Prop := i.param.isSome = true ↔ i.opcode.paramKind ≠ .none

instance (i : Instruction) : Decidable i.WellFormed :=
  inferInstanceAs (Decidable (i.param.isSome = true ↔ i.opcode.paramKind ≠ .none))

/-- All but the line. -/
def body (i : Instruction) : Opcode × Option BitString := (i.opcode, i.param)

def tokens (i : Instruction) : List Token := Token.ofBytes i.encode

theorem tokens_of_none {i : Instruction} (h : i.opcode.paramKind = .none) :
    i.tokens = i.opcode.tokens := by
  rw [tokens, encode, h]
  rfl

theorem encode_of_literal {i : Instruction} (h : i.opcode.paramKind ≠ .none) :
    i.encode = i.opcode.encoding ++ (i.param.getD []).map Bit.byte ++ [Byte.lf] := by
  rw [encode]
  split
  · next hnone => exact absurd hnone h
  · rfl

theorem tokens_of_literal {i : Instruction} (h : i.opcode.paramKind ≠ .none) :
    i.tokens = i.opcode.tokens ++ ((i.param.getD []).map Bit.token ++ [.linefeed]) := by
  rw [tokens, encode_of_literal h, Token.ofBytes_append, Token.ofBytes_append, Token.ofBytes_bits,
    List.append_assoc]
  rfl

theorem encodeAll_cons (i : Instruction) (is : List Instruction) :
    encodeAll (i :: is) = i.encode ++ encodeAll is :=
  List.flatMap_cons

theorem encode_of_body {i j : Instruction} (h : i.body = j.body) : i.encode = j.encode := by
  obtain ⟨hop, hparam⟩ := Prod.mk.inj h
  rw [encode, encode, hop, hparam]

theorem encodeAll_of_body {is js : List Instruction} (h : is.map body = js.map body) :
    encodeAll is = encodeAll js := by
  induction is generalizing js with
  | nil => rw [List.map_eq_nil_iff.mp h.symm]
  | cons i is ih =>
    obtain ⟨j, js, rfl, hj, hjs⟩ := List.map_eq_cons_iff.mp h.symm
    rw [encodeAll_cons, encodeAll_cons, encode_of_body hj, ih hjs.symm]

theorem ofBytes_encodeAll (is : List Instruction) :
    Token.ofBytes (encodeAll is) = is.flatMap tokens := by
  induction is with
  | nil => rfl
  | cons i is ih =>
    rw [encodeAll_cons, Token.ofBytes_append, ih, List.flatMap_cons, tokens]

theorem filter_encode (i : Instruction) : i.encode.filter Byte.significant = i.encode := by
  have hcode : i.opcode.encoding.filter Byte.significant = i.opcode.encoding := by
    cases i.opcode <;> rfl
  have hbits : ∀ bits : BitString,
      (bits.map Bit.byte).filter Byte.significant = bits.map Bit.byte := by
    intro bits
    rw [List.filter_eq_self]
    intro b hb
    obtain ⟨bit, _, rfl⟩ := List.mem_map.mp hb
    cases bit <;> rfl
  rw [encode]
  split
  · exact hcode
  · rw [List.filter_append, List.filter_append, hcode, hbits]
    rfl

theorem filter_encodeAll (is : List Instruction) :
    (encodeAll is).filter Byte.significant = encodeAll is := by
  induction is with
  | nil => rfl
  | cons i is ih => rw [encodeAll_cons, List.filter_append, filter_encode, ih]

end Instruction

namespace Parser

/-- The same ends of paths after one token more. -/
def under {α : Type} (t : Token) (paths : List (List Token × α)) : List (List Token × α) :=
  paths.map fun path => (t :: path.1, path.2)

/-- All ways through a choice to an opcode. -/
def Choice.paths : Choice → List (List Token × Opcode)
  | .opcode op => [([], op)]
  | .unknown _ => []
  | .next space tab linefeed =>
    under .space space.paths ++ under .tab tab.paths ++ under .linefeed linefeed.paths

theorem mem_under {α : Type} {t : Token} {paths : List (List Token × α)} {ts : List Token} {x : α} :
    (ts, x) ∈ under t paths ↔ ∃ rest, ts = t :: rest ∧ (rest, x) ∈ paths := by
  simp only [under, List.mem_map, Prod.mk.injEq, Prod.exists]
  constructor
  · rintro ⟨rest, x', hmem, rfl, rfl⟩
    exact ⟨rest, rfl, hmem⟩
  · rintro ⟨rest, rfl, hmem⟩
    exact ⟨rest, x, hmem, rfl, rfl⟩

theorem mem_paths_next {space tab linefeed : Choice} {ts : List Token} {op : Opcode} :
    (ts, op) ∈ (Choice.next space tab linefeed).paths ↔
      ∃ t rest, ts = t :: rest ∧
        (t = .space ∧ (rest, op) ∈ space.paths ∨ t = .tab ∧ (rest, op) ∈ tab.paths ∨
          t = .linefeed ∧ (rest, op) ∈ linefeed.paths) := by
  simp only [Choice.paths, List.mem_append, mem_under]
  constructor
  · rintro ((⟨rest, rfl, h⟩ | ⟨rest, rfl, h⟩) | ⟨rest, rfl, h⟩)
    · exact ⟨_, rest, rfl, .inl ⟨rfl, h⟩⟩
    · exact ⟨_, rest, rfl, .inr (.inl ⟨rfl, h⟩)⟩
    · exact ⟨_, rest, rfl, .inr (.inr ⟨rfl, h⟩)⟩
  · rintro ⟨t, rest, rfl, ⟨rfl, h⟩ | ⟨rfl, h⟩ | ⟨rfl, h⟩⟩
    · exact .inl (.inl ⟨rest, rfl, h⟩)
    · exact .inl (.inr ⟨rest, rfl, h⟩)
    · exact .inr ⟨rest, rfl, h⟩

variable {c : Choice} {ts front rest : List Spanned} {op : Opcode}

theorem path_of_select (h : select c ts = .opcode op rest) :
    ∃ front, ts = front ++ rest ∧ (front.map Spanned.token, op) ∈ c.paths := by
  fun_induction select c ts with
  | case1 op' ts =>
    cases h
    exact ⟨[], rfl, List.mem_singleton_self _⟩
  | case2 | case3 | case7 => cases h
  | case4 space tab linefeed t ts ht ih =>
    obtain ⟨front, rfl, hmem⟩ := ih h
    exact ⟨t :: front, rfl, mem_paths_next.mpr ⟨_, _, rfl, .inl ⟨ht, hmem⟩⟩⟩
  | case5 space tab linefeed t ts ht ih =>
    obtain ⟨front, rfl, hmem⟩ := ih h
    exact ⟨t :: front, rfl, mem_paths_next.mpr ⟨_, _, rfl, .inr (.inl ⟨ht, hmem⟩)⟩⟩
  | case6 space tab linefeed t ts ht ih =>
    obtain ⟨front, rfl, hmem⟩ := ih h
    exact ⟨t :: front, rfl, mem_paths_next.mpr ⟨_, _, rfl, .inr (.inr ⟨ht, hmem⟩)⟩⟩

theorem select_of_path (h : (front.map Spanned.token, op) ∈ c.paths) (rest : List Spanned) :
    select c (front ++ rest) = .opcode op rest := by
  induction c generalizing front with
  | opcode op' =>
    simp only [Choice.paths, List.mem_singleton, Prod.mk.injEq, List.map_eq_nil_iff] at h
    obtain ⟨rfl, rfl⟩ := h
    rw [List.nil_append, select]
  | unknown family => cases h
  | next space tab linefeed ihs iht ihl =>
    obtain ⟨t, path, htokens, h⟩ := mem_paths_next.mp h
    obtain ⟨s, front, rfl, rfl, rfl⟩ := List.map_eq_cons_iff.mp htokens
    rw [List.cons_append, select]
    rcases h with ⟨ht, h⟩ | ⟨ht, h⟩ | ⟨ht, h⟩
    · rw [ht]; exact ihs h
    · rw [ht]; exact iht h
    · rw [ht]; exact ihl h

theorem mem_paths_anyChoice {ts : List Token} : (ts, op) ∈ anyChoice.paths ↔ ts = op.tokens := by
  constructor
  · have hall : ∀ path ∈ anyChoice.paths, path.1 = path.2.tokens := by decide
    exact hall (ts, op)
  · rintro rfl
    have hall : ∀ op ∈ Opcode.all, (op.tokens, op) ∈ anyChoice.paths := by decide
    exact hall op op.mem_all

theorem literal?_bit (bits : BitString) (b : Bit) (line : Nat) (ts : List Spanned) :
    literal? bits (⟨b.token, line⟩ :: ts) = literal? (b :: bits) ts := by
  cases b <;> rfl

theorem literal?_append {bits : BitString} (w : BitString)
    (h : front.map Spanned.token = w.map Bit.token ++ [.linefeed]) (rest : List Spanned) :
    literal? bits (front ++ rest) = some (bits.reverse ++ w, rest) := by
  induction w generalizing bits front with
  | nil =>
    obtain ⟨s, hfront, hs⟩ := List.map_eq_singleton_iff.mp h
    obtain ⟨token, line⟩ := s
    cases hs
    rw [hfront, List.cons_append, literal?, List.append_nil, List.nil_append]
  | cons b w ih =>
    obtain ⟨s, front, rfl, hs, htail⟩ := List.map_eq_cons_iff.mp h
    obtain ⟨token, line⟩ := s
    subst hs
    rw [List.cons_append, literal?_bit, ih htail, List.reverse_cons, List.append_assoc]
    rfl

theorem front_of_literal? {bits out : BitString} (h : literal? bits ts = some (out, rest)) :
    ∃ front w, ts = front ++ rest ∧ out = bits.reverse ++ w ∧
      front.map Spanned.token = w.map Bit.token ++ [.linefeed] := by
  fun_induction literal? bits ts with
  | case1 bits line ts ih =>
    obtain ⟨front, w, rfl, hout, hw⟩ := ih h
    refine ⟨⟨.space, line⟩ :: front, .space :: w, rfl, ?_, ?_⟩
    · rw [hout, List.reverse_cons, List.append_assoc]
      rfl
    · rw [List.map_cons, hw]
      rfl
  | case2 bits line ts ih =>
    obtain ⟨front, w, rfl, hout, hw⟩ := ih h
    refine ⟨⟨.tab, line⟩ :: front, .tab :: w, rfl, ?_, ?_⟩
    · rw [hout, List.reverse_cons, List.append_assoc]
      rfl
    · rw [List.map_cons, hw]
      rfl
  | case3 bits line ts =>
    cases h
    exact ⟨[⟨.linefeed, line⟩], [], rfl, (List.append_nil _).symm, rfl⟩
  | case4 => cases h

theorem instruction_append {i : Instruction} (hi : i.WellFormed)
    (h : front.map Spanned.token = i.tokens) (hline : i.line = lineOf (front ++ rest)) :
    instruction (front ++ rest) = .ok (i, rest) := by
  obtain ⟨op, param, line⟩ := i
  subst hline
  by_cases hkind : op.paramKind = .none
  · rw [Instruction.tokens_of_none hkind] at h
    have hparam : param = none := by
      cases param with
      | none => rfl
      | some bits => exact absurd hkind (hi.mp rfl)
    have hselect := select_of_path (mem_paths_anyChoice.mpr h) rest
    simp only [instruction, hselect, hkind, hparam]
  · rw [Instruction.tokens_of_literal hkind] at h
    obtain ⟨code, digits, rfl, hcode, hdigits⟩ := List.map_eq_append_iff.mp h
    obtain ⟨bits, rfl⟩ := Option.isSome_iff_exists.mp (hi.mpr hkind)
    have hselect := select_of_path (mem_paths_anyChoice.mpr hcode) (digits ++ rest)
    have hliteral : literal? [] (digits ++ rest) = some (bits, rest) :=
      literal?_append bits hdigits rest
    rw [List.append_assoc]
    simp only [instruction, hselect, hliteral]

theorem front_of_instruction {i : Instruction} (h : instruction ts = .ok (i, rest)) :
    i.WellFormed ∧ i.line = lineOf ts ∧
      ∃ front, ts = front ++ rest ∧ front.map Spanned.token = i.tokens := by
  unfold instruction at h
  split at h
  · cases h
  · cases h
  · next op mid hselect =>
    obtain ⟨code, rfl, hpath⟩ := path_of_select hselect
    have hcode := mem_paths_anyChoice.mp hpath
    split at h
    · next hkind =>
      cases h
      refine ⟨by simp [Instruction.WellFormed, hkind], rfl, code, rfl, ?_⟩
      rw [hcode, Instruction.tokens_of_none hkind]
    · next hkind =>
      split at h
      · cases h
      · next bits rest' hliteral =>
        cases h
        obtain ⟨digits, w, rfl, hw, hdigits⟩ := front_of_literal? hliteral
        refine ⟨⟨fun _ => hkind, fun _ => rfl⟩, rfl, code ++ digits, ?_, ?_⟩
        · rw [List.append_assoc]
        · rw [List.map_append, hcode, hdigits, Instruction.tokens_of_literal hkind, hw]
          rfl

/-- The stream is that of the instructions, each on the line on which it starts, and an end. -/
inductive Reads : List Spanned → List Instruction → Prop where
  | eof (line : Nat) : Reads [⟨.eof, line⟩] []
  | cons {front rest : List Spanned} {i : Instruction} {is : List Instruction}
      (hi : i.WellFormed) (hline : i.line = lineOf (front ++ rest))
      (htokens : front.map Spanned.token = i.tokens) (h : Reads rest is) :
      Reads (front ++ rest) (i :: is)

theorem program_of_instruction {i : Instruction} (h : instruction ts = .ok (i, rest))
    (p : Program) : program p ts = program (p.add i) rest := by
  fun_cases program p ts with
  | case1 => cases h
  | case2 => cases h
  | case3 t ts hne e herror =>
    rw [h] at herror
    cases herror
  | case4 t ts hne i' rest' hok =>
    rw [h] at hok
    cases hok
    rfl

theorem program_of_reads {is : List Instruction} (h : Reads ts is) (p : Program) :
    program p ts = .ok (is.foldl Program.add p) := by
  induction h generalizing p with
  | eof line => rw [program, List.foldl_nil]
  | cons hi hline htokens h ih =>
    rw [program_of_instruction (instruction_append hi htokens hline), ih, List.foldl_cons]

/-- What has no `eof` in it ends before the last one. -/
theorem append_eof_cases {a b tokens : List Token} (h : a ++ b = tokens ++ [.eof])
    (ha : .eof ∉ a) : ∃ rest, tokens = a ++ rest ∧ b = rest ++ [.eof] := by
  induction a generalizing tokens with
  | nil => exact ⟨tokens, rfl, h⟩
  | cons x a ih =>
    cases tokens with
    | nil =>
      obtain ⟨hx, _⟩ := List.cons.inj h
      exact absurd (hx ▸ List.mem_cons_self) ha
    | cons y tokens =>
      obtain ⟨rfl, htail⟩ := List.cons.inj h
      obtain ⟨rest, rfl, hb⟩ := ih htail fun hmem => ha (List.mem_cons_of_mem x hmem)
      exact ⟨rest, rfl, hb⟩

theorem reads_of_program {p q : Program} {tokens : List Token}
    (hts : ts.map Spanned.token = tokens ++ [.eof]) (heof : .eof ∉ tokens)
    (h : program p ts = .ok q) : ∃ is, Reads ts is ∧ q = is.foldl Program.add p := by
  fun_induction program p ts generalizing tokens with
  | case1 p => cases tokens <;> cases hts
  | case2 p line ts =>
    cases h
    cases tokens with
    | nil =>
      obtain ⟨_, hnil⟩ := List.cons.inj hts
      rw [List.map_eq_nil_iff.mp hnil]
      exact ⟨[], .eof line, rfl⟩
    | cons t tokens =>
      obtain ⟨ht, _⟩ := List.cons.inj hts
      exact absurd (ht ▸ List.mem_cons_self) heof
  | case3 => cases h
  | case4 p t ts _ i rest hinstruction ih =>
    obtain ⟨hi, hline, front, hfront, htokens⟩ := front_of_instruction hinstruction
    rw [hfront, List.map_append, htokens] at hts
    obtain ⟨tokens', rfl, hrest⟩ := append_eof_cases hts (Token.eof_notMem_ofBytes _)
    obtain ⟨is, hreads, rfl⟩ := ih hrest (fun h => heof (List.mem_append_right _ h)) h
    rw [hfront] at hline ⊢
    exact ⟨i :: is, .cons hi hline htokens hreads, rfl⟩

theorem Reads.tokens {is : List Instruction} (h : Reads ts is) :
    ts.map Spanned.token = is.flatMap Instruction.tokens ++ [.eof] := by
  induction h with
  | eof line => rfl
  | cons hi hline htokens h ih =>
    rw [List.map_append, htokens, ih, List.flatMap_cons, List.append_assoc]

theorem Reads.wellFormed {is : List Instruction} (h : Reads ts is) :
    ∀ i ∈ is, i.WellFormed := by
  induction h with
  | eof line => exact nofun
  | cons hi hline htokens h ih => exact List.forall_mem_cons.mpr ⟨hi, ih⟩

theorem reads_of_tokens {l : List Instruction} (hl : ∀ i ∈ l, i.WellFormed)
    (hts : ts.map Spanned.token = l.flatMap Instruction.tokens ++ [.eof]) :
    ∃ is, Reads ts is ∧ is.map Instruction.body = l.map Instruction.body := by
  induction l generalizing ts with
  | nil =>
    obtain ⟨s, rfl, hs⟩ := List.map_eq_singleton_iff.mp hts
    obtain ⟨token, line⟩ := s
    cases hs
    exact ⟨[], .eof line, rfl⟩
  | cons i l ih =>
    rw [List.flatMap_cons, List.append_assoc] at hts
    obtain ⟨front, rest, rfl, htokens, hrest⟩ := List.map_eq_append_iff.mp hts
    obtain ⟨is, hreads, hbody⟩ := ih (fun j hj => hl j (List.mem_cons_of_mem i hj)) hrest
    have hi : i.WellFormed := hl i List.mem_cons_self
    refine ⟨{ i with line := lineOf (front ++ rest) } :: is, .cons hi rfl htokens hreads, ?_⟩
    rw [List.map_cons, List.map_cons, hbody]
    rfl

end Parser

namespace Program

theorem toList_foldl_add (is : List Instruction) (p : Program) :
    (is.foldl add p).instructions.toList = p.instructions.toList ++ is := by
  induction is generalizing p with
  | nil => simp
  | cons i is ih =>
    have hadd : (p.add i).instructions = p.instructions.push i := by
      unfold add
      split <;> rfl
    rw [List.foldl_cons, ih, hadd, Array.toList_push, List.append_assoc]
    rfl

/-- A source parses to the instructions that its stream reads as. -/
theorem parse_eq_ok_iff {source : List UInt8} {p : Program} :
    parse source = .ok p ↔
      ∃ is, Parser.Reads (Scanner.ofBytes source).drain is ∧ p = is.foldl add empty := by
  constructor
  · exact Parser.reads_of_program (Scanner.map_token_drain source) (Token.eof_notMem_ofBytes source)
  · rintro ⟨is, hreads, rfl⟩
    exact Parser.program_of_reads hreads empty

theorem reads_of_parse {source : List UInt8} {p : Program} (h : parse source = .ok p) :
    Parser.Reads (Scanner.ofBytes source).drain p.instructions.toList := by
  obtain ⟨is, hreads, rfl⟩ := parse_eq_ok_iff.mp h
  rw [toList_foldl_add]
  exact hreads

theorem encode_of_parse {source : List UInt8} {p : Program} (h : parse source = .ok p) :
    source.filter Byte.significant = p.encode := by
  have htokens := (reads_of_parse h).tokens
  rw [Scanner.map_token_drain] at htokens
  rw [encode, Token.filter_significant_eq_iff (Instruction.filter_encodeAll _),
    Instruction.ofBytes_encodeAll]
  exact List.append_cancel_right htokens

theorem parse_of_filter {source : List UInt8} {l : List Instruction}
    (hl : ∀ i ∈ l, i.WellFormed)
    (h : source.filter Byte.significant = Instruction.encodeAll l) :
    ∃ p, parse source = .ok p ∧
      p.instructions.toList.map Instruction.body = l.map Instruction.body := by
  rw [Token.filter_significant_eq_iff (Instruction.filter_encodeAll _),
    Instruction.ofBytes_encodeAll] at h
  have hstream : (Scanner.ofBytes source).drain.map Spanned.token =
      l.flatMap Instruction.tokens ++ [.eof] := by
    rw [Scanner.map_token_drain, h]
  obtain ⟨is, hreads, hbody⟩ := Parser.reads_of_tokens hl hstream
  refine ⟨is.foldl add empty, parse_eq_ok_iff.mpr ⟨is, hreads, rfl⟩, ?_⟩
  rw [toList_foldl_add]
  exact hbody

theorem parse_iff_filter {source : List UInt8} {l : List Instruction}
    (hl : ∀ i ∈ l, i.WellFormed) :
    (∃ p, parse source = .ok p ∧
      p.instructions.toList.map Instruction.body = l.map Instruction.body) ↔
      source.filter Byte.significant = Instruction.encodeAll l := by
  constructor
  · rintro ⟨p, hparse, hbody⟩
    rw [encode_of_parse hparse]
    exact Instruction.encodeAll_of_body hbody
  · exact parse_of_filter hl

/-- A source parses to a sequence of instructions exactly if, without its comments, it is their
encoding. So every sequence is read back from its encoding, every source that parses is the
encoding of what it parses to but for its comments, and no two sequences have one encoding. -/
theorem parse_exactly_encodings :
    (∀ (source : List UInt8) (l : List Instruction), (∀ i ∈ l, i.WellFormed) →
      ((∃ p, parse source = .ok p ∧
        p.instructions.toList.map Instruction.body = l.map Instruction.body) ↔
        source.filter Byte.significant = Instruction.encodeAll l)) ∧
    (∀ l : List Instruction, (∀ i ∈ l, i.WellFormed) →
      ∃ p, parse (Instruction.encodeAll l) = .ok p ∧
        p.instructions.toList.map Instruction.body = l.map Instruction.body) ∧
    (∀ (source : List UInt8) (p : Program), parse source = .ok p →
      (∀ i ∈ p.instructions.toList, i.WellFormed) ∧
        p.encode = source.filter Byte.significant) ∧
    ∀ l l' : List Instruction, (∀ i ∈ l, i.WellFormed) → (∀ i ∈ l', i.WellFormed) →
      Instruction.encodeAll l = Instruction.encodeAll l' →
        l.map Instruction.body = l'.map Instruction.body := by
  refine ⟨fun source l hl => parse_iff_filter hl, fun l hl => ?_, fun source p h => ?_, ?_⟩
  · exact parse_of_filter hl (Instruction.filter_encodeAll l)
  · exact ⟨(reads_of_parse h).wellFormed, (encode_of_parse h).symm⟩
  · intro l l' hl hl' hencode
    have hfilter := Instruction.filter_encodeAll l
    obtain ⟨p, hp, hbody⟩ := parse_of_filter hl hfilter
    obtain ⟨p', hp', hbody'⟩ := parse_of_filter hl' (hfilter.trans hencode)
    rw [hp] at hp'
    cases hp'
    rw [← hbody, hbody']

/-- Pushes 1, marks the empty label and halts, with letters strewn in. -/
def strewn : List UInt8 := [97, 32, 32, 98, 32, 9, 10, 10, 99, 32, 32, 10, 10, 10, 100, 10, 101]

theorem strewn_parses :
    ∃ p, parse strewn = .ok p ∧
      p.instructions.toList.map Instruction.body =
        [(.push, some [.space, .tab]), (.mark, some []), (.halt, none)] :=
  (parse_exactly_encodings.1 strewn
    [⟨.push, some [.space, .tab], 0⟩, ⟨.mark, some [], 0⟩, ⟨.halt, none, 0⟩] (by decide)).mpr
    (by decide)

end Program

end Whitespace
