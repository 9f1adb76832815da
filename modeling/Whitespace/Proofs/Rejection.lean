import Whitespace.Proofs.Grammar

/-!
Where reading fails. The front of a source is read as whole instructions for as long as one stands
there, and something remains. If an instruction begins with it, the source is cut short, and the
error stands at its end. If none does, the error stands right after the first token that rules out
all of them, and names the family that the tokens before had chosen.
-/
namespace Whitespace

open Byte in
/-- The bytes with which the operations of the family begin, and those of no other. -/
def Family.lead : Family → List UInt8
  | .stack => [sp]
  | .arithmetic => [ht, sp]
  | .heap => [ht, ht]
  | .flow => [lf]
  | .io => [ht, lf]

namespace Instruction

/-- Some instruction begins with `bytes`. -/
def Viable (bytes : List UInt8) : Prop :=
  ∃ i : Instruction, i.WellFormed ∧ bytes <+: i.encode

/-- Some instruction begins with `bytes`, and there is more to it. -/
def CutShort (bytes : List UInt8) : Prop :=
  ∃ i : Instruction, i.WellFormed ∧ bytes <+: i.encode ∧ bytes ≠ i.encode

/-- The shortest front of `bytes` with which no instruction begins. -/
structure FirstDead (bytes front : List UInt8) : Prop where
  isPrefix : front <+: bytes
  dead : ¬ Viable front
  least : ∀ other, other <+: bytes → ¬ Viable other → front.length ≤ other.length

/-- But for its comments the source is `is`, and then `rest`, which has no instruction in front. -/
structure Remains (source : List UInt8) (is : List Instruction) (rest : List UInt8) : Prop where
  wellFormed : ∀ i ∈ is, i.WellFormed
  filter_eq : source.filter Byte.significant = encodeAll is ++ rest
  stuck : ∀ i : Instruction, i.WellFormed → ¬ i.encode <+: rest

variable {bytes front : List UInt8} {op : Opcode}

theorem encoding_isPrefix (i : Instruction) : i.opcode.encoding <+: i.encode := by
  rw [encode]
  split
  · exact List.prefix_rfl
  · rw [List.append_assoc]
    exact List.prefix_append _ _

theorem exists_wellFormed (op : Opcode) : ∃ i : Instruction, i.WellFormed ∧ i.opcode = op := by
  by_cases hkind : op.paramKind = .none
  · exact ⟨⟨op, none, 0⟩, by simp [WellFormed, hkind], rfl⟩
  · exact ⟨⟨op, some [], 0⟩, by simp [WellFormed, hkind], rfl⟩

theorem viable_of_encoding (h : bytes <+: op.encoding) : Viable bytes := by
  obtain ⟨i, hi, rfl⟩ := exists_wellFormed op
  exact ⟨i, hi, h.trans i.encoding_isPrefix⟩

theorem cutShort_of_encoding (h : bytes <+: op.encoding) (hne : bytes ≠ op.encoding) :
    CutShort bytes := by
  obtain ⟨i, hi, rfl⟩ := exists_wellFormed op
  refine ⟨i, hi, h.trans i.encoding_isPrefix, ?_⟩
  rintro rfl
  exact hne (h.eq_of_length_le i.encoding_isPrefix.length_le)

theorem cutShort_of_literal (h : op.paramKind ≠ .none) (bits : BitString) :
    CutShort (op.encoding ++ bits.map Bit.byte) := by
  refine ⟨⟨op, some bits, 0⟩, ⟨fun _ => h, fun _ => rfl⟩, ?_, ?_⟩
  · rw [encode_of_literal h]
    exact List.prefix_append _ _
  · rw [encode_of_literal h]
    exact fun heq => List.cons_ne_nil _ _ (List.self_eq_append_right.mp heq)

/-- An instruction begins with its opcode, so bytes that part from every opcode are dead. -/
theorem not_viable_of_apart
    (h : ∀ op : Opcode, ¬ bytes <+: op.encoding ∧ ¬ op.encoding <+: bytes) : ¬ Viable bytes := by
  rintro ⟨i, _, hbytes⟩
  rcases List.prefix_or_prefix_of_prefix hbytes i.encoding_isPrefix with hshort | hlong
  · exact (h i.opcode).1 hshort
  · exact (h i.opcode).2 hlong

theorem Viable.of_isPrefix (h : Viable bytes) (hfront : front <+: bytes) : Viable front := by
  obtain ⟨i, hi, hbytes⟩ := h
  exact ⟨i, hi, hfront.trans hbytes⟩

theorem CutShort.viable (h : CutShort bytes) : Viable bytes := by
  obtain ⟨i, hi, hbytes, _⟩ := h
  exact ⟨i, hi, hbytes⟩

theorem FirstDead.not_cutShort (h : FirstDead bytes front) : ¬ CutShort bytes :=
  fun hcut => h.dead (hcut.viable.of_isPrefix h.isPrefix)

/-- If the front was alive one token before its end, then it was alive all along. -/
theorem firstDead_of_dropLast (hfront : front <+: bytes) (hdead : ¬ Viable front)
    (hlast : Viable front.dropLast) : FirstDead bytes front := by
  refine ⟨hfront, hdead, fun other hother hdead' => ?_⟩
  by_contra hlt
  have hshort : other.length ≤ front.dropLast.length := by
    rw [List.length_dropLast]
    omega
  have hlastBytes : front.dropLast <+: bytes := (List.dropLast_prefix front).trans hfront
  exact hdead' (hlast.of_isPrefix (List.prefix_of_prefix_length_le hother hlastBytes hshort))

theorem length_encode_pos (i : Instruction) : 0 < i.encode.length := by
  have hcode : 0 < i.opcode.encoding.length := by cases i.opcode <;> decide
  exact Nat.lt_of_lt_of_le hcode i.encoding_isPrefix.length_le

/-- Instructions can be taken off the front until none stands there. -/
theorem exists_split (bytes : List UInt8) : ∃ (is : List Instruction) (rest : List UInt8),
    (∀ i ∈ is, i.WellFormed) ∧ bytes = encodeAll is ++ rest ∧
      ∀ i : Instruction, i.WellFormed → ¬ i.encode <+: rest := by
  by_cases hfront : ∃ i : Instruction, i.WellFormed ∧ i.encode <+: bytes
  · obtain ⟨i, hi, tail, htail⟩ := hfront
    have hshorter : tail.length < bytes.length := by
      rw [← htail, List.length_append]
      exact Nat.lt_add_of_pos_left i.length_encode_pos
    obtain ⟨is, rest, hwf, heq, hstuck⟩ := exists_split tail
    refine ⟨i :: is, rest, List.forall_mem_cons.mpr ⟨hi, hwf⟩, ?_, hstuck⟩
    rw [encodeAll_cons, List.append_assoc, ← heq, htail]
  · exact ⟨[], bytes, by simp, rfl, fun i hi h => hfront ⟨i, hi, h⟩⟩
termination_by bytes.length

theorem exists_remains (source : List UInt8) : ∃ is rest, Remains source is rest := by
  obtain ⟨is, rest, hwf, heq, hstuck⟩ := exists_split (source.filter Byte.significant)
  exact ⟨is, rest, hwf, heq, hstuck⟩

/-- What remains has no comments. -/
theorem Remains.filter_rest {source rest : List UInt8} {is : List Instruction}
    (h : Remains source is rest) : rest.filter Byte.significant = rest := by
  rw [List.filter_eq_self]
  intro b hb
  have hmem : b ∈ source.filter Byte.significant := by
    rw [h.filter_eq]
    exact List.mem_append_right _ hb
  exact (List.mem_filter.mp hmem).2

end Instruction

namespace Parser

open Instruction

/-- Where a choice can come to an end without an opcode: it waits for one more token, or it gives up
on a family. -/
def Choice.stops : Choice → List (List Token × Option Family)
  | .opcode _ => []
  | .unknown family => [([], some family)]
  | .next space tab linefeed =>
    ([], none) ::
      (under .space space.stops ++ under .tab tab.stops ++ under .linefeed linefeed.stops)

variable {c : Choice} {ts rest : List Spanned} {tokens : List Token} {family : Family}
  {e : ParseError}

theorem mem_stops_next {space tab linefeed : Choice} {t : Token} {stop : Option Family}
    (h : t = .space ∧ (tokens, stop) ∈ space.stops ∨ t = .tab ∧ (tokens, stop) ∈ tab.stops ∨
      t = .linefeed ∧ (tokens, stop) ∈ linefeed.stops) :
    (t :: tokens, stop) ∈ (Choice.next space tab linefeed).stops := by
  simp only [Choice.stops, List.mem_cons, List.mem_append, mem_under]
  rcases h with ⟨rfl, h⟩ | ⟨rfl, h⟩ | ⟨rfl, h⟩
  · exact .inr (.inl (.inl ⟨tokens, rfl, h⟩))
  · exact .inr (.inl (.inr ⟨tokens, rfl, h⟩))
  · exact .inr (.inr ⟨tokens, rfl, h⟩)

theorem stop_of_unknown (h : select c ts = .unknown family rest) :
    ∃ front, ts = front ++ rest ∧ (front.map Spanned.token, some family) ∈ c.stops := by
  fun_induction select c ts with
  | case1 | case3 | case7 => cases h
  | case2 family' ts =>
    cases h
    exact ⟨[], rfl, List.mem_singleton_self _⟩
  | case4 space tab linefeed t ts ht ih =>
    obtain ⟨front, rfl, hmem⟩ := ih h
    exact ⟨t :: front, rfl, mem_stops_next (.inl ⟨ht, hmem⟩)⟩
  | case5 space tab linefeed t ts ht ih =>
    obtain ⟨front, rfl, hmem⟩ := ih h
    exact ⟨t :: front, rfl, mem_stops_next (.inr (.inl ⟨ht, hmem⟩))⟩
  | case6 space tab linefeed t ts ht ih =>
    obtain ⟨front, rfl, hmem⟩ := ih h
    exact ⟨t :: front, rfl, mem_stops_next (.inr (.inr ⟨ht, hmem⟩))⟩

theorem stop_of_cut (h : select c ts = .cut) (hts : ts.map Spanned.token = tokens ++ [.eof])
    (heof : .eof ∉ tokens) : (tokens, none) ∈ c.stops := by
  induction c generalizing ts tokens with
  | opcode op => cases h
  | unknown family => cases h
  | next space tab linefeed ihs iht ihl =>
    cases tokens with
    | nil => exact List.mem_cons_self
    | cons t tokens =>
      obtain ⟨s, ts, rfl, hs, htail⟩ := List.map_eq_cons_iff.mp hts
      have heof' : .eof ∉ tokens := fun hmem => heof (List.mem_cons_of_mem t hmem)
      rw [select, hs] at h
      cases t with
      | space => exact mem_stops_next (.inl ⟨rfl, ihs h htail heof'⟩)
      | tab => exact mem_stops_next (.inr (.inl ⟨rfl, iht h htail heof'⟩))
      | linefeed => exact mem_stops_next (.inr (.inr ⟨rfl, ihl h htail heof'⟩))
      | eof => exact absurd List.mem_cons_self heof

/-- While the choice waits, some opcode is still possible. -/
theorem cutShort_of_stop (h : (tokens, none) ∈ anyChoice.stops) :
    CutShort (tokens.map Token.byte) := by
  have hall : ∀ stop ∈ anyChoice.stops, stop.2 = none → ∃ op ∈ Opcode.all,
      stop.1.map Token.byte <+: op.encoding ∧ stop.1.map Token.byte ≠ op.encoding := by decide
  obtain ⟨op, _, hfront, hne⟩ := hall _ h rfl
  exact cutShort_of_encoding hfront hne

/-- Where the choice gives up, no opcode is possible, but one token before some opcode was. -/
theorem dead_of_stop (h : (tokens, some family) ∈ anyChoice.stops) :
    .eof ∉ tokens ∧ ¬ Viable (tokens.map Token.byte) ∧ Viable (tokens.map Token.byte).dropLast ∧
      family.lead <+: tokens.map Token.byte := by
  -- both the stops and the opcodes are finitely many
  have hall : ∀ stop ∈ anyChoice.stops, ∀ family ∈ stop.2, .eof ∉ stop.1 ∧
      (∀ op ∈ Opcode.all,
        ¬ stop.1.map Token.byte <+: op.encoding ∧ ¬ op.encoding <+: stop.1.map Token.byte) ∧
      (∃ op ∈ Opcode.all, (stop.1.map Token.byte).dropLast <+: op.encoding) ∧
      family.lead <+: stop.1.map Token.byte := by decide
  obtain ⟨heof, hapart, ⟨op, _, hlast⟩, hlead⟩ := hall _ h family rfl
  exact ⟨heof, not_viable_of_apart fun op => hapart op op.mem_all, viable_of_encoding hlast, hlead⟩

theorem bits_of_literal?_none {bits : BitString} (h : literal? bits ts = none)
    (hts : ts.map Spanned.token = tokens ++ [.eof]) (heof : .eof ∉ tokens) :
    ∃ w : BitString, tokens = w.map Bit.token := by
  induction tokens generalizing bits ts with
  | nil => exact ⟨[], rfl⟩
  | cons t tokens ih =>
    obtain ⟨⟨token, line⟩, ts, rfl, hs, htail⟩ := List.map_eq_cons_iff.mp hts
    have heof' : .eof ∉ tokens := fun hmem => heof (List.mem_cons_of_mem t hmem)
    subst hs
    cases token with
    | space =>
      rw [literal?] at h
      obtain ⟨w, rfl⟩ := ih h htail heof'
      exact ⟨.space :: w, rfl⟩
    | tab =>
      rw [literal?] at h
      obtain ⟨w, rfl⟩ := ih h htail heof'
      exact ⟨.tab :: w, rfl⟩
    | linefeed => cases h
    | eof => exact absurd List.mem_cons_self heof

theorem lineOf_spans (line : Nat) (tokens : List Token) (t : Token) :
    lineOf (Token.spans line (tokens ++ [t])) = line := by
  cases tokens <;> rfl

theorem lastLine_spans (line : Nat) (tokens : List Token) (t : Token) :
    lastLine (Token.spans line (tokens ++ [t])) = line + tokens.count .linefeed := by
  rw [lastLine, Token.spans_append, Token.spans, Token.spans, List.getLast?_concat]
  rfl

theorem cutShort_of_literal?_none {op : Opcode} {front : List Spanned}
    (hfront : front.map Spanned.token = op.tokens) (hkind : op.paramKind ≠ .none)
    (hliteral : literal? [] rest = none)
    (hts : (front ++ rest).map Spanned.token = tokens ++ [.eof]) (heof : .eof ∉ tokens) :
    CutShort (tokens.map Token.byte) := by
  rw [List.map_append, hfront] at hts
  obtain ⟨tail, rfl, hrest⟩ := append_eof_cases hts (Token.eof_notMem_ofBytes _)
  obtain ⟨w, rfl⟩ :=
    bits_of_literal?_none hliteral hrest fun hmem => heof (List.mem_append_right _ hmem)
  have hcode : op.tokens.map Token.byte = op.encoding := by
    cases op <;> rfl
  have hbits : (w.map Bit.token).map Token.byte = w.map Bit.byte := by
    rw [List.map_map]
    exact List.map_congr_left fun b _ => by cases b <;> rfl
  rw [List.map_append, hcode, hbits]
  exact cutShort_of_literal hkind w

theorem firstDead_of_unknown {line : Nat}
    (h : select anyChoice (Token.spans line (tokens ++ [.eof])) = .unknown family rest) :
    ∃ q, FirstDead (tokens.map Token.byte) q ∧ family.lead <+: q ∧
      lineOf rest = line + q.count Byte.lf := by
  obtain ⟨front, heq, hstop⟩ := stop_of_unknown h
  obtain ⟨heof, hdead, hlast, hlead⟩ := dead_of_stop hstop
  have hts := Token.map_token_spans line (tokens ++ [.eof])
  rw [heq, List.map_append] at hts
  obtain ⟨tail, rfl, _⟩ := append_eof_cases hts heof
  rw [List.append_assoc] at heq
  refine ⟨_, firstDead_of_dropLast ?_ hdead hlast, hlead, ?_⟩
  · rw [List.map_append]
    exact List.prefix_append _ _
  · rw [Token.rest_of_spans rfl heq, lineOf_spans, Token.count_map_byte]

/-- No instruction is read where the tokens are cut short, or else right after the first dead
token. -/
theorem instruction_error {line : Nat} (heof : .eof ∉ tokens)
    (h : instruction (Token.spans line (tokens ++ [.eof])) = .error e) :
    CutShort (tokens.map Token.byte) ∧ e = .unexpectedEnd (line + tokens.count .linefeed) ∨
      ∃ q family, FirstDead (tokens.map Token.byte) q ∧ family.lead <+: q ∧
        e = .unknownOperation (line + q.count Byte.lf) family := by
  have hts := Token.map_token_spans line (tokens ++ [.eof])
  unfold instruction at h
  split at h
  · next hselect =>
    cases h
    exact .inl ⟨cutShort_of_stop (stop_of_cut hselect hts heof), by rw [lastLine_spans]⟩
  · next family rest hselect =>
    cases h
    obtain ⟨q, hdead, hlead, hline⟩ := firstDead_of_unknown hselect
    exact .inr ⟨q, family, hdead, hlead, by rw [hline]⟩
  · next op rest hselect =>
    obtain ⟨front, heq, hpath⟩ := path_of_select hselect
    split at h
    · cases h
    · next hkind =>
      split at h
      · next hliteral =>
        cases h
        rw [heq] at hts
        have hfront := mem_paths_anyChoice.mp hpath
        exact .inl ⟨cutShort_of_literal?_none hfront hkind hliteral hts heof,
          by rw [lastLine_spans]⟩
      · cases h

theorem exists_instruction_append {i : Instruction} {front : List Spanned} (hi : i.WellFormed)
    (h : front.map Spanned.token = i.tokens) (rest : List Spanned) :
    ∃ j, instruction (front ++ rest) = .ok (j, rest) := by
  have hj : { i with line := lineOf (front ++ rest) }.WellFormed := hi
  exact ⟨_, instruction_append hj h rfl⟩

/-- The parser goes over whole instructions to what follows them. -/
theorem program_encoded {is : List Instruction} (his : ∀ i ∈ is, i.WellFormed) (p : Program)
    (line : Nat) (tokens : List Token) :
    ∃ p', program p (Token.spans line (is.flatMap Instruction.tokens ++ tokens)) =
      program p' (Token.spans (line + (is.flatMap Instruction.tokens).count .linefeed) tokens) := by
  induction is generalizing p line with
  | nil => exact ⟨p, rfl⟩
  | cons i is ih =>
    obtain ⟨hi, his⟩ := List.forall_mem_cons.mp his
    rw [List.flatMap_cons, List.append_assoc, Token.spans_append, List.count_append,
      ← Nat.add_assoc]
    obtain ⟨j, hread⟩ := exists_instruction_append hi (Token.map_token_spans line i.tokens) _
    rw [program_of_instruction hread]
    exact ih his _ _

theorem error_of_instruction {p : Program} {e' : ParseError} (h : program p ts = .error e)
    (hread : instruction ts = .error e') : e' = e := by
  fun_induction program p ts with
  | case1 => cases h
  | case2 => cases h
  | case3 p t ts _ e'' herror =>
    cases h
    rw [hread] at herror
    exact Except.error.inj herror
  | case4 p t ts _ i rest hok =>
    rw [hread] at hok
    cases hok

end Parser

namespace Program

open Instruction

variable {source rest : List UInt8} {is : List Instruction} {e : ParseError}

/-- The error is that of reading an instruction where none stands in front. -/
theorem instruction_of_remains (hrest : Remains source is rest) (h : parse source = .error e) :
    Parser.instruction (Token.spans (1 + (encodeAll is).count Byte.lf)
      (Token.ofBytes rest ++ [.eof])) = .error e := by
  have htokens : Token.ofBytes source = is.flatMap Instruction.tokens ++ Token.ofBytes rest := by
    rw [← Token.ofBytes_filter, hrest.filter_eq, Token.ofBytes_append, ofBytes_encodeAll]
  rw [parse, Scanner.drain_ofBytes, htokens, List.append_assoc] at h
  obtain ⟨p, hprogram⟩ :=
    Parser.program_encoded hrest.wellFormed .empty 1 (Token.ofBytes rest ++ [.eof])
  rw [hprogram, ← ofBytes_encodeAll, Token.count_ofBytes] at h
  cases hread : Parser.instruction (Token.spans (1 + (encodeAll is).count Byte.lf)
      (Token.ofBytes rest ++ [.eof])) with
  | error e' => rw [Parser.error_of_instruction h hread]
  | ok read =>
    -- what is read here would stand in front of the rest
    obtain ⟨hi, _, front, heq, hfront⟩ := Parser.front_of_instruction hread
    have hts := congrArg (List.map Spanned.token) heq
    rw [Token.map_token_spans, List.map_append, hfront] at hts
    obtain ⟨tail, htail, _⟩ := Parser.append_eof_cases hts.symm (Token.eof_notMem_ofBytes _)
    have hbytes := congrArg (List.map Token.byte) htail
    rw [List.map_append, Instruction.tokens, Token.map_byte_ofBytes, Token.map_byte_ofBytes,
      hrest.filter_rest, filter_encode] at hbytes
    exact absurd ⟨_, hbytes.symm⟩ (hrest.stuck read.1 hi)

theorem rest_ne_nil (hrest : Remains source is rest) (h : parse source = .error e) : rest ≠ [] := by
  rintro rfl
  have hwhole := hrest.filter_eq
  rw [List.append_nil] at hwhole
  obtain ⟨p, hp, _⟩ := parse_of_filter hrest.wellFormed hwhole
  rw [hp] at h
  cases h

theorem error_of_remains (hrest : Remains source is rest) (h : parse source = .error e) :
    CutShort rest ∧ e = .unexpectedEnd (1 + source.count Byte.lf) ∨
      ∃ q family, FirstDead rest q ∧ family.lead <+: rest ∧
        e = .unknownOperation (1 + (encodeAll is ++ q).count Byte.lf) family := by
  have hlines : source.count Byte.lf = (encodeAll is).count Byte.lf + rest.count Byte.lf := by
    rw [← List.count_append, ← hrest.filter_eq, List.count_filter (by decide)]
  have herror :=
    Parser.instruction_error (Token.eof_notMem_ofBytes rest) (instruction_of_remains hrest h)
  rw [Token.map_byte_ofBytes, hrest.filter_rest, Token.count_ofBytes] at herror
  rcases herror with ⟨hcut, rfl⟩ | ⟨q, family, hdead, hlead, rfl⟩
  · exact .inl ⟨hcut, by rw [hlines, Nat.add_assoc]⟩
  · refine .inr ⟨q, family, hdead, hlead.trans hdead.isPrefix, ?_⟩
    rw [List.count_append, Nat.add_assoc]

/-- A source that is rejected begins, but for its comments, with whole instructions, and something
remains. If an instruction begins with what remains, the error is the end of the source, on its last
line. If none does, the error is an unknown operation of the family that the remaining tokens lead
to, on the line that is reached with the first token after which no instruction is possible. -/
theorem parse_rejects_earliest (h : parse source = .error e) :
    (∃ is rest, Remains source is rest) ∧
      ∀ is rest, Remains source is rest →
        rest ≠ [] ∧
        (CutShort rest → e = .unexpectedEnd (1 + source.count Byte.lf)) ∧
        (¬ CutShort rest → ∃ q family, FirstDead rest q ∧ family.lead <+: rest ∧
          e = .unknownOperation (1 + (encodeAll is ++ q).count Byte.lf) family) := by
  refine ⟨exists_remains source, fun is rest hrest => ⟨rest_ne_nil hrest h, ?_⟩⟩
  rcases error_of_remains hrest h with ⟨hcut, he⟩ | ⟨q, family, hdead, hlead, he⟩
  · exact ⟨fun _ => he, fun hnot => absurd hcut hnot⟩
  · exact ⟨fun hcut => absurd hcut hdead.not_cutShort, fun _ => ⟨q, family, hdead, hlead, he⟩⟩

/-- Pushes 1 and then begins a heap operation that ends in a linefeed, with letters strewn in. -/
def strayed : List UInt8 := [97, 32, 32, 98, 32, 9, 10, 99, 9, 9, 100, 10, 32, 10]

theorem strayed_rejected :
    parse strayed = .error (.unknownOperation 3 .heap) ∧
      Remains strayed [⟨.push, some [.space, .tab], 0⟩] [9, 9, 10, 32, 10] ∧
      ∃ q family, FirstDead [9, 9, 10, 32, 10] q ∧ family.lead <+: [9, 9, 10, 32, 10] ∧
        ParseError.unknownOperation 3 .heap =
          .unknownOperation (1 + (encodeAll [⟨.push, some [.space, .tab], 0⟩] ++ q).count Byte.lf)
            family := by
  have hparse : parse strayed = .error (.unknownOperation 3 .heap) := by cbv
  have hapart : ∀ op ∈ Opcode.all,
      ¬ [9, 9, 10, 32, 10] <+: op.encoding ∧ ¬ op.encoding <+: [9, 9, 10, 32, 10] := by decide
  have hrest : Remains strayed [⟨.push, some [.space, .tab], 0⟩] [9, 9, 10, 32, 10] := by
    refine ⟨by decide, by decide, fun i _ hfront => ?_⟩
    exact (hapart i.opcode i.opcode.mem_all).2 (i.encoding_isPrefix.trans hfront)
  have hdead : ¬ Viable [9, 9, 10, 32, 10] :=
    not_viable_of_apart fun op => hapart op op.mem_all
  exact ⟨hparse, hrest,
    ((parse_rejects_earliest hparse).2 _ _ hrest).2.2 fun hcut => hdead hcut.viable⟩

end Program

end Whitespace
