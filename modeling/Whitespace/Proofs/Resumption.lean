import Whitespace.Proofs.Scanning

/-!
Reading can stop anywhere and be taken up again. Whatever was read of a source before, the next
token is the next one of the source, the line is that of the bytes passed so far, and draining gives
all that was not read.
-/
namespace Whitespace

/-- The tokens whose bytes stand in a source, with the line of each, which is one more than the
number of linefeeds before it. An `eof` on the last line ends them. -/
def Token.table (source : List UInt8) : List Spanned :=
  source.zipIdx.filterMap (fun x =>
    ([Token.space, .tab, .linefeed].find? (·.byte == x.1)).map fun t =>
      ⟨t, 1 + (source.take x.2).count Byte.lf⟩) ++
    [⟨.eof, 1 + source.count Byte.lf⟩]

namespace Token

theorem find?_byte (b : UInt8) :
    [Token.space, .tab, .linefeed].find? (·.byte == b) = ofByte? b := by
  unfold ofByte?
  grind [byte]

theorem byte_injective : Function.Injective byte := by
  intro t u
  cases t <;> cases u <;> decide

theorem length_ofBytes (source : List UInt8) :
    (ofBytes source).length = source.countP Byte.significant := by
  rw [← List.length_map byte, map_byte_ofBytes, List.countP_eq_length_filter]

/-- The first tokens are told from the first significant bytes. -/
theorem ofBytes_eq_take_iff {source bytes : List UInt8} {n : Nat} :
    ofBytes bytes = (ofBytes source).take n ↔
      bytes.filter Byte.significant = (source.filter Byte.significant).take n := by
  rw [← map_byte_ofBytes, ← map_byte_ofBytes, ← List.map_take]
  exact (List.map_injective_iff.mpr byte_injective).eq_iff.symm

/-- The lines of tokens that stand behind `front`. -/
theorem filterMap_zipIdx_eq_spans (front source : List UInt8) :
    (source.zipIdx front.length).filterMap (fun x =>
      (ofByte? x.1).map fun t => Spanned.mk t (1 + ((front ++ source).take x.2).count Byte.lf)) =
      spans (1 + front.count Byte.lf) (ofBytes source) := by
  induction source generalizing front with
  | nil => rfl
  | cons b source ih =>
    have hrest := ih (front ++ [b])
    rw [List.append_assoc, List.singleton_append, List.length_append, List.length_singleton,
      List.count_append, ← count_ofBytes [b], ← Nat.add_assoc] at hrest
    rw [List.zipIdx_cons]
    cases hb : ofByte? b with
    | none =>
      rw [List.filterMap_cons_none (by rw [hb]; rfl), hrest, ofBytes_cons_of_none hb,
        ofBytes_cons_of_none hb]
      rfl
    | some t =>
      rw [List.filterMap_cons_some (by rw [hb]; rfl), hrest, ofBytes_cons_of_some hb,
        ofBytes_cons_of_some hb, spans, lineAfter_eq, List.take_left]
      rfl

theorem table_eq_spans (source : List UInt8) :
    table source = spans 1 (ofBytes source ++ [.eof]) := by
  have hlines := filterMap_zipIdx_eq_spans [] source
  simp only [table, find?_byte, spans_append, count_ofBytes]
  exact congrArg (· ++ _) hlines

theorem drop_table (source : List UInt8) :
    (table source).drop (ofBytes source).length = [⟨.eof, 1 + source.count Byte.lf⟩] := by
  rw [table_eq_spans, spans_append, count_ofBytes, ← length_spans 1, List.drop_left]
  rfl

end Token

namespace Scanner

/-- What the next reading can be: the first token behind some comments, or the end. -/
inductive Next (s : Scanner) : Token → Scanner → Prop where
  | token {skipped rest : List UInt8} {b : UInt8} {t : Token}
      (hrest : s.rest = skipped ++ b :: rest) (hskipped : Token.ofBytes skipped = [])
      (hb : Token.ofByte? b = some t) :
      Next s t ⟨rest, t.lineAfter s.line⟩
  | eof (hrest : Token.ofBytes s.rest = []) : Next s .eof ⟨[], s.line⟩

theorem Next.skip {source : List UInt8} {line : Nat} {b : UInt8} {t : Token} {s : Scanner}
    (hb : Token.ofByte? b = none) (h : Next ⟨source, line⟩ t s) : Next ⟨b :: source, line⟩ t s := by
  have hcomment := Token.ofBytes_cons_of_none hb
  cases h with
  | @token skipped rest _ _ hrest hskipped hb' =>
    exact .token (congrArg (b :: ·) hrest) ((hcomment skipped).trans hskipped) hb'
  | eof hrest => exact .eof ((hcomment source).trans hrest)

theorem next_nextFrom (line : Nat) (source : List UInt8) :
    Next ⟨source, line⟩ (nextFrom line source).1 (nextFrom line source).2 := by
  induction source with
  | nil => exact .eof rfl
  | cons b source ih =>
    rw [nextFrom]
    cases hb : Token.ofByte? b with
    | none => exact ih.skip hb
    | some t => exact .token (List.nil_append _).symm rfl hb

theorem next_next (s : Scanner) : Next s s.next.1 s.next.2 := next_nextFrom s.line s.rest

theorem Next.of_comment {s s' : Scanner} {t : Token} (h : Next s t s')
    (hrest : Token.ofBytes s.rest = []) : s' = ⟨[], s.line⟩ := by
  cases h with
  | @token skipped rest b _ hs _ hb =>
    rw [hs, Token.ofBytes_append, Token.ofBytes_cons_of_some hb] at hrest
    simp at hrest
  | eof => rfl

/-- The tokens of so many readings, and the scanner after them. -/
def read (s : Scanner) : Nat → List Token × Scanner
  | 0 => ([], s)
  | n + 1 => ((s.read n).1 ++ [(s.read n).2.next.1], (s.read n).2.next.2)

/-- The scanner has passed the bytes `consumed`, and their significant ones are the first `n` of the
source. -/
structure Passed (source : List UInt8) (n : Nat) (consumed : List UInt8) (s : Scanner) : Prop where
  split : source = consumed ++ s.rest
  significant : consumed.filter Byte.significant = (source.filter Byte.significant).take n
  line : s.line = 1 + consumed.count Byte.lf

theorem count_of_comment {bytes : List UInt8} (h : Token.ofBytes bytes = []) :
    bytes.count Byte.lf = 0 := by
  rw [← Token.count_ofBytes, h]
  rfl

namespace Passed

variable {source consumed : List UInt8} {n : Nat} {s : Scanner} {t : Token}

theorem tokens (h : Passed source n consumed s) :
    Token.ofBytes consumed = (Token.ofBytes source).take n :=
  Token.ofBytes_eq_take_iff.mpr h.significant

/-- The tokens that were not read are those of the rest. -/
theorem ofBytes_rest (h : Passed source n consumed s) :
    Token.ofBytes s.rest = (Token.ofBytes source).drop n := by
  have hall : (Token.ofBytes source).take n ++ Token.ofBytes s.rest = Token.ofBytes source := by
    rw [← h.tokens, ← Token.ofBytes_append, ← h.split]
  exact List.append_cancel_left (hall.trans (List.take_append_drop n _).symm)

theorem start (source : List UInt8) : Passed source 0 [] (ofBytes source) := ⟨rfl, rfl, rfl⟩

theorem next_token {skipped rest : List UInt8} {b : UInt8} (h : Passed source n consumed s)
    (hrest : s.rest = skipped ++ b :: rest) (hskipped : Token.ofBytes skipped = [])
    (hb : Token.ofByte? b = some t) :
    Passed source (n + 1) (consumed ++ (skipped ++ [b])) ⟨rest, t.lineAfter s.line⟩ ∧
      (Token.ofBytes source)[n]? = some t := by
  have hread : Token.ofBytes [b] = [t] := Token.ofBytes_cons_of_some hb []
  have hdrop := h.ofBytes_rest
  rw [hrest, List.append_cons, Token.ofBytes_append, Token.ofBytes_append, hskipped, hread] at hdrop
  have htoken : (Token.ofBytes source)[n]? = some t := by
    rw [← List.head?_drop, ← hdrop]
    rfl
  refine ⟨⟨?_, Token.ofBytes_eq_take_iff.mp ?_, ?_⟩, htoken⟩
  · rw [h.split, hrest]
    simp
  · rw [Token.ofBytes_append, Token.ofBytes_append, h.tokens, hskipped, hread, List.take_add_one,
      htoken]
    rfl
  · rw [Token.lineAfter_eq, h.line, List.count_append, List.count_append, count_of_comment hskipped,
      ← Token.count_ofBytes [b], hread, Nat.zero_add, Nat.add_assoc]

theorem next_eof (h : Passed source n consumed s) (hrest : Token.ofBytes s.rest = []) :
    Passed source (n + 1) source ⟨[], s.line⟩ ∧ (Token.ofBytes source)[n]? = none := by
  have hlength : (Token.ofBytes source).length ≤ n := by
    rw [← List.drop_eq_nil_iff, ← h.ofBytes_rest, hrest]
  refine ⟨⟨(List.append_nil source).symm, Token.ofBytes_eq_take_iff.mp ?_, ?_⟩,
    List.getElem?_eq_none hlength⟩
  · rw [List.take_of_length_le (Nat.le_succ_of_le hlength)]
  · rw [h.line, h.split, List.count_append, count_of_comment hrest, Nat.add_zero]

/-- One more reading gives the next token, and passes it. -/
theorem next (h : Passed source n consumed s) :
    (∃ consumed', Passed source (n + 1) consumed' s.next.2) ∧
      s.next.1 = (Token.ofBytes source)[n]?.getD .eof := by
  have hnext := next_next s
  generalize s.next.1 = t, s.next.2 = s' at hnext ⊢
  cases hnext with
  | token hrest hskipped hb =>
    obtain ⟨hpassed, htoken⟩ := h.next_token hrest hskipped hb
    exact ⟨⟨_, hpassed⟩, by rw [htoken]; rfl⟩
  | eof hrest =>
    obtain ⟨hpassed, htoken⟩ := h.next_eof hrest
    exact ⟨⟨_, hpassed⟩, by rw [htoken]; rfl⟩

theorem drain (h : Passed source n consumed s) :
    s.drain = (Token.table source).drop (min n (Token.ofBytes source).length) := by
  have hlength : (Token.spans 1 (Token.ofBytes consumed)).length =
      min n (Token.ofBytes source).length := by
    rw [Token.length_spans, h.tokens, List.length_take]
  have htable : Token.table source = Token.spans 1 (Token.ofBytes consumed) ++ s.drain := by
    rw [Token.table_eq_spans, h.split, Token.ofBytes_append, List.append_assoc, Token.spans_append,
      Token.count_ofBytes, ← h.line, Scanner.drain, drainFrom_eq]
    rfl
  rw [htable, ← hlength, List.drop_left]

theorem atEnd (h : Passed source n consumed s) : s.atEnd = ⟨[], 1 + source.count Byte.lf⟩ := by
  rw [Scanner.atEnd, h.line, h.split, List.count_append, Nat.add_assoc]

end Passed

theorem passed_read (source : List UInt8) (n : Nat) :
    ∃ consumed, Passed source n consumed ((ofBytes source).read n).2 := by
  induction n with
  | zero => exact ⟨[], .start source⟩
  | succ n ih =>
    obtain ⟨consumed, h⟩ := ih
    exact h.next.1

theorem tokens_read (source : List UInt8) (n : Nat) :
    ((ofBytes source).read n).1 =
      (List.range n).map fun k => (Token.ofBytes source)[k]?.getD .eof := by
  induction n with
  | zero => rfl
  | succ n ih =>
    obtain ⟨consumed, h⟩ := passed_read source n
    rw [read, ih, h.next.2, List.range_succ, List.map_append]
    rfl

/-- Beyond the `eof` of the table there is nothing but `eof`. -/
theorem getElem?_table (source : List UInt8) (k : Nat) :
    ((Token.table source)[k]?.map Spanned.token).getD .eof =
      (Token.ofBytes source)[k]?.getD .eof := by
  rw [← List.getElem?_map, Token.table_eq_spans, Token.map_token_spans, List.getElem?_append]
  split
  · rfl
  · next hge =>
    rw [List.getElem?_eq_none (Nat.not_lt.mp hge)]
    cases k - (Token.ofBytes source).length <;> rfl

theorem read_beyond {source : List UInt8} {n : Nat} (h : (Token.ofBytes source).length < n) :
    ((ofBytes source).read n).2 = ⟨[], 1 + source.count Byte.lf⟩ := by
  cases n with
  | zero => cases h
  | succ n =>
    obtain ⟨consumed, hpassed⟩ := passed_read source n
    have hrest : Token.ofBytes ((ofBytes source).read n).2.rest = [] := by
      rw [hpassed.ofBytes_rest, List.drop_eq_nil_iff]
      exact Nat.le_of_lt_succ h
    rw [read, (next_next _).of_comment hrest, ← hpassed.atEnd, atEnd, count_of_comment hrest]
    rfl

/-- What `n` readings of a source gave, and where they left the scanner: which line it is on, what
there is to drain, and that draining comes to the same as reading beyond the last token. -/
structure Resumes (source : List UInt8) (n : Nat) (given : List Token) (s : Scanner) : Prop where
  given : given = (List.range n).map fun k => ((Token.table source)[k]?.map Spanned.token).getD .eof
  passed : ∃ consumed, Passed source n consumed s
  left : s.drain =
    if n < source.countP Byte.significant then (Token.table source).drop n
    else [⟨.eof, 1 + source.count Byte.lf⟩]
  drained : ∀ m, source.countP Byte.significant < m → s.atEnd = ((ofBytes source).read m).2

/-- However much of a source was read, reading goes on where it stopped. -/
theorem reading_resumes (source : List UInt8) (n : Nat) :
    Resumes source n ((ofBytes source).read n).1 ((ofBytes source).read n).2 := by
  obtain ⟨consumed, h⟩ := passed_read source n
  refine ⟨?_, ⟨consumed, h⟩, ?_, ?_⟩
  · simp only [tokens_read, getElem?_table]
  · rw [h.drain, ← Token.length_ofBytes]
    split
    · next hlt => rw [Nat.min_eq_left (Nat.le_of_lt hlt)]
    · next hge =>
      rw [Nat.min_eq_right (Nat.not_lt.mp hge), Token.drop_table]
  · intro m hm
    rw [← Token.length_ofBytes] at hm
    rw [h.atEnd, read_beyond hm]

end Scanner

end Whitespace
