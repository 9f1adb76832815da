import Mathlib
import Whitespace.Instruction
import Whitespace.Token

/-!
The tokens of a source. Comments do not count: a source has the tokens of its significant bytes,
and these bytes can be told from the tokens. So can the lines: no comment holds a linefeed.
-/
namespace Whitespace

open Byte in
/-- Every other byte is a comment. -/
def Byte.significant (b : UInt8) : Bool := b == sp || b == ht || b == lf

namespace Token

/-- All tokens of a source, without an `eof`. -/
def ofBytes (source : List UInt8) : List Token := source.filterMap ofByte?

/-- The byte that is the token; an `eof` has none. -/
def byte : Token → UInt8
  | .space => Byte.sp
  | .tab => Byte.ht
  | .linefeed => Byte.lf
  | .eof => 0

theorem ofByte?_eq_none_iff {b : UInt8} : ofByte? b = none ↔ Byte.significant b = false := by
  unfold ofByte? Byte.significant
  grind

theorem significant_of_ofByte? {b : UInt8} {t : Token} (h : ofByte? b = some t) :
    Byte.significant b = true ∧ t.byte = b ∧ t ≠ .eof := by
  unfold ofByte? at h
  split at h
  · next hb => cases h; subst hb; decide
  · split at h
    · next hb => cases h; subst hb; decide
    · split at h
      · next hb => cases h; subst hb; decide
      · cases h

@[simp] theorem ofBytes_append (s t : List UInt8) : ofBytes (s ++ t) = ofBytes s ++ ofBytes t :=
  List.filterMap_append

theorem ofBytes_cons_of_none {b : UInt8} (hb : ofByte? b = none) (source : List UInt8) :
    ofBytes (b :: source) = ofBytes source :=
  List.filterMap_cons_none hb

theorem ofBytes_cons_of_some {b : UInt8} {t : Token} (hb : ofByte? b = some t)
    (source : List UInt8) : ofBytes (b :: source) = t :: ofBytes source :=
  List.filterMap_cons_some hb

theorem map_byte_ofBytes (source : List UInt8) :
    (ofBytes source).map byte = source.filter Byte.significant := by
  induction source with
  | nil => rfl
  | cons b rest ih =>
    cases hb : ofByte? b with
    | none =>
      rw [ofBytes_cons_of_none hb, ih,
        List.filter_cons_of_neg (by simp [ofByte?_eq_none_iff.mp hb])]
    | some t =>
      obtain ⟨hsig, hbyte, _⟩ := significant_of_ofByte? hb
      rw [ofBytes_cons_of_some hb, List.map_cons, ih, hbyte, List.filter_cons_of_pos hsig]

theorem ofBytes_filter (source : List UInt8) :
    ofBytes (source.filter Byte.significant) = ofBytes source := by
  have hsame : (fun b => if Byte.significant b then ofByte? b else none) = ofByte? := by
    funext b
    split
    · rfl
    · next h => exact (ofByte?_eq_none_iff.mpr (Bool.eq_false_iff.mpr h)).symm
  rw [ofBytes, List.filterMap_filter, hsame, ofBytes]

theorem eof_notMem_ofBytes (source : List UInt8) : .eof ∉ ofBytes source := by
  intro h
  obtain ⟨b, _, hb⟩ := List.mem_filterMap.mp h
  exact (significant_of_ofByte? hb).2.2 rfl

/-- A source without its comments is `bytes` exactly if it has the tokens of `bytes`. -/
theorem filter_significant_eq_iff {source bytes : List UInt8}
    (h : bytes.filter Byte.significant = bytes) :
    source.filter Byte.significant = bytes ↔ ofBytes source = ofBytes bytes := by
  constructor
  · rintro rfl
    exact (ofBytes_filter source).symm
  · intro htokens
    rw [← map_byte_ofBytes, htokens, map_byte_ofBytes, h]

theorem count_map_byte (ts : List Token) : (ts.map byte).count Byte.lf = ts.count .linefeed := by
  induction ts with
  | nil => rfl
  | cons t ts ih =>
    rw [List.map_cons, List.count_cons, List.count_cons, ih]
    cases t <;> rfl

/-- Only a linefeed is the linefeed token. -/
theorem count_ofBytes (source : List UInt8) :
    (ofBytes source).count .linefeed = source.count Byte.lf := by
  rw [← count_map_byte, map_byte_ofBytes, List.count_filter (by decide)]

/-- Tokens that stand one after the other from line `line` on. -/
def spans (line : Nat) : List Token → List Spanned
  | [] => []
  | t :: ts => ⟨t, line⟩ :: spans (t.lineAfter line) ts

theorem lineAfter_eq (line : Nat) (t : Token) : t.lineAfter line = line + [t].count .linefeed := by
  cases t <;> rfl

theorem map_token_spans (line : Nat) (ts : List Token) :
    (spans line ts).map Spanned.token = ts := by
  induction ts generalizing line with
  | nil => rfl
  | cons t ts ih => rw [spans, List.map_cons, ih]

theorem length_spans (line : Nat) (ts : List Token) : (spans line ts).length = ts.length := by
  rw [← List.length_map Spanned.token, map_token_spans]

theorem spans_append (line : Nat) (ts us : List Token) :
    spans line (ts ++ us) = spans line ts ++ spans (line + ts.count .linefeed) us := by
  induction ts generalizing line with
  | nil => rfl
  | cons t ts ih =>
    rw [List.cons_append, spans, ih, spans, List.cons_append, lineAfter_eq, Nat.add_assoc,
      ← List.count_append]
    rfl

/-- The tokens after a front stand where the front ends. -/
theorem rest_of_spans {line : Nat} {ts us : List Token} {front rest : List Spanned}
    (hfront : front.map Spanned.token = ts) (h : spans line (ts ++ us) = front ++ rest) :
    rest = spans (line + ts.count .linefeed) us := by
  rw [spans_append] at h
  have hlength : (spans line ts).length = front.length := by
    rw [length_spans, ← hfront, List.length_map]
  exact (List.append_inj_right h hlength).symm

end Token

namespace Scanner

theorem drainFrom_eq (line : Nat) (read : Array Spanned) (source : List UInt8) :
    drainFrom line read source =
      read.toList ++ Token.spans line (Token.ofBytes source ++ [.eof]) := by
  induction source generalizing line read with
  | nil => simp [drainFrom, Token.ofBytes, Token.spans]
  | cons b rest ih =>
    rw [drainFrom]
    cases hb : Token.ofByte? b with
    | none => rw [ih, Token.ofBytes_cons_of_none hb]
    | some t => simp [ih, Token.ofBytes_cons_of_some hb, Token.spans]

/-- A source is drained to its tokens, each on its line. -/
theorem drain_ofBytes (source : List UInt8) :
    (ofBytes source).drain = Token.spans 1 (Token.ofBytes source ++ [.eof]) :=
  drainFrom_eq 1 #[] source

theorem map_token_drain (source : List UInt8) :
    (ofBytes source).drain.map Spanned.token = Token.ofBytes source ++ [.eof] := by
  rw [drain_ofBytes, Token.map_token_spans]

end Scanner

end Whitespace
