import Whitespace.Code.Lowering
import Whitespace.Proofs.Listing

/-!
A program survives its listing. What a listing is read back as is listed the same and compiles to
the same code, or fails in the same way but for the line; and so does what that parses to once it
is written as source again.
-/
namespace Whitespace

/-- The error without the line on which it is reported. -/
def CompileError.unlined : CompileError → CompileError
  | .missingLiteral _ op => .missingLiteral 0 op
  | .literalOverflow _ bits => .literalOverflow 0 bits
  | .duplicateLabel label _ => .duplicateLabel label 0
  | .undefinedLabel label => .undefinedLabel label
  | .unplacedTarget address => .unplacedTarget address

/-- The second is the first as some listing gives it back. -/
def Instruction.Relists (i j : Instruction) : Prop := ∃ line, j = i.relisted line

/-- Two computations whose errors differ only in what `f` forgets may go on in the same way. -/
theorem mapError_bind_congr {ε δ α β : Type} {f : ε → δ} {x y : Except ε α} {g k : α → Except ε β}
    (h : x.mapError f = y.mapError f) (hnext : ∀ a, (g a).mapError f = (k a).mapError f) :
    (x.bind g).mapError f = (y.bind k).mapError f := by
  cases x with
  | error e =>
    cases y with
    | error e' => exact congrArg Except.error (Except.error.inj h)
    | ok b => cases h
  | ok a =>
    cases y with
    | error e' => cases h
    | ok b =>
      cases h
      exact hnext a

namespace Lowering

/-- An instruction is lowered for its opcode, its label and its number; the line only shows in
errors. -/
theorem lower_relisted (s : Lowering) (i : Instruction) (line : Nat) :
    (s.lower (i.relisted line)).mapError CompileError.unlined =
      (s.lower i).mapError CompileError.unlined := by
  obtain ⟨op, param, source⟩ := i
  cases op
  case push =>
    cases param with
    | none => rfl
    | some bits =>
      have hnumber := bits.toNumber_normal
      change (Except.map _ (number ⟨.push, some bits.normal, line⟩)).mapError _ =
        (Except.map _ (number ⟨.push, some bits, source⟩)).mapError _
      simp only [number, literal, bind, Except.bind, hnumber]
      cases bits.toNumber <;> rfl
  case mark =>
    cases param with
    | none => rfl
    | some label =>
      change (s.mark ⟨.mark, some label, line⟩).mapError _ =
        (s.mark ⟨.mark, some label, source⟩).mapError _
      simp only [mark, literal, bind, Except.bind]
      split <;> rfl
  all_goals cases param <;> rfl

theorem lowerAll_cons (s : Lowering) (i : Instruction) (is : List Instruction) :
    s.lowerAll (i :: is) = (s.lower i).bind (·.lowerAll is) := by
  rw [lowerAll]
  cases s.lower i <;> rfl

theorem lowerAll_relisted (s : Lowering) {is js : List Instruction}
    (h : List.Forall₂ Instruction.Relists is js) :
    (s.lowerAll js).mapError CompileError.unlined =
      (s.lowerAll is).mapError CompileError.unlined := by
  induction h generalizing s with
  | nil => rfl
  | cons hij _ ih =>
    obtain ⟨line, rfl⟩ := hij
    rw [lowerAll_cons, lowerAll_cons]
    exact mapError_bind_congr (s.lower_relisted _ line) ih

end Lowering

namespace Instruction

/-- What a listing keeps of an instruction: its opcode, its label, and its number though not the
spelling of it, unless the literal is too wide for a number. -/
structure Kept (i : Instruction) (line : Nat) (j : Instruction) : Prop where
  line_eq : j.line = line
  opcode_eq : j.opcode = i.opcode
  none_eq : i.opcode.paramKind = .none → j.param = none
  label_eq : i.opcode.paramKind = .label → ∃ label, i.param = some label ∧ j.param = some label
  number_eq : i.opcode.paramKind = .number → ∃ bits bits', i.param = some bits ∧
    j.param = some bits' ∧ bits'.toNumber = bits.toNumber ∧ (32 ≤ bits.length → bits' = bits)

theorem WellFormed.kept {i : Instruction} (hi : i.WellFormed) (line : Nat) :
    i.Kept line (i.relisted line) where
  line_eq := rfl
  opcode_eq := rfl
  none_eq hkind := by
    rw [param_relisted_of_ne (by rw [hkind]; decide), hi.param_eq_none hkind]
  label_eq hkind := by
    obtain ⟨label, hlabel⟩ := hi.exists_param (by rw [hkind]; decide)
    refine ⟨label, hlabel, ?_⟩
    rw [param_relisted_of_ne (by rw [hkind]; decide), hlabel]
  number_eq hkind := by
    obtain ⟨bits, hbits⟩ := hi.exists_param (by rw [hkind]; decide)
    refine ⟨bits, bits.normal, hbits, ?_, bits.toNumber_normal, BitString.normal_of_wide⟩
    rw [param_relisted_of_number hkind, hbits, Option.map_some]

end Instruction

namespace Program

variable {p q : Program}

theorem compile_eq_bind (p : Program) :
    p.compile = (Lowering.empty.lowerAll p.instructions.toList).bind (·.finish p.size) := by
  rw [compile]
  cases Lowering.empty.lowerAll p.instructions.toList <;> rfl

theorem listing_of_relists
    (h : List.Forall₂ Instruction.Relists p.instructions.toList q.instructions.toList) :
    q.listing = p.listing := by
  rw [listing, listing]
  generalize p.instructions.toList = is at h
  generalize q.instructions.toList = js at h
  congr 1
  induction h with
  | nil => rfl
  | cons hij _ ih =>
    obtain ⟨line, rfl⟩ := hij
    rw [List.map_cons, List.map_cons, Instruction.listing_relisted, ih]

theorem compile_of_relists
    (h : List.Forall₂ Instruction.Relists p.instructions.toList q.instructions.toList) :
    q.compile.mapError CompileError.unlined = p.compile.mapError CompileError.unlined := by
  have hsize : q.size = p.size := h.length_eq.symm
  rw [compile_eq_bind, compile_eq_bind, hsize]
  exact mapError_bind_congr (Lowering.empty.lowerAll_relisted h) fun _ => rfl

/-- Only the bodies count: the lines may come from the listing or from a source. -/
theorem relists_of_body {is js : List Instruction} (f : Nat → Nat)
    (h : js.map Instruction.body = (is.mapIdx fun k i => i.relisted (f k)).map Instruction.body) :
    List.Forall₂ Instruction.Relists is js := by
  induction is generalizing js f with
  | nil =>
    rw [List.map_eq_nil_iff.mp h]
    exact .nil
  | cons i is ih =>
    rw [List.mapIdx_cons, List.map_cons] at h
    obtain ⟨j, js, rfl, hj, hjs⟩ := List.map_eq_cons_iff.mp h
    exact .cons ⟨j.line, Instruction.relisted_of_body hj⟩ (ih (fun k => f (k + 1)) hjs)

/-- The listing of `p` is read as `is`, and the source form of `is` parses to `q`. Line by line,
`is` keeps what `p` says; and `q` can be told from `p` neither by its listing nor by its code. -/
structure Reassembled (p : Program) (is : List Instruction) (q : Program) : Prop where
  read : Listing.parse p.listing.toList = .ok is
  length_eq : is.length = p.size
  kept : ∀ (k : Nat) (i j : Instruction), p.instructions[k]? = some i → is[k]? = some j →
    i.Kept (k + 1) j
  parsed : parse (Instruction.encodeAll is) = .ok q
  listing_eq : q.listing = p.listing
  compile_eq : q.compile.mapError CompileError.unlined = p.compile.mapError CompileError.unlined

/-- Every program that was parsed can be listed, read back, written as source and parsed again, and
is then the same program but for its lines and the spelling of its numbers. -/
theorem listing_reassembles {source : List UInt8} {p : Program} (h : parse source = .ok p) :
    ∃ is q, p.Reassembled is q := by
  have hwf := (reads_of_parse h).wellFormed
  have hrelisted : ∀ j ∈ p.instructions.toList.mapIdx fun k i => i.relisted (k + 1),
      j.WellFormed := by
    intro j hj
    obtain ⟨k, hk, rfl⟩ := List.mem_mapIdx.mp hj
    exact (hwf _ (List.getElem_mem hk)).relisted (k + 1)
  obtain ⟨q, hq, hbody⟩ := parse_of_filter hrelisted (Instruction.filter_encodeAll _)
  have hsame := relists_of_body (· + 1) hbody
  refine ⟨_, q, parse_listing hwf, by simp [size], ?_, hq, listing_of_relists hsame,
    compile_of_relists hsame⟩
  intro k i j hi hj
  rw [← Array.getElem?_toList] at hi
  rw [List.getElem?_mapIdx, hi, Option.map_some, Option.some.injEq] at hj
  subst hj
  exact (hwf i (List.mem_of_getElem? hi)).kept (k + 1)

/-- Pushes the empty literal, minus zero, one with a leading zero and a literal of 32 bits, then
marks the empty label and jumps to it. -/
def corners : List Instruction :=
  [⟨.push, some [], 0⟩, ⟨.push, some [.tab, .space], 0⟩, ⟨.push, some [.space, .space, .tab], 0⟩,
    ⟨.push, some (List.replicate 32 .tab), 0⟩, ⟨.mark, some [], 0⟩, ⟨.jump, some [], 0⟩]

theorem corners_reassemble :
    ∃ p is q, parse (Instruction.encodeAll corners) = .ok p ∧
      p.instructions.toList.map Instruction.body = corners.map Instruction.body ∧
      p.Reassembled is q := by
  obtain ⟨p, hp, hbody⟩ := parse_of_filter (l := corners) (by decide)
    (Instruction.filter_encodeAll corners)
  obtain ⟨is, q, hre⟩ := listing_reassembles hp
  exact ⟨p, is, q, hp, hbody, hre⟩

end Program

end Whitespace
