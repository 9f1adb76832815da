import Whitespace.Proofs.Compilation

/-!
Labels are opaque. Compiling a program only asks whether two labels are the same, so a program whose
labels are renamed one to one compiles to the same code, or fails with the same error about the
renamed label.
-/
namespace Whitespace

/-- The instruction with another label. Numbers stay as they are, and so do literals that the opcode
does not take. -/
def Instruction.relabel (f : BitString → BitString) (i : Instruction) : Instruction :=
  match i.opcode.paramKind with
  | .label => { i with param := i.param.map f }
  | .number => i
  | .none => i

def Program.relabel (f : BitString → BitString) (p : Program) : Program where
  instructions := p.instructions.map (Instruction.relabel f)
  labels := p.labels.fold (fun labels label index => labels.insert (f label) index) ∅

/-- The same error about another label. -/
def CompileError.relabel (f : BitString → BitString) : CompileError → CompileError
  | .missingLiteral line op => .missingLiteral line op
  | .literalOverflow line bits => .literalOverflow line bits
  | .duplicateLabel label line => .duplicateLabel (f label) line
  | .undefinedLabel label => .undefinedLabel (f label)
  | .unplacedTarget address => .unplacedTarget address

variable {f : BitString → BitString}

namespace LabelTable

/-- The second table has the entries of the first, in the same order, under other labels. -/
structure Renames (f : BitString → BitString) (t t' : LabelTable) : Prop where
  consistent : t.Consistent
  consistent' : t'.Consistent
  entries : t'.entries = t.entries.map fun (label, e) => (f label, e)

theorem renames_empty (f : BitString → BitString) : Renames f empty empty :=
  ⟨consistent_empty, consistent_empty, by simp [empty]⟩

namespace Renames

variable {t t' : LabelTable}

theorem getElem?_entries (h : Renames f t t') (slot : Nat) :
    t'.entries[slot]? = t.entries[slot]?.map fun (label, e) => (f label, e) := by
  rw [h.entries, Array.getElem?_map]

/-- A renamed label stands where the label stood. Only here do two labels have to stay apart. -/
theorem index_eq (h : Renames f t t') (hf : Function.Injective f) (label : BitString) :
    t'.index[f label]? = t.index[label]? := by
  ext slot
  have himage : t'.entries[slot]?.map Prod.fst = (t.entries[slot]?.map Prod.fst).map f := by
    rw [h.getElem?_entries, Option.map_map, Option.map_map]
    rfl
  rw [h.consistent' (f label) slot, h.consistent label slot, himage, Option.map_eq_some_iff]
  constructor
  · rintro ⟨other, hother, heq⟩
    rw [hother, hf heq]
  · intro hslot
    exact ⟨label, hslot, rfl⟩

theorem find?_eq (h : Renames f t t') (hf : Function.Injective f) (label : BitString) :
    t'.find? (f label) = t.find? label := by
  rw [find?, find?, h.index_eq hf]
  congr 1
  funext slot
  rw [h.getElem?_entries, Option.map_map]
  rfl

theorem append (h : Renames f t t') (hf : Function.Injective f) {label : BitString}
    (hnew : t.find? label = none) (e : LabelEntry) :
    Renames f (t.append label e) (t'.append (f label) e) := by
  have hnew' : t'.find? (f label) = none := (h.find?_eq hf label).trans hnew
  refine ⟨h.consistent.append hnew e, h.consistent'.append hnew' e, ?_⟩
  simp only [LabelTable.append, h.entries, Array.map_push]

theorem setDefined (h : Renames f t t') (hf : Function.Injective f) (label : BitString) :
    Renames f (t.setDefined label) (t'.setDefined (f label)) := by
  refine ⟨h.consistent.setDefined label, h.consistent'.setDefined (f label), ?_⟩
  rw [LabelTable.setDefined, LabelTable.setDefined, h.index_eq hf]
  cases t.index[label]? with
  | none => exact h.entries
  | some slot =>
    apply Array.ext_getElem?
    intro k
    simp only [h.entries, Array.getElem?_modify, Array.getElem?_map]
    split
    · rw [Option.map_map, Option.map_map]
      rfl
    · rfl

/-- The first label that is not defined is the same one, renamed. -/
theorem undefined?_eq (h : Renames f t t') : t'.undefined? = t.undefined?.map f := by
  rw [undefined?, undefined?, h.entries, Array.find?_map, Option.map_map, Option.map_map]
  rfl

end Renames

end LabelTable

namespace Lowering

def withLabels (s : Lowering) (labels : LabelTable) : Lowering := { s with labels }

/-- The second state differs from the first in the names of the labels only. -/
structure Renames (f : BitString → BitString) (s s' : Lowering) : Prop where
  rest : s' = s.withLabels s'.labels
  labels : s.labels.Renames f s'.labels

/-- Both come to states that differ in names only, or to errors that do. -/
inductive Corresponds (f : BitString → BitString) :
    Except CompileError Lowering → Except CompileError Lowering → Prop where
  | ok {s s' : Lowering} (h : Renames f s s') : Corresponds f (.ok s) (.ok s')
  | error (e : CompileError) : Corresponds f (.error e) (.error (e.relabel f))

theorem renames_empty (f : BitString → BitString) : Renames f empty empty :=
  ⟨rfl, LabelTable.renames_empty f⟩

theorem ret_withLabels (s : Lowering) (labels : LabelTable) :
    (s.withLabels labels).ret = s.ret.withLabels labels := by
  obtain ⟨slots, targets, _, returnSites, dispatcher, height⟩ := s
  cases dispatcher <;> rfl

theorem close_withLabels (s : Lowering) (labels : LabelTable) :
    (s.withLabels labels).close = (s.close.1.withLabels labels, s.close.2) := by
  rw [close_eq, close_eq]
  by_cases hnone : (s.returnSites.isEmpty && s.dispatcher.isNone) = true
  · rw [if_pos hnone]
    exact if_pos hnone
  · rw [if_neg hnone]
    exact if_neg hnone

namespace Renames

variable {s s' : Lowering}

/-- What does not look at the labels leaves a difference in names only. -/
theorem map (h : Renames f s s') {g : Lowering → Lowering}
    (hg : ∀ s labels, g (s.withLabels labels) = (g s).withLabels labels) :
    Renames f (g s) (g s') := by
  have hself : g s = (g s).withLabels s.labels := hg s s.labels
  have hother : g s' = (g s).withLabels s'.labels := by rw [← hg, ← h.rest]
  constructor
  · rw [hother]
    rfl
  · rw [hself, hother]
    exact h.labels

theorem emit (h : Renames f s s') (op : Op) (change : Int) :
    Renames f (s.emit op change) (s'.emit op change) :=
  h.map (g := (Lowering.emit · op change)) fun _ _ => rfl

theorem emitBranch (h : Renames f s s') (kind : BranchKind) (t : Target) (change : Int) :
    Renames f (s.emitBranch kind t change) (s'.emitBranch kind t change) :=
  h.map (g := (Lowering.emitBranch · kind t change)) fun _ _ => rfl

theorem targets_eq (h : Renames f s s') : s'.targets = s.targets := by
  rw [h.rest]
  rfl

theorem freshEntry_eq (h : Renames f s s') : s'.freshEntry = s.freshEntry := by
  rw [freshEntry, freshEntry, h.targets_eq]

theorem entryOf_eq (h : Renames f s s') (hf : Function.Injective f) (label : BitString) :
    s'.entryOf (f label) = s.entryOf label := by
  have hfind := h.labels.find?_eq hf label
  cases hentry : s.labels.find? label with
  | some e =>
    rw [hentry] at hfind
    rw [(reserve_of_find? hentry).2, (reserve_of_find? hfind).2]
  | none =>
    rw [hentry] at hfind
    rw [(reserve_of_new hentry).2, (reserve_of_new hfind).2, h.freshEntry_eq]

theorem reserve (h : Renames f s s') (hf : Function.Injective f) (label : BitString) :
    Renames f (s.reserve label) (s'.reserve (f label)) := by
  have hfind := h.labels.find?_eq hf label
  cases hentry : s.labels.find? label with
  | some e =>
    rw [hentry] at hfind
    rw [(reserve_of_find? hentry).1, (reserve_of_find? hfind).1]
    exact h
  | none =>
    rw [hentry] at hfind
    rw [(reserve_of_new hentry).1, (reserve_of_new hfind).1, h.freshEntry_eq]
    refine ⟨?_, h.labels.append hf hentry s.freshEntry⟩
    rw [h.rest]
    rfl

theorem attach (h : Renames f s s') (hf : Function.Injective f) (label : BitString)
    (e : LabelEntry) : Renames f (s.attach label e) (s'.attach (f label) e) := by
  refine ⟨?_, h.labels.setDefined hf label⟩
  rw [h.rest]
  rfl

end Renames

/-- An instruction that names a label goes on with the renamed label, or lacks it either way. -/
theorem corresponds_literal {i : Instruction} (hlabel : i.opcode.paramKind = .label)
    {k k' : BitString → Except CompileError Lowering}
    (h : ∀ label, Corresponds f (k label) (k' (f label))) :
    Corresponds f ((literal i).bind k) ((literal (i.relabel f)).bind k') := by
  obtain ⟨op, param, line⟩ := i
  have hrelabel : Instruction.relabel f ⟨op, param, line⟩ = ⟨op, param.map f, line⟩ := by
    rw [Instruction.relabel, hlabel]
  rw [hrelabel]
  cases param with
  | none => exact .error (.missingLiteral line op)
  | some label => exact h label

/-- What is wrong with a number is not about labels. -/
theorem relabel_of_number {i : Instruction} {e : CompileError} (h : number i = .error e) :
    e.relabel f = e := by
  obtain ⟨op, param, line⟩ := i
  cases param with
  | none => cases h; rfl
  | some bits =>
    simp only [number, literal, bind, Except.bind] at h
    split at h
    · cases h
    · cases h; rfl

theorem relabel_of_resolve {ts : Targets} {a : Nat} {slot : Slot} {e : CompileError}
    (h : resolve ts a slot = .error e) : e.relabel f = e := by
  cases slot with
  | op op => cases h
  | branch kind t =>
    rw [resolve] at h
    split at h
    · cases h
    · cases h; rfl

theorem relabel_of_mapM {ts : Targets} {slots : List (Slot × Nat)} {e : CompileError}
    (h : slots.mapM (fun x => resolve ts x.2 x.1) = .error e) : e.relabel f = e := by
  induction slots with
  | nil => cases h
  | cons x slots ih =>
    rw [List.mapM_cons] at h
    cases hop : resolve ts x.2 x.1 with
    | error e' =>
      rw [hop] at h
      cases h
      exact relabel_of_resolve hop
    | ok op =>
      rw [hop] at h
      change (slots.mapM fun x => resolve ts x.2 x.1).bind _ = _ at h
      cases hops : (slots.mapM fun x => resolve ts x.2 x.1 : Except CompileError (List Op)) with
      | error e' =>
        rw [hops] at h
        cases h
        exact ih hops
      | ok ops => rw [hops] at h; cases h

namespace Renames

variable {s s' : Lowering} {i : Instruction}

theorem branchTo (h : Renames f s s') (hf : Function.Injective f)
    (hlabel : i.opcode.paramKind = .label) (kind : BranchKind) (change : Int) :
    Corresponds f (s.branchTo i kind change) (s'.branchTo (i.relabel f) kind change) := by
  rw [branchTo_eq, branchTo_eq]
  apply corresponds_literal hlabel
  intro label
  rw [h.entryOf_eq hf]
  exact .ok ((h.reserve hf label).emitBranch kind _ change)

theorem mark (h : Renames f s s') (hf : Function.Injective f)
    (hlabel : i.opcode.paramKind = .label) :
    Corresponds f (s.mark i) (s'.mark (i.relabel f)) := by
  have hline : (i.relabel f).line = i.line := by rw [Instruction.relabel, hlabel]
  rw [mark_eq, mark_eq, hline]
  apply corresponds_literal hlabel
  intro label
  rw [h.entryOf_eq hf]
  split
  · exact .error (.duplicateLabel label i.line)
  · exact .ok ((h.reserve hf label).attach hf label _)

theorem call (h : Renames f s s') (hf : Function.Injective f)
    (hlabel : i.opcode.paramKind = .label) :
    Corresponds f (s.call i) (s'.call (i.relabel f)) := by
  have hsites : s'.returnSites = s.returnSites := by
    rw [h.rest]
    rfl
  rw [call_eq, call_eq, hsites]
  apply corresponds_literal hlabel
  intro label
  rw [h.entryOf_eq hf]
  have hjumped := ((h.reserve hf label).emit (.pushReturn s.returnSites.size.toUInt32) 0).emitBranch
    .always (s.entryOf label).target 0
  exact .ok (hjumped.map (g := addSite) fun _ _ => rfl)

/-- An instruction without a label is lowered in the same way. -/
theorem lower_plain (h : Renames f s s') (hlabel : i.opcode.paramKind ≠ .label) :
    Corresponds f (s.lower i) (s'.lower i) := by
  rw [Lowering.lower, Lowering.lower]
  cases hop : i.opcode with
  | push =>
    cases hn : number i with
    | error e =>
      have herror := Corresponds.error (f := f) e
      rw [relabel_of_number hn] at herror
      exact herror
    | ok n => exact .ok (h.emit (.push n) 1)
  | mark | call | jump | jumpIfZero | jumpIfNegative => rw [hop] at hlabel; exact absurd rfl hlabel
  | ret => exact .ok (h.map ret_withLabels)
  | halt => exact .ok ((h.emit .halt 0).map (g := fun s => { s with height := 0 }) fun _ _ => rfl)
  | _ => exact .ok (h.emit _ _)

theorem lower (h : Renames f s s') (hf : Function.Injective f) (i : Instruction) :
    Corresponds f (s.lower i) (s'.lower (i.relabel f)) := by
  by_cases hlabel : i.opcode.paramKind = .label
  · have hopcode : (i.relabel f).opcode = i.opcode := by rw [Instruction.relabel, hlabel]
    rw [Lowering.lower, Lowering.lower, hopcode]
    cases hop : i.opcode with
    | mark => exact h.mark hf hlabel
    | call => exact h.call hf hlabel
    | jump | jumpIfZero | jumpIfNegative => exact h.branchTo hf hlabel _ _
    | _ => rw [hop] at hlabel; cases hlabel
  · have hsame : i.relabel f = i := by
      rw [Instruction.relabel]
      split
      · next heq => exact absurd heq hlabel
      · rfl
      · rfl
    rw [hsame]
    exact h.lower_plain hlabel

theorem lowerAll (h : Renames f s s') (hf : Function.Injective f) (is : List Instruction) :
    Corresponds f (s.lowerAll is) (s'.lowerAll (is.map (Instruction.relabel f))) := by
  induction is generalizing s s' with
  | nil => exact .ok h
  | cons i is ih =>
    have hstep := h.lower hf i
    rw [List.map_cons, Lowering.lowerAll, Lowering.lowerAll]
    generalize s.lower i = x at hstep
    generalize s'.lower (i.relabel f) = x' at hstep
    cases hstep with
    | ok hnext => exact ih hnext
    | error e => exact .error e

theorem finish (h : Renames f s s') (n : Nat) :
    s'.finish n = (s.finish n).mapError (CompileError.relabel f) := by
  have hclose : s'.close = (s.close.1.withLabels s'.labels, s.close.2) := by
    rw [← close_withLabels, ← h.rest]
  rw [Lowering.finish, Lowering.finish, hclose]
  dsimp only [withLabels]
  rw [labels_close, h.labels.undefined?_eq]
  cases s.labels.undefined? with
  | some label => rfl
  | none =>
    change Except.map _ s.close.1.resolveAll = (Except.map _ s.close.1.resolveAll).mapError _
    cases hops : s.close.1.resolveAll with
    | ok ops => rfl
    | error e => exact congrArg Except.error (relabel_of_mapM hops).symm

end Renames

end Lowering

namespace Program

/-- Renaming the labels of a program one to one changes nothing in its code, and nothing in its
error but the name of the label. -/
theorem compile_relabel (hf : Function.Injective f) (p : Program) :
    (p.relabel f).compile = p.compile.mapError (CompileError.relabel f) := by
  have hlower := (Lowering.renames_empty f).lowerAll hf p.instructions.toList
  have hsize : (p.relabel f).size = p.size := Array.size_map
  rw [compile, compile, hsize, relabel, Array.toList_map]
  generalize Lowering.empty.lowerAll p.instructions.toList = x at hlower
  generalize Lowering.empty.lowerAll (p.instructions.toList.map _) = x' at hlower
  cases hlower with
  | ok h => exact h.finish p.size
  | error e => rfl

/-- Jumps to the empty label over a call of another one. -/
def jumpOver : Program where
  instructions := #[⟨.jump, some [], 1⟩, ⟨.call, some [.tab], 1⟩, ⟨.mark, some [], 1⟩,
    ⟨.mark, some [.tab], 1⟩, ⟨.ret, none, 1⟩]
  labels := ∅

def jumpOverCode : Code where
  ops := #[.jump 3, .pushReturn 0, .jump 1, .jump 2, .halt, .dispatch #[-2]]
  returnSites := 1
  dispatcher := some 5
  sourceInstructions := 5

/-- Marks the empty label twice. -/
def markedTwice : Program where
  instructions := #[⟨.mark, some [], 1⟩, ⟨.jump, some [.tab], 2⟩, ⟨.mark, some [], 3⟩]
  labels := ∅

theorem prefixed_labels_compile :
    Function.Injective (List.cons Bit.tab) ∧
      jumpOver.compile = .ok jumpOverCode ∧
      (jumpOver.relabel (List.cons .tab)).compile = .ok jumpOverCode ∧
      markedTwice.compile = .error (.duplicateLabel [] 3) ∧
      (markedTwice.relabel (List.cons .tab)).compile = .error (.duplicateLabel [.tab] 3) := by
  have hf : Function.Injective (List.cons Bit.tab) := List.cons_injective
  have hover : jumpOver.compile = .ok jumpOverCode := by cbv
  have htwice : markedTwice.compile = .error (.duplicateLabel [] 3) := by cbv
  refine ⟨hf, hover, ?_, htwice, ?_⟩
  · rw [compile_relabel hf, hover]
    rfl
  · rw [compile_relabel hf, htwice]
    rfl

end Program

end Whitespace
