import Whitespace.Proofs.Number
import Whitespace.Proofs.Placement

/-!
Which programs compile, and what is said of those that do not. An instruction is faulty for what is
written in it or before it, and lowering stops at the first one. Where there is none, the first
mention of a label without a mark is reported; and where every label has its mark, all targets
have been placed and the program compiles.
-/
namespace Whitespace

open Layout
open Instruction (markIndex?)

namespace Instruction

/-- Some instruction marks the label. -/
def Marked (is : List Instruction) (label : BitString) : Prop := ∃ i ∈ is, i.marks label = true

instance (is : List Instruction) (label : BitString) : Decidable (Marked is label) :=
  inferInstanceAs (Decidable (∃ i ∈ is, i.marks label = true))

/-- The label that the instruction names, be it by marking it. -/
def mention? (i : Instruction) : Option BitString :=
  match i.opcode.paramKind with
  | .label => i.param
  | _ => none

/-- The error that an instruction calls for if it comes after `earlier`. -/
inductive Faulty (earlier : List Instruction) (i : Instruction) : CompileError → Prop where
  | missingLiteral (hkind : i.opcode.paramKind ≠ .none) (hparam : i.param = none) :
      Faulty earlier i (.missingLiteral i.line i.opcode)
  | literalOverflow {bits : BitString} (hop : i.opcode = .push) (hparam : i.param = some bits)
      (hwide : 32 ≤ bits.length) : Faulty earlier i (.literalOverflow i.line bits.length)
  | duplicateLabel {label : BitString} (hop : i.opcode = .mark) (hparam : i.param = some label)
      (hmarked : Marked earlier label) : Faulty earlier i (.duplicateLabel label i.line)

theorem Faulty.unique {earlier : List Instruction} {i : Instruction} {e e' : CompileError}
    (h : Faulty earlier i e) (h' : Faulty earlier i e') : e = e' := by
  cases h with
  | missingLiteral hkind hparam =>
    cases h' with
    | missingLiteral => rfl
    | literalOverflow _ hparam' | duplicateLabel _ hparam' => cases hparam.symm.trans hparam'
  | literalOverflow hop hparam =>
    cases h' with
    | missingLiteral _ hparam' => cases hparam.symm.trans hparam'
    | literalOverflow _ hparam' => cases hparam.symm.trans hparam'; rfl
    | duplicateLabel hop' => cases hop.symm.trans hop'
  | duplicateLabel hop hparam =>
    cases h' with
    | missingLiteral _ hparam' => cases hparam.symm.trans hparam'
    | literalOverflow hop' => cases hop.symm.trans hop'
    | duplicateLabel _ hparam' => cases hparam.symm.trans hparam'; rfl

theorem marked_iff_place? {is : List Instruction} {label : BitString} :
    Marked is label ↔ (place? is (.label label)).isSome = true := by
  simp [Marked, place?, markIndex?]

/-- The index of an instruction that is faulty, and its error. -/
def FaultyAt (is : List Instruction) (n : Nat) (e : CompileError) : Prop :=
  ∃ i, is[n]? = some i ∧ Faulty (is.take n) i e

/-- No instruction is faulty. -/
def Clean (is : List Instruction) : Prop := ∀ n e, ¬ FaultyAt is n e

/-- The error of the first faulty instruction. -/
def FirstFault (is : List Instruction) (e : CompileError) : Prop :=
  ∃ n, FaultyAt is n e ∧ ∀ m < n, ∀ e', ¬ FaultyAt is m e'

/-- Every label that is named has a mark. -/
def AllMarked (is : List Instruction) : Prop :=
  ∀ i ∈ is, ∀ label, i.mention? = some label → Marked is label

/-- The label without a mark that is named first. -/
def FirstUnmarked (is : List Instruction) (label : BitString) : Prop :=
  ∃ (n : Nat) (i : Instruction), is[n]? = some i ∧ i.mention? = some label ∧ ¬ Marked is label ∧
    ∀ m < n, ∀ (j : Instruction) (l : BitString), is[m]? = some j → j.mention? = some l →
      Marked is l

variable {is later : List Instruction} {i : Instruction} {n : Nat} {e : CompileError}

/-- What comes later does not make an instruction faulty. -/
theorem faultyAt_append (h : n < is.length) : FaultyAt (is ++ later) n e ↔ FaultyAt is n e := by
  rw [FaultyAt, FaultyAt, List.getElem?_append_left h,
    List.take_append_of_le_length (Nat.le_of_lt h)]

theorem faultyAt_length : FaultyAt (is ++ i :: later) is.length e ↔ Faulty is i e := by
  simp [FaultyAt]

theorem Clean.concat (h : Clean is) (hi : ∀ e, ¬ Faulty is i e) : Clean (is ++ [i]) := by
  intro n e hfault
  rcases Nat.lt_trichotomy n is.length with hlt | rfl | hgt
  · exact h n e ((faultyAt_append hlt).mp hfault)
  · exact hi e (faultyAt_length.mp hfault)
  · obtain ⟨j, hj, _⟩ := hfault
    have hlength := (List.getElem?_eq_some_iff.mp hj).1
    rw [List.length_append, List.length_singleton] at hlength
    omega

theorem Clean.firstFault (h : Clean is) (hi : Faulty is i e) (later : List Instruction) :
    FirstFault (is ++ i :: later) e := by
  refine ⟨is.length, faultyAt_length.mpr hi, fun m hm e' hfault => ?_⟩
  exact h m e' ((faultyAt_append hm).mp hfault)

theorem FirstFault.unique {e' : CompileError} (h : FirstFault is e) (h' : FirstFault is e') :
    e = e' := by
  obtain ⟨n, hfault, hfirst⟩ := h
  obtain ⟨n', hfault', hfirst'⟩ := h'
  rcases Nat.lt_trichotomy n n' with hlt | rfl | hgt
  · exact absurd hfault (hfirst' n hlt e)
  · obtain ⟨i, hi, hfaulty⟩ := hfault
    obtain ⟨i', hi', hfaulty'⟩ := hfault'
    cases hi.symm.trans hi'
    exact hfaulty.unique hfaulty'
  · exact absurd hfault' (hfirst n' hgt e')

theorem mention?_of_op? {op : Op} (h : i.op? = some op) : i.mention? = none := by
  unfold mention?
  split
  · next hkind => cases hop : i.opcode <;> simp_all [op?, Opcode.paramKind]
  · rfl

end Instruction

open Instruction

namespace Lowering

variable {done : List Instruction} {s s' : Lowering} {i : Instruction} {e : CompileError}

theorem faulty_of_number (hop : i.opcode = .push) (h : number i = .error e) :
    Faulty done i e := by
  cases hparam : i.param with
  | none =>
    simp only [number, literal, hparam, bind, Except.bind] at h
    cases h
    exact .missingLiteral (by rw [hop]; decide) hparam
  | some bits =>
    simp only [number, literal, hparam, bind, Except.bind] at h
    by_cases hwide : BitString.numberWidth < bits.length
    · rw [BitString.toNumber_of_wide hwide] at h
      cases h
      exact .literalOverflow hop hparam hwide
    · obtain ⟨n, hn, _⟩ := BitString.toNumber_of_narrow (Nat.le_of_not_lt hwide)
      rw [hn] at h
      cases h

/-- What goes on with a literal fails for the lack of it, or later. -/
theorem faulty_of_literal_bind (hkind : i.opcode.paramKind ≠ .none)
    {k : BitString → Except CompileError Lowering}
    (hk : ∀ bits, i.param = some bits → k bits = .error e → Faulty done i e)
    (h : (literal i).bind k = .error e) : Faulty done i e := by
  unfold literal at h
  cases hparam : i.param with
  | none =>
    rw [hparam] at h
    cases h
    exact .missingLiteral hkind hparam
  | some bits =>
    rw [hparam] at h
    exact hk bits hparam h

theorem Lays.faulty_of_mark (h : Lays done s) (hop : i.opcode = .mark)
    (herror : s.mark i = .error e) : Faulty done i e := by
  rw [mark_eq] at herror
  refine faulty_of_literal_bind (by rw [hop]; decide) (fun label hparam hlabel => ?_) herror
  split at hlabel
  · next hdefined =>
    cases hlabel
    have hfind := find?_reserve h.laid.consistent label
    have hplaced := ((h.laid.reserve label).defined hfind).mp hdefined
    exact .duplicateLabel hop hparam (marked_iff_place?.mpr hplaced)
  · cases hlabel

/-- Every error of lowering is that of a faulty instruction. -/
theorem Lays.faulty_of_error (h : Lays done s) (herror : s.lower i = .error e) :
    Faulty done i e := by
  rw [lower] at herror
  cases hop : i.opcode with
  | push =>
    rw [hop] at herror
    cases hn : number i with
    | error e' => rw [hn] at herror; cases herror; exact faulty_of_number hop hn
    | ok n => rw [hn] at herror; cases herror
  | mark =>
    rw [hop] at herror
    exact h.faulty_of_mark hop herror
  | call | jump | jumpIfZero | jumpIfNegative =>
    -- a label is looked up without fail
    rw [hop] at herror
    refine faulty_of_literal_bind (by rw [hop]; decide) (fun label _ hlabel => ?_) herror
    cases hlabel
  | _ => rw [hop] at herror; cases herror

/-- An instruction that can be lowered is not faulty. -/
theorem Lays.not_faulty (h : Lays done s) (hstep : Step s i s') (e : CompileError) :
    ¬ Faulty done i e := by
  have hcomplete : i.Complete := (h.step hstep).complete i (by simp)
  intro hfaulty
  rw [Complete] at hcomplete
  cases hfaulty with
  | missingLiteral hkind hparam =>
    split at hcomplete
    · next hnone => exact hkind hnone
    · obtain ⟨bits, n, hsome, _⟩ := hcomplete
      cases hparam.symm.trans hsome
    · obtain ⟨label, hsome⟩ := hcomplete
      cases hparam.symm.trans hsome
  | @literalOverflow bits hop hparam hwide =>
    rw [hop] at hcomplete
    obtain ⟨bits', n, hsome, hn⟩ := hcomplete
    cases hparam.symm.trans hsome
    rw [BitString.toNumber_of_wide hwide] at hn
    cases hn
  | @duplicateLabel label hop hparam hmarked =>
    have hmarks : i.marks label = true := by simp [marks, hop, hparam]
    have hnew := h.markIndex?_of_step hstep hmarks
    rw [marked_iff_place?, place?, hnew] at hmarked
    cases hmarked

/-- Lowering goes through exactly if no instruction is faulty, and stops at the first that is. -/
theorem Lays.lowerAll (h : Lays done s) (hclean : Clean done) (is : List Instruction) :
    (∃ s', s.lowerAll is = .ok s' ∧ Clean (done ++ is)) ∨
      ∃ e, s.lowerAll is = .error e ∧ FirstFault (done ++ is) e := by
  induction is generalizing done s with
  | nil => exact .inl ⟨s, rfl, by rw [List.append_nil]; exact hclean⟩
  | cons i is ih =>
    rw [Lowering.lowerAll]
    cases hlower : s.lower i with
    | error e => exact .inr ⟨e, rfl, hclean.firstFault (h.faulty_of_error hlower) is⟩
    | ok s' =>
      have hstep := step_of_lower hlower
      have hrest := ih (h.step hstep) (hclean.concat (h.not_faulty hstep))
      rw [List.append_assoc] at hrest
      exact hrest

/-- The labels that are named, one after the other. -/
def mentions (is : List Instruction) : List BitString := is.filterMap mention?

theorem mentions_concat_of_none (h : i.mention? = none) :
    mentions (done ++ [i]) = mentions done := by
  simp [mentions, h]

theorem mentions_concat_of_some {l : BitString} (h : i.mention? = some l) :
    mentions (done ++ [i]) = mentions done ++ [l] := by
  simp [mentions, h]

theorem names_reserve {labels : List BitString} (hs : s.labels.Consistent)
    (hnames : s.labels.names = labels.eraseDups) (l : BitString) :
    (s.reserve l).labels.names = (labels ++ [l]).eraseDups := by
  have hmem : l ∈ labels ↔ ∃ e, s.labels.find? l = some e := by
    rw [← hs.mem_names_iff, hnames, List.mem_eraseDups]
  rw [eraseDups_concat]
  cases hfind : s.labels.find? l with
  | some e => rw [(reserve_of_find? hfind).1, if_pos (hmem.mpr ⟨e, hfind⟩), hnames]
  | none =>
    have hnew : l ∉ labels := by simp [hmem, hfind]
    rw [(reserve_of_new hfind).1, if_neg hnew, LabelTable.names_append, hnames]

/-- The table lists the labels in the order in which they are first named. -/
theorem Lays.names_step (h : Lays done s) (hstep : Step s i s')
    (hnames : s.labels.names = (mentions done).eraseDups) :
    s'.labels.names = (mentions (done ++ [i])).eraseDups := by
  have hreserve := names_reserve h.laid.consistent hnames
  cases hstep with
  | plain hop =>
    rw [mentions_concat_of_none (mention?_of_op? hop)]
    exact hnames
  | @mark l hop hparam hnew =>
    have hmention : i.mention? = some l := by simp [mention?, hop, Opcode.paramKind, hparam]
    rw [mentions_concat_of_some hmention, ← hreserve l]
    exact LabelTable.names_setDefined _ l
  | @branch kind l hop hparam change =>
    have hmention : i.mention? = some l := by
      simp [mention?, (Opcode.branchKind?_ne hop).1, hparam]
    rw [mentions_concat_of_some hmention]
    exact hreserve l
  | @call l hop hparam =>
    have hmention : i.mention? = some l := by simp [mention?, hop, Opcode.paramKind, hparam]
    rw [mentions_concat_of_some hmention]
    exact hreserve l
  | ret hop | firstRet hop =>
    have hmention : i.mention? = none := by simp [mention?, hop, Opcode.paramKind]
    rw [mentions_concat_of_none hmention]
    exact hnames

theorem names_of_lowerAll {is : List Instruction} (h : empty.lowerAll is = .ok s) :
    s.labels.names = (mentions is).eraseDups := by
  have hall := lowerAll_induction
    (P := fun done s => Lays done s ∧ s.labels.names = (mentions done).eraseDups)
    (fun hlays hstep => ⟨hlays.1.step hstep, hlays.1.names_step hstep hlays.2⟩)
    ⟨lays_empty, rfl⟩ h
  exact hall.2

end Lowering

namespace Lowering

variable {is : List Instruction} {s : Lowering}

theorem firstUnmarked_iff {label : BitString} :
    (mentions is).find? (fun l => !decide (Marked is l)) = some label ↔
      FirstUnmarked is label := by
  rw [mentions, List.find?_filterMap, Option.bind_eq_some_iff]
  constructor
  · rintro ⟨i, hfind, hmention⟩
    obtain ⟨hunmarked, n, hn, rfl, hfirst⟩ := List.find?_eq_some_iff_getElem.mp hfind
    refine ⟨n, is[n], List.getElem?_eq_getElem hn, hmention, ?_, fun m hm j l hj hl => ?_⟩
    · simpa [hmention] using hunmarked
    · obtain ⟨_, rfl⟩ := List.getElem?_eq_some_iff.mp hj
      simpa [hl] using hfirst m hm
  · rintro ⟨n, i, hi, hmention, hunmarked, hfirst⟩
    obtain ⟨hn, rfl⟩ := List.getElem?_eq_some_iff.mp hi
    refine ⟨is[n], List.find?_eq_some_iff_getElem.mpr ⟨?_, n, hn, rfl, fun m hm => ?_⟩, hmention⟩
    · simp [hmention, hunmarked]
    · cases hl : is[m].mention? with
      | none => rfl
      | some l => simp [hfirst m hm _ l (List.getElem?_eq_getElem _) hl]

theorem allMarked_iff :
    (mentions is).find? (fun l => !decide (Marked is l)) = none ↔ AllMarked is := by
  simp only [List.find?_eq_none, mentions, List.mem_filterMap, AllMarked]
  grind

theorem Lays.undefined?_eq (h : Lays is s) (hnames : s.labels.names = (mentions is).eraseDups) :
    s.labels.undefined? = (mentions is).find? fun l => !decide (Marked is l) := by
  have hflag : ∀ {l e}, s.labels.find? l = some e → e.defined = decide (Marked is l) := by
    intro l e he
    rw [Bool.eq_iff_iff, decide_eq_true_iff, marked_iff_place?]
    exact h.laid.defined he
  rw [h.laid.consistent.undefined?_eq hflag, hnames, find?_eraseDups]

/-- Everything that a target stands for has been placed, but for the dispatcher. -/
theorem Lays.placed (h : Lays is s) (hundefined : s.labels.undefined? = none) {t : Target}
    {d : Destination} (ht : s.Stands t d) (hd : d ≠ .dispatcher) :
    ∃ a, s.targets.address? t = some a := by
  rw [← Option.isSome_iff_exists, h.laid.assigned.placed ht]
  cases d with
  | label l =>
    obtain ⟨e, he, _⟩ := ht
    have hdefined := (LabelTable.undefined?_eq_none_iff h.laid.consistent).mp hundefined
    exact (h.laid.defined he).mp (hdefined l e he)
  | site k =>
    have hlt : k < s.returnSites.size := (Array.getElem?_eq_some_iff.mp ht).1
    rw [h.sites, ← length_returnIndices] at hlt
    simp [place?, hlt]
  | dispatcher => exact absurd rfl hd

/-- In the end the dispatcher has been placed too. -/
theorem Lays.placed_finally (h : Lays is s) (hundefined : s.labels.undefined? = none) {t : Target}
    {d : Destination} (ht : s.Stands t d) : ∃ a, s.finalTargets.address? t = some a := by
  rw [finalTargets]
  cases hdispatcher : s.dispatcher with
  | none =>
    refine h.placed hundefined ht ?_
    rintro rfl
    cases hdispatcher.symm.trans ht
  | some u =>
    by_cases hut : t = u
    · subst hut
      exact ⟨_, Targets.address?_place_self (h.laid.assigned.allocated ht) _⟩
    · dsimp only
      rw [Targets.address?_place_ne hut]
      refine h.placed hundefined ht ?_
      rintro rfl
      exact hut (Option.some.inj (ht.symm.trans hdispatcher))

theorem targets_close (s : Lowering) : s.close.1.targets = s.finalTargets := by
  rw [close_eq]
  split
  · next hnone =>
    have hdispatcher : s.dispatcher = none := by
      rw [Bool.and_eq_true, Option.isNone_iff_eq_none] at hnone
      exact hnone.2
    rw [finalTargets, hdispatcher]
  · rfl

theorem stands_close (s : Lowering) : s.close.1.Stands = s.Stands := by
  funext t d
  rw [close_eq]
  split <;> cases d <;> rfl

theorem exists_mapM_ok {α β : Type} {f : α → Except CompileError β} {l : List α}
    (h : ∀ a ∈ l, ∃ b, f a = .ok b) : ∃ bs, l.mapM f = .ok bs := by
  induction l with
  | nil => exact ⟨[], rfl⟩
  | cons a l ih =>
    obtain ⟨b, hb⟩ := h a List.mem_cons_self
    obtain ⟨bs, hbs⟩ := ih fun a' ha' => h a' (List.mem_cons_of_mem a ha')
    refine ⟨b :: bs, ?_⟩
    rw [List.mapM_cons, hb]
    change (l.mapM f).bind _ = _
    rw [hbs]
    rfl

/-- The target of a branch stands for something. -/
theorem exists_stands {stands : Target → Destination → Prop} {slots : List Slot} {ds : List Draft}
    (h : List.Forall₂ (Sketches stands) slots ds) {kind : BranchKind} {t : Target}
    (hmem : .branch kind t ∈ slots) : ∃ d, stands t d := by
  induction h with
  | nil => cases hmem
  | cons hd _ ih =>
    rcases List.mem_cons.mp hmem with rfl | hmem
    · cases hd with
      | branch _ ht => exact ⟨_, ht⟩
    · exact ih hmem

/-- With all labels marked, no target is left unplaced. -/
theorem Lays.resolves (h : Lays is s) (hundefined : s.labels.undefined? = none) :
    ∃ ops, s.close.1.resolveAll = .ok ops := by
  obtain ⟨place, hlaid, -⟩ := h.close
  apply exists_mapM_ok
  rintro ⟨slot, address⟩ hmem
  have hslot : slot ∈ s.close.1.slots.toList := List.fst_mem_of_mem_zipIdx hmem
  cases slot with
  | op op => exact ⟨op, rfl⟩
  | branch kind t =>
    obtain ⟨d, hd⟩ := exists_stands hlaid.slots hslot
    rw [stands_close] at hd
    obtain ⟨a, ha⟩ := h.placed_finally hundefined hd
    rw [← targets_close] at ha
    exact ⟨kind.op (relative address a),
      by simp only [resolve, ha, BranchKind.withBranchOffset_op]⟩

theorem Lays.finish_of_unmarked (h : Lays is s)
    (hnames : s.labels.names = (mentions is).eraseDups) {label : BitString}
    (hlabel : FirstUnmarked is label) (n : Nat) :
    s.finish n = .error (.undefinedLabel label) := by
  have hundefined := h.undefined?_eq hnames
  rw [firstUnmarked_iff.mpr hlabel] at hundefined
  simp only [finish, labels_close, hundefined]

theorem Lays.finish_of_allMarked (h : Lays is s)
    (hnames : s.labels.names = (mentions is).eraseDups) (hmarked : AllMarked is) (n : Nat) :
    ∃ code, s.finish n = .ok code := by
  have hundefined := h.undefined?_eq hnames
  rw [allMarked_iff.mpr hmarked] at hundefined
  obtain ⟨ops, hops⟩ := h.resolves hundefined
  simp only [finish, labels_close, hundefined, hops]
  exact ⟨_, rfl⟩

end Lowering

namespace Instruction

theorem clean_nil : Clean [] := by
  rintro n e ⟨i, hi, _⟩
  cases hi

theorem clean_or_firstFault (is : List Instruction) : Clean is ∨ ∃ e, FirstFault is e := by
  rcases Lowering.lays_empty.lowerAll clean_nil is with ⟨_, _, hclean⟩ | ⟨e, _, hfirst⟩
  · exact .inl hclean
  · exact .inr ⟨e, hfirst⟩

theorem allMarked_or_firstUnmarked (is : List Instruction) :
    AllMarked is ∨ ∃ label, FirstUnmarked is label := by
  cases hfind : (Lowering.mentions is).find? fun l => !decide (Marked is l) with
  | none => exact .inl (Lowering.allMarked_iff.mp hfind)
  | some label => exact .inr ⟨label, Lowering.firstUnmarked_iff.mp hfind⟩

end Instruction

namespace Program

variable {p : Program}

theorem compile_of_firstFault {e : CompileError} (h : FirstFault p.instructions.toList e) :
    p.compile = .error e := by
  rcases Lowering.lays_empty.lowerAll clean_nil p.instructions.toList with
    ⟨s, _, hclean⟩ | ⟨e', hlower, hfirst⟩
  · obtain ⟨n, hfault, _⟩ := h
    exact absurd hfault (hclean n e)
  · rw [compile, hlower, hfirst.unique h]

theorem exists_lowering_of_clean (h : Clean p.instructions.toList) :
    ∃ s, Lowering.Lays p.instructions.toList s ∧
      s.labels.names = (Lowering.mentions p.instructions.toList).eraseDups ∧
      p.compile = s.finish p.size := by
  rcases Lowering.lays_empty.lowerAll clean_nil p.instructions.toList with
    ⟨s, hlower, _⟩ | ⟨e, _, n, hfault, _⟩
  · refine ⟨s, Lowering.lays_of_lowerAll Lowering.lays_empty hlower,
      Lowering.names_of_lowerAll hlower, ?_⟩
    rw [compile, hlower]
  · exact absurd hfault (h n e)

theorem compile_of_firstUnmarked (hclean : Clean p.instructions.toList) {label : BitString}
    (h : FirstUnmarked p.instructions.toList label) :
    p.compile = .error (.undefinedLabel label) := by
  obtain ⟨s, hlays, hnames, hcompile⟩ := exists_lowering_of_clean hclean
  rw [hcompile]
  exact hlays.finish_of_unmarked hnames h p.size

theorem compile_of_allMarked (hclean : Clean p.instructions.toList)
    (h : AllMarked p.instructions.toList) : ∃ code, p.compile = .ok code := by
  obtain ⟨s, hlays, hnames, hcompile⟩ := exists_lowering_of_clean hclean
  rw [hcompile]
  exact hlays.finish_of_allMarked hnames h p.size

theorem compile_ne_unplacedTarget (p : Program) (address : Nat) :
    p.compile ≠ .error (.unplacedTarget address) := by
  intro hcompile
  rcases clean_or_firstFault p.instructions.toList with hclean | ⟨e, hfirst⟩
  · rcases allMarked_or_firstUnmarked p.instructions.toList with hmarked | ⟨label, hlabel⟩
    · obtain ⟨code, hcode⟩ := compile_of_allMarked hclean hmarked
      cases hcompile.symm.trans hcode
    · cases hcompile.symm.trans (compile_of_firstUnmarked hclean hlabel)
  · cases hcompile.symm.trans (compile_of_firstFault hfirst)
    obtain ⟨n, ⟨i, _, hfaulty⟩, _⟩ := hfirst
    cases hfaulty

/-- The first faulty instruction gives its error. Without one, the label that is named first of
those without a mark is undefined, and without that the program compiles. One of these is always
the case, so no target is left unplaced. -/
theorem compile_diagnoses (p : Program) :
    (∀ e, FirstFault p.instructions.toList e → p.compile = .error e) ∧
    (Clean p.instructions.toList →
      (∀ label, FirstUnmarked p.instructions.toList label →
        p.compile = .error (.undefinedLabel label)) ∧
      (AllMarked p.instructions.toList → ∃ code, p.compile = .ok code)) ∧
    (Clean p.instructions.toList ∨ ∃ e, FirstFault p.instructions.toList e) ∧
    (AllMarked p.instructions.toList ∨ ∃ label, FirstUnmarked p.instructions.toList label) ∧
    ∀ address, p.compile ≠ .error (.unplacedTarget address) := by
  refine ⟨fun e => compile_of_firstFault, fun hclean => ⟨fun label => ?_, ?_⟩,
    clean_or_firstFault _, allMarked_or_firstUnmarked _, compile_ne_unplacedTarget p⟩
  · exact compile_of_firstUnmarked hclean
  · exact compile_of_allMarked hclean

/-- Calls a label that has no mark, marks another one. -/
def callsNowhere : Program := ⟨#[⟨.call, some [.tab], 1⟩, ⟨.mark, some [], 2⟩], ∅⟩

/-- The same, and then marks the other label again and pushes nothing. -/
def marksTwice : Program :=
  ⟨#[⟨.call, some [.tab], 1⟩, ⟨.mark, some [], 2⟩, ⟨.mark, some [], 3⟩, ⟨.push, none, 4⟩], ∅⟩

theorem clean_callsNowhere : Clean callsNowhere.instructions.toList := by
  have hcall : Clean ([] ++ [⟨.call, some [.tab], 1⟩]) := by
    refine clean_nil.concat fun e h => ?_
    cases h with
    | missingLiteral _ hparam => cases hparam
    | literalOverflow hop => cases hop
    | duplicateLabel hop => cases hop
  refine hcall.concat fun e h => ?_
  cases h with
  | missingLiteral _ hparam => cases hparam
  | literalOverflow hop => cases hop
  | duplicateLabel _ hparam hmarked =>
    cases hparam
    revert hmarked
    decide

/-- A fault comes before a label without a mark, though that is named earlier. -/
theorem marksTwice_diagnosed :
    FirstFault marksTwice.instructions.toList (.duplicateLabel [] 3) ∧
      marksTwice.compile = .error (.duplicateLabel [] 3) ∧
      FirstUnmarked callsNowhere.instructions.toList [.tab] ∧
      callsNowhere.compile = .error (.undefinedLabel [.tab]) := by
  have hfault : FirstFault marksTwice.instructions.toList (.duplicateLabel [] 3) :=
    clean_callsNowhere.firstFault (i := ⟨.mark, some [], 3⟩)
      (.duplicateLabel rfl rfl (by decide)) [⟨.push, none, 4⟩]
  have hunmarked : FirstUnmarked callsNowhere.instructions.toList [.tab] :=
    ⟨0, ⟨.call, some [.tab], 1⟩, rfl, rfl, by decide, fun m hm => absurd hm (Nat.not_lt_zero m)⟩
  exact ⟨hfault, (compile_diagnoses marksTwice).1 _ hfault, hunmarked,
    ((compile_diagnoses callsNowhere).2.1 clean_callsNowhere).1 _ hunmarked⟩

end Program

end Whitespace
