import Whitespace.Proofs.Labels
import Whitespace.Proofs.Layout

/-!
Compiling gives the code of the layout. While code is being lowered, each target stands for one
destination and has the address of that destination as soon as the instructions so far tell it.
-/
namespace Whitespace

open Layout
open Instruction (markIndex?)

/-- The height after an op, as far as lowering counts it. -/
def Op.heightAfter (op : Op) (height : Int) : Int :=
  match op with
  | .halt => 0
  | op => height + (op.effect.pushes - op.effect.pops : Int)

namespace Lowering

/-- The entry of a label, which may be a fresh one. -/
def entryOf (s : Lowering) (label : BitString) : LabelEntry := (s.labels.entry s.targets label).1

/-- The state in which the label has its entry. -/
def reserve (s : Lowering) (label : BitString) : Lowering :=
  { s with
    labels := (s.labels.entry s.targets label).2.1
    targets := (s.labels.entry s.targets label).2.2 }

/-- The state after a mark of a label that has this entry. -/
def attach (s : Lowering) (label : BitString) (e : LabelEntry) : Lowering :=
  { s with
    labels := s.labels.setDefined label
    targets := s.targets.place e.target s.slots.size }

/-- The state after the return site of a call. -/
def addSite (s : Lowering) : Lowering :=
  { s with
    targets := s.targets.allocate.2.place s.targets.allocate.1 s.slots.size
    returnSites := s.returnSites.push s.targets.allocate.1 }

/-- The state in which returns have a dispatcher to go to. -/
def reserveDispatcher (s : Lowering) : Lowering :=
  { s with targets := s.targets.allocate.2, dispatcher := some s.targets.allocate.1 }

/-- What lowering an instruction can do. -/
inductive Step (s : Lowering) (i : Instruction) : Lowering → Prop where
  | plain {op : Op} (hop : i.op? = some op) :
      Step s i { s with slots := s.slots.push (.op op), height := op.heightAfter s.height }
  | mark {label : BitString} (hop : i.opcode = .mark) (hparam : i.param = some label)
      (hnew : (s.entryOf label).defined = false) :
      Step s i ((s.reserve label).attach label (s.entryOf label))
  | branch {kind : BranchKind} {label : BitString} (hop : i.opcode.branchKind? = some kind)
      (hparam : i.param = some label) (change : Int) :
      Step s i ((s.reserve label).emitBranch kind (s.entryOf label).target change)
  | call {label : BitString} (hop : i.opcode = .call) (hparam : i.param = some label) :
      Step s i (addSite (((s.reserve label).emit (.pushReturn s.returnSites.size.toUInt32) 0)
        |>.emitBranch .always (s.entryOf label).target 0))
  | ret {t : Target} (hop : i.opcode = .ret) (hdispatcher : s.dispatcher = some t) :
      Step s i (s.emitBranch .always t 0)
  | firstRet (hop : i.opcode = .ret) (hdispatcher : s.dispatcher = none) :
      Step s i (s.reserveDispatcher.emitBranch .always s.targets.allocate.1 0)

theorem branchTo_eq (s : Lowering) (i : Instruction) (kind : BranchKind) (change : Int) :
    s.branchTo i kind change = (literal i).bind fun label =>
      .ok ((s.reserve label).emitBranch kind (s.entryOf label).target change) :=
  rfl

theorem mark_eq (s : Lowering) (i : Instruction) :
    s.mark i = (literal i).bind fun label =>
      if (s.entryOf label).defined then .error (.duplicateLabel label i.line)
      else .ok ((s.reserve label).attach label (s.entryOf label)) :=
  rfl

theorem call_eq (s : Lowering) (i : Instruction) :
    s.call i = (literal i).bind fun label =>
      .ok (addSite (((s.reserve label).emit (.pushReturn s.returnSites.size.toUInt32) 0)
        |>.emitBranch .always (s.entryOf label).target 0)) :=
  rfl

theorem literal_eq_ok {i : Instruction} {bits : BitString} (h : literal i = .ok bits) :
    i.param = some bits := by
  unfold literal at h
  split at h
  · next hparam => cases h; exact hparam
  · cases h

theorem number_eq_ok {i : Instruction} {n : Word} (h : number i = .ok n) :
    ∃ bits, i.param = some bits ∧ bits.toNumber = .ok n := by
  cases hlit : literal i with
  | error e => rw [number, hlit] at h; cases h
  | ok bits =>
    simp only [number, hlit, bind, Except.bind] at h
    split at h
    · next hnumber => cases h; exact ⟨bits, literal_eq_ok hlit, hnumber⟩
    · cases h

theorem step_of_branchTo {s s' : Lowering} {i : Instruction} {kind : BranchKind} {change : Int}
    (hop : i.opcode.branchKind? = some kind) (h : s.branchTo i kind change = .ok s') :
    Step s i s' := by
  cases hlit : literal i with
  | error e => rw [branchTo, hlit] at h; cases h
  | ok label =>
    rw [branchTo, hlit] at h
    cases h
    exact .branch hop (literal_eq_ok hlit) change

theorem step_of_mark {s s' : Lowering} {i : Instruction} (hop : i.opcode = .mark)
    (h : s.mark i = .ok s') : Step s i s' := by
  cases hlit : literal i with
  | error e => rw [mark, hlit] at h; cases h
  | ok label =>
    rw [mark, hlit] at h
    change (if (s.entryOf label).defined = true then _ else _) = _ at h
    split at h
    · cases h
    · next hnew =>
      cases h
      exact .mark hop (literal_eq_ok hlit) (by simpa using hnew)

theorem step_of_call {s s' : Lowering} {i : Instruction} (hop : i.opcode = .call)
    (h : s.call i = .ok s') : Step s i s' := by
  cases hlit : literal i with
  | error e => rw [call, hlit] at h; cases h
  | ok label =>
    rw [call, hlit] at h
    cases h
    exact .call hop (literal_eq_ok hlit)

theorem step_ret {s : Lowering} {i : Instruction} (hop : i.opcode = .ret) : Step s i s.ret := by
  unfold ret
  split
  · next t ht => exact .ret hop ht
  · next hnone => exact .firstRet hop hnone

theorem step_of_lower {s s' : Lowering} {i : Instruction} (h : s.lower i = .ok s') :
    Step s i s' := by
  unfold lower at h
  split at h
  case h_1 hop =>
    cases hn : number i with
    | error e => rw [hn] at h; cases h
    | ok n =>
      rw [hn] at h
      cases h
      obtain ⟨bits, hparam, hnumber⟩ := number_eq_ok hn
      have hpush : i.op? = some (.push n) := by
        simp [Instruction.op?, hop, hparam, hnumber, Except.toOption]
      exact .plain hpush
  case h_12 hop => exact step_of_mark hop h
  case h_13 hop => exact step_of_call hop h
  case h_14 hop => exact step_of_branchTo (by rw [hop]; rfl) h
  case h_15 hop => exact step_of_branchTo (by rw [hop]; rfl) h
  case h_16 hop => exact step_of_branchTo (by rw [hop]; rfl) h
  case h_17 hop => cases h; exact step_ret hop
  all_goals
    next hop =>
      cases h
      exact .plain (by rw [Instruction.op?, hop])

/-- What a target stands for. -/
def Stands (s : Lowering) (t : Target) : Destination → Prop
  | .label l => ∃ e, s.labels.find? l = some e ∧ e.target = t
  | .site k => s.returnSites[k]? = some t
  | .dispatcher => s.dispatcher = some t

end Lowering

/-- The targets stand for destinations one to one, and have the addresses of what they stand
for. -/
structure Assigned (place : Destination → Option Nat) (stands : Target → Destination → Prop)
    (ts : Targets) : Prop where
  allocated : ∀ {t d}, stands t d → t.id < ts.addresses.size
  distinct : ∀ {t d e}, stands t d → stands t e → d = e
  single : ∀ {t u d}, stands t d → stands u d → t = u
  placed : ∀ {t d}, stands t d → ts.address? t = place d
  known : ∀ {d a}, place d = some a → ∃ t, stands t d

namespace Assigned

variable {place : Destination → Option Nat} {stands stands' : Target → Destination → Prop}
  {ts : Targets} {d : Destination}

/-- A fresh target is given to a destination that had none. -/
theorem allocate (h : Assigned place stands ts) (hnew : ∀ t, ¬ stands t d)
    (hstands : ∀ t e, stands' t e ↔ stands t e ∨ t = ts.allocate.1 ∧ e = d) :
    Assigned place stands' ts.allocate.2 := by
  have hfresh : ∀ e, ¬ stands ts.allocate.1 e := fun e he => Nat.lt_irrefl _ (h.allocated he)
  refine ⟨?_, ?_, ?_, ?_, ?_⟩
  · intro t e he
    rw [Targets.size_allocate]
    rcases (hstands t e).mp he with hold | ⟨rfl, _⟩
    · exact Nat.lt_succ_of_lt (h.allocated hold)
    · exact Nat.lt_succ_self _
  · intro t e f he hf
    rcases (hstands t e).mp he with hold | ⟨rfl, rfl⟩
    · rcases (hstands t f).mp hf with hold' | ⟨rfl, _⟩
      · exact h.distinct hold hold'
      · exact absurd hold (hfresh e)
    · rcases (hstands _ f).mp hf with hold' | ⟨_, rfl⟩
      · exact absurd hold' (hfresh f)
      · rfl
  · intro t u e ht hu
    rcases (hstands t e).mp ht with hold | ⟨rfl, rfl⟩
    · rcases (hstands u e).mp hu with hold' | ⟨rfl, rfl⟩
      · exact h.single hold hold'
      · exact absurd hold (hnew t)
    · rcases (hstands u e).mp hu with hold' | ⟨rfl, _⟩
      · exact absurd hold' (hnew u)
      · rfl
  · intro t e he
    rw [Targets.address?_allocate]
    rcases (hstands t e).mp he with hold | ⟨rfl, rfl⟩
    · exact h.placed hold
    · rw [Targets.address?_eq_none (t := ts.allocate.1) (Nat.le_refl _)]
      cases hp : place e with
      | none => rfl
      | some a =>
        obtain ⟨t, ht⟩ := h.known hp
        exact absurd ht (hnew t)
  · intro e a he
    obtain ⟨t, ht⟩ := h.known he
    exact ⟨t, (hstands t e).mpr (.inl ht)⟩

/-- Placing a target places what it stands for. -/
theorem place_target (h : Assigned place stands ts) {t : Target} (ht : stands t d) (a : Nat) :
    Assigned (Function.update place d (some a)) stands (ts.place t a) := by
  refine ⟨?_, h.distinct, h.single, ?_, ?_⟩
  · intro u e he
    rw [Targets.size_place]
    exact h.allocated he
  · intro u e he
    by_cases hut : u = t
    · subst hut
      rw [h.distinct he ht, Function.update_self]
      exact Targets.address?_place_self (h.allocated ht) a
    · have hed : e ≠ d := fun heq => hut (h.single (heq ▸ he) ht)
      rw [Targets.address?_place_ne hut, h.placed he, Function.update_of_ne hed]
  · intro e b he
    by_cases hed : e = d
    · subst hed; exact ⟨t, ht⟩
    · rw [Function.update_of_ne hed] at he
      exact h.known he

end Assigned

/-- A slot is a draft with a target in the place of the destination. -/
inductive Sketches (stands : Target → Destination → Prop) : Slot → Draft → Prop where
  | op (op : Op) : Sketches stands (.op op) (.op op)
  | branch {t : Target} {d : Destination} (kind : BranchKind) (h : stands t d) :
      Sketches stands (.branch kind t) (.branch kind d)

theorem Sketches.mono {stands stands' : Target → Destination → Prop}
    (hsub : ∀ t d, stands t d → stands' t d) {slot : Slot} {d : Draft}
    (h : Sketches stands slot d) : Sketches stands' slot d := by
  cases h with
  | op op => exact .op op
  | branch kind ht => exact .branch kind (hsub _ _ ht)

namespace Lowering

/-- The state holds these drafts, with all destinations placed that have a place. -/
structure Laid (place : Destination → Option Nat) (ds : List Draft) (s : Lowering) : Prop where
  consistent : s.labels.Consistent
  assigned : Assigned place s.Stands s.targets
  defined : ∀ {l e}, s.labels.find? l = some e →
    (e.defined = true ↔ (place (.label l)).isSome = true)
  slots : List.Forall₂ (Sketches s.Stands) s.slots.toList ds

variable {place : Destination → Option Nat} {ds : List Draft} {s : Lowering}

/-- Giving a destination a fresh target unsettles neither the other targets nor the slots. -/
theorem Laid.allocate {s' : Lowering} {d : Destination} (h : Laid place ds s)
    (hnew : ∀ t, ¬ s.Stands t d)
    (hstands : ∀ t e, s'.Stands t e ↔ s.Stands t e ∨ t = s.targets.allocate.1 ∧ e = d) :
    Assigned place s'.Stands s.targets.allocate.2 ∧
      List.Forall₂ (Sketches s'.Stands) s.slots.toList ds := by
  refine ⟨h.assigned.allocate hnew hstands, h.slots.imp fun _ _ hd => hd.mono ?_⟩
  intro t e ht
  exact (hstands t e).mpr (.inl ht)

theorem reserve_of_find? {l : BitString} {e : LabelEntry} (h : s.labels.find? l = some e) :
    s.reserve l = s ∧ s.entryOf l = e := by
  simp [reserve, entryOf, LabelTable.entry_of_find?_eq_some h]

/-- The entry a label gets when it is first mentioned. -/
def freshEntry (s : Lowering) : LabelEntry := ⟨s.targets.allocate.1, false⟩

theorem reserve_of_new {l : BitString} (h : s.labels.find? l = none) :
    s.reserve l =
        { s with labels := s.labels.append l s.freshEntry, targets := s.targets.allocate.2 } ∧
      s.entryOf l = s.freshEntry := by
  simp [reserve, entryOf, freshEntry, LabelTable.entry_of_find?_eq_none h]

theorem find?_reserve (hs : s.labels.Consistent) (l : BitString) :
    (s.reserve l).labels.find? l = some (s.entryOf l) := by
  cases h : s.labels.find? l with
  | some e =>
    obtain ⟨hres, hentry⟩ := reserve_of_find? h
    rw [hres, hentry, h]
  | none =>
    obtain ⟨hres, hentry⟩ := reserve_of_new h
    rw [hres, hentry, LabelTable.find?_append hs h, if_pos rfl]

theorem stands_reserve (hs : s.labels.Consistent) (l : BitString) :
    (s.reserve l).Stands (s.entryOf l).target (.label l) :=
  ⟨_, find?_reserve hs l, rfl⟩

theorem not_stands_of_new {l : BitString} (h : s.labels.find? l = none) (t : Target) :
    ¬ s.Stands t (.label l) := by
  rintro ⟨e, he, _⟩
  rw [h] at he
  cases he

theorem stands_reserve_iff (hs : s.labels.Consistent) {l : BitString}
    (h : s.labels.find? l = none) (t : Target) (d : Destination) :
    (s.reserve l).Stands t d ↔ s.Stands t d ∨ t = s.targets.allocate.1 ∧ d = .label l := by
  have hlookup := LabelTable.find?_append hs h s.freshEntry
  rw [(reserve_of_new h).1]
  cases d with
  | label l' =>
    simp only [Stands, hlookup l', Destination.label.injEq]
    by_cases heq : l = l'
    · subst heq
      simp [h, freshEntry, eq_comm]
    · simp [heq, Ne.symm heq]
  | site k => simp [Stands]
  | dispatcher => simp [Stands]

theorem Laid.reserve (h : Laid place ds s) (l : BitString) : Laid place ds (s.reserve l) := by
  cases hfind : s.labels.find? l with
  | some e => rw [(reserve_of_find? hfind).1]; exact h
  | none =>
    have hnew := not_stands_of_new hfind
    have hstands := stands_reserve_iff h.consistent hfind
    obtain ⟨hassigned, hslots⟩ := h.allocate hnew hstands
    have hres := (reserve_of_new hfind).1
    refine ⟨?_, ?_, ?_, hslots⟩
    · rw [hres]; exact h.consistent.append hfind _
    · rw [hres] at hassigned ⊢
      exact hassigned
    · intro l' e he
      rw [hres, LabelTable.find?_append h.consistent hfind] at he
      split at he
      · next heq =>
        cases he
        subst heq
        cases hp : place (.label l) with
        | none => simp [freshEntry]
        | some a =>
          obtain ⟨t, ht⟩ := h.assigned.known hp
          exact absurd ht (hnew t)
      · exact h.defined he

theorem Laid.emit (h : Laid place ds s) (op : Op) (height : Int) :
    Laid place (ds ++ [.op op]) { s with slots := s.slots.push (.op op), height } := by
  refine ⟨h.consistent, h.assigned, h.defined, ?_⟩
  rw [Array.toList_push]
  exact List.rel_append h.slots (.cons (.op op) .nil)

theorem Laid.emitBranch (h : Laid place ds s) {t : Target} {d : Destination} (ht : s.Stands t d)
    (kind : BranchKind) (change : Int) :
    Laid place (ds ++ [.branch kind d]) (s.emitBranch kind t change) := by
  refine ⟨h.consistent, h.assigned, h.defined, ?_⟩
  change List.Forall₂ (Sketches s.Stands) (s.slots.push _).toList _
  rw [Array.toList_push]
  exact List.rel_append h.slots (.cons (.branch kind ht) .nil)

theorem Laid.attach (h : Laid place ds s) {l : BitString} {e : LabelEntry}
    (he : s.labels.find? l = some e) :
    Laid (Function.update place (.label l) (some s.slots.size)) ds (s.attach l e) := by
  have hlookup := LabelTable.find?_setDefined h.consistent l
  have hstands : (s.attach l e).Stands = s.Stands := by
    funext t d
    cases d with
    | label l' =>
      simp only [Stands, Lowering.attach, hlookup l']
      by_cases heq : l = l'
      · subst heq; simp [he]
      · simp [heq]
    | site k => rfl
    | dispatcher => rfl
  refine ⟨h.consistent.setDefined l, ?_, ?_, ?_⟩
  · rw [hstands]
    exact h.assigned.place_target (d := .label l) ⟨e, he, rfl⟩ s.slots.size
  · intro l' e' he'
    rw [Lowering.attach, hlookup l'] at he'
    by_cases heq : l = l'
    · subst heq
      simp only [if_true, he, Option.map_some, Option.some.injEq] at he'
      simp [← he']
    · rw [if_neg heq] at he'
      have hne : Destination.label l' ≠ .label l := fun hd => heq (Destination.label.inj hd).symm
      rw [Function.update_of_ne hne]
      exact h.defined he'
  · rw [hstands]
    exact h.slots

theorem Laid.addSite (h : Laid place ds s) :
    Laid (Function.update place (.site s.returnSites.size) (some s.slots.size)) ds s.addSite := by
  have hstands : ∀ t d, s.addSite.Stands t d ↔
      s.Stands t d ∨ t = s.targets.allocate.1 ∧ d = .site s.returnSites.size := by
    intro t d
    cases d with
    | label l => simp [Stands, Lowering.addSite]
    | site k =>
      simp only [Stands, Lowering.addSite, Array.getElem?_push, Destination.site.injEq]
      by_cases hk : k = s.returnSites.size
      · simp [hk, eq_comm]
      · simp [hk]
    | dispatcher => simp [Stands, Lowering.addSite]
  have hnew : ∀ t, ¬ s.Stands t (.site s.returnSites.size) := by simp [Stands]
  obtain ⟨hassigned, hslots⟩ := h.allocate hnew hstands
  refine ⟨h.consistent, ?_, ?_, hslots⟩
  · exact hassigned.place_target ((hstands _ _).mpr (.inr ⟨rfl, rfl⟩)) _
  · intro l e he
    rw [Function.update_of_ne (by simp)]
    exact h.defined he

theorem Laid.reserveDispatcher (h : Laid place ds s) (hnone : s.dispatcher = none) :
    Laid place ds s.reserveDispatcher := by
  have hstands : ∀ t d, s.reserveDispatcher.Stands t d ↔
      s.Stands t d ∨ t = s.targets.allocate.1 ∧ d = .dispatcher := by
    intro t d
    cases d with
    | label l => simp [Stands, Lowering.reserveDispatcher]
    | site k => simp [Stands, Lowering.reserveDispatcher]
    | dispatcher => simp [Stands, Lowering.reserveDispatcher, hnone, eq_comm]
  have hnew : ∀ t, ¬ s.Stands t .dispatcher := by simp [Stands, hnone]
  obtain ⟨hassigned, hslots⟩ := h.allocate hnew hstands
  exact ⟨h.consistent, hassigned, h.defined, hslots⟩

/-- The state after lowering `done`. -/
structure Lays (done : List Instruction) (s : Lowering) : Prop where
  laid : Laid (place? done) (drafts 0 done) s
  complete : ∀ i ∈ done, i.Complete
  sites : s.returnSites.size = calls done
  returns : s.dispatcher.isSome = done.any fun i => i.opcode == .ret

theorem lays_empty : Lays [] empty := by
  have hstands : ∀ t d, ¬ empty.Stands t d := by
    intro t d
    cases d <;> simp [Stands, empty, LabelTable.find?_empty]
  refine ⟨⟨LabelTable.consistent_empty, ?_, ?_, .nil⟩, by simp, rfl, rfl⟩
  · refine ⟨?_, ?_, ?_, ?_, ?_⟩
    · intro t d h; exact absurd h (hstands t d)
    · intro t d e h; exact absurd h (hstands t d)
    · intro t u d h; exact absurd h (hstands t d)
    · intro t d h; exact absurd h (hstands t d)
    · intro d a h
      cases d <;> simp [place?, markIndex?, returnIndices] at h
  · intro l e h
    simp [empty, LabelTable.find?_empty] at h

namespace Lays

variable {done : List Instruction} {i : Instruction}

theorem size_slots (h : Lays done s) : s.slots.size = address done done.length := by
  rw [← length_drafts h.complete 0, ← h.laid.slots.length_eq, Array.length_toList]

/-- Adding what one instruction is drafted as to what was laid before. -/
theorem concat {s' : Lowering} (h : Lays done s) (hcomplete : i.Complete)
    (hlaid : Laid (place? (done ++ [i])) (drafts 0 done ++ draft (calls done) i) s')
    (hsites : s'.returnSites.size = s.returnSites.size + calls [i])
    (hreturns : s'.dispatcher.isSome = (s.dispatcher.isSome || i.opcode == .ret)) :
    Lays (done ++ [i]) s' := by
  refine ⟨?_, ?_, ?_, ?_⟩
  · rw [drafts_append, Nat.zero_add, drafts, drafts, List.append_nil]
    exact hlaid
  · intro j hj
    rcases List.mem_append.mp hj with hold | hnew
    · exact h.complete j hold
    · rw [List.mem_singleton.mp hnew]; exact hcomplete
  · rw [hsites, h.sites, calls_append]
  · rw [hreturns, h.returns, List.any_append]
    simp

theorem plain (h : Lays done s) {op : Op} (hop : i.op? = some op) (height : Int) :
    Lays (done ++ [i]) { s with slots := s.slots.push (.op op), height } := by
  obtain ⟨hmark, hcall, hret⟩ := Instruction.op?_ne hop
  refine h.concat (Instruction.complete_of_op? hop) ?_ ?_ ?_
  · rw [place?_concat_of_ne hmark hcall, draft_of_op? hop]
    exact h.laid.emit op height
  · simp [calls, Instruction.isCall, hcall]
  · simp [hret]

/-- A label whose entry is not defined has no mark so far. -/
theorem place?_of_new (h : Lays done s) {l : BitString} (hnew : (s.entryOf l).defined = false) :
    place? done (.label l) = none := by
  have hdef := (h.laid.reserve l).defined (find?_reserve h.laid.consistent l)
  rw [hnew] at hdef
  simpa using hdef

theorem mark (h : Lays done s) {l : BitString} (hop : i.opcode = .mark)
    (hparam : i.param = some l) (hnew : (s.entryOf l).defined = false) :
    Lays (done ++ [i]) ((s.reserve l).attach l (s.entryOf l)) := by
  have hres := h.laid.reserve l
  have hfind := find?_reserve h.laid.consistent l
  have hunplaced := h.place?_of_new hnew
  refine h.concat ?_ ?_ ?_ ?_
  · rw [Instruction.Complete, hop]; exact ⟨l, hparam⟩
  · have hdraft : draft (calls done) i = [] := by simp [draft, hop]
    rw [place?_concat_mark hop hparam hunplaced, hdraft, List.append_nil, ← h.size_slots]
    exact hres.attach hfind
  · simp [Lowering.attach, Lowering.reserve, calls, Instruction.isCall, hop]
  · simp [Lowering.attach, Lowering.reserve, hop]

theorem branch (h : Lays done s) {kind : BranchKind} {l : BitString}
    (hop : i.opcode.branchKind? = some kind) (hparam : i.param = some l) (change : Int) :
    Lays (done ++ [i]) ((s.reserve l).emitBranch kind (s.entryOf l).target change) := by
  obtain ⟨hlabel, hmark, hcall, hret⟩ := Opcode.branchKind?_ne hop
  refine h.concat ?_ ?_ ?_ ?_
  · rw [Instruction.Complete, hlabel]; exact ⟨l, hparam⟩
  · have hl : i.label = l := by simp [Instruction.label, hparam]
    rw [place?_concat_of_ne hmark hcall, draft_of_branchKind? hop, hl]
    exact (h.laid.reserve l).emitBranch (stands_reserve h.laid.consistent l) kind change
  · simp [Lowering.emitBranch, Lowering.reserve, calls, Instruction.isCall, hcall]
  · simp [Lowering.emitBranch, Lowering.reserve, hret]

theorem call (h : Lays done s) {l : BitString} (hop : i.opcode = .call)
    (hparam : i.param = some l) :
    Lays (done ++ [i]) (Lowering.addSite
      (((s.reserve l).emit (.pushReturn s.returnSites.size.toUInt32) 0).emitBranch .always
        (s.entryOf l).target 0)) := by
  have hl : i.label = l := by simp [Instruction.label, hparam]
  have hpushed := (h.laid.reserve l).emit (.pushReturn s.returnSites.size.toUInt32) (s.height + 0)
  have hjumped := hpushed.emitBranch (t := (s.entryOf l).target) (d := .label l)
    (stands_reserve h.laid.consistent l) .always 0
  refine h.concat ?_ ?_ ?_ ?_
  · rw [Instruction.Complete, hop]; exact ⟨l, hparam⟩
  · have hdraft : draft (calls done) i =
        [.op (.pushReturn s.returnSites.size.toUInt32)] ++ [.branch .always (.label l)] := by
      simp [draft, hop, hl, h.sites]
    have hsize : address done done.length + 2 =
        (((s.reserve l).emit (.pushReturn s.returnSites.size.toUInt32) 0).emitBranch .always
          (s.entryOf l).target 0).slots.size := by
      simp [Lowering.emitBranch, Lowering.emit, Lowering.reserve, h.size_slots]
    rw [place?_concat_call hop, hdraft, ← h.sites, hsize, ← List.append_assoc]
    exact hjumped.addSite
  · simp [Lowering.addSite, Lowering.emitBranch, Lowering.emit, Lowering.reserve, calls,
      Instruction.isCall, hop]
  · simp [Lowering.addSite, Lowering.emitBranch, Lowering.emit, Lowering.reserve, hop]

theorem ret (h : Lays done s) (hop : i.opcode = .ret) {t : Target}
    {s' : Lowering} (hlaid : Laid (place? done) (drafts 0 done) s')
    (hsites : s'.returnSites.size = s.returnSites.size) (ht : s'.dispatcher = some t) :
    Lays (done ++ [i]) (s'.emitBranch .always t 0) := by
  refine h.concat ?_ ?_ ?_ ?_
  · rw [Instruction.Complete, hop]; trivial
  · have hdraft : draft (calls done) i = [.branch .always .dispatcher] := by simp [draft, hop]
    rw [place?_concat_of_ne (by simp [hop]) (by simp [hop]), hdraft]
    exact hlaid.emitBranch (d := .dispatcher) ht .always 0
  · simp [Lowering.emitBranch, calls, Instruction.isCall, hop, hsites]
  · simp [Lowering.emitBranch, hop, ht]

theorem step {s' : Lowering} (h : Lays done s) (hstep : Step s i s') : Lays (done ++ [i]) s' := by
  cases hstep with
  | plain hop => exact h.plain hop _
  | mark hop hparam hnew => exact h.mark hop hparam hnew
  | branch hop hparam change => exact h.branch hop hparam change
  | call hop hparam => exact h.call hop hparam
  | ret hop hd => exact h.ret hop h.laid rfl hd
  | firstRet hop hd => exact h.ret hop (h.laid.reserveDispatcher hd) rfl rfl

end Lays

/-- What holds of the instructions so far and is kept by every step holds of all of them. -/
theorem lowerAll_induction {P : List Instruction → Lowering → Prop}
    (hstep : ∀ {done i s s'}, P done s → Step s i s' → P (done ++ [i]) s')
    {done is : List Instruction} {s' : Lowering} (h : P done s)
    (hlower : s.lowerAll is = .ok s') : P (done ++ is) s' := by
  induction is generalizing done s with
  | nil => cases hlower; rw [List.append_nil]; exact h
  | cons i is ih =>
    rw [lowerAll] at hlower
    split at hlower
    · cases hlower
    · next hlowered =>
      have hnext := ih (hstep h (step_of_lower hlowered)) hlower
      rwa [List.append_assoc] at hnext

/-- Lowering a list of instructions lays it after what was laid before. -/
theorem lays_of_lowerAll {done is : List Instruction} {s' : Lowering} (h : Lays done s)
    (hlower : s.lowerAll is = .ok s') : Lays (done ++ is) s' :=
  lowerAll_induction Lays.step h hlower

end Lowering

end Whitespace
