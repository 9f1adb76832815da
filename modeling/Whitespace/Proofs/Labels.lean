import Mathlib
import Whitespace.Code.Label

/-!
Facts about targets and labels. A target keeps its address until it is placed again, and no
placing touches another target. A label table is consistent when its index names exactly the
positions of the entries; then looking up a label sees only what was entered under that label.
-/
namespace Whitespace

/-- A label that is named again is not listed again. -/
theorem eraseDups_concat (labels : List BitString) (l : BitString) :
    (labels ++ [l]).eraseDups =
      if l ∈ labels then labels.eraseDups else labels.eraseDups ++ [l] := by
  rw [List.eraseDups_append]
  split
  · next h => simp [List.removeAll, h]
  · next h => simp [List.removeAll, h, List.eraseDups_cons]

theorem find?_eraseDups (labels : List BitString) (p : BitString → Bool) :
    labels.eraseDups.find? p = labels.find? p := by
  induction labels using List.reverseRecOn with
  | nil => rfl
  | append_singleton labels l ih =>
    rw [eraseDups_concat, List.find?_append]
    split
    · next hmem =>
      rw [ih]
      cases hfind : labels.find? p with
      | some found => rfl
      | none => simp [List.find?_eq_none.mp hfind l hmem]
    · rw [List.find?_append, ih]

namespace Targets

@[simp] theorem size_allocate (ts : Targets) :
    ts.allocate.2.addresses.size = ts.addresses.size + 1 := by
  simp [allocate]

@[simp] theorem size_place (ts : Targets) (t : Target) (a : Nat) :
    (ts.place t a).addresses.size = ts.addresses.size := by
  simp [place]

theorem address?_eq_none {ts : Targets} {t : Target} (h : ts.addresses.size ≤ t.id) :
    ts.address? t = none := by
  simp [address?, Array.getElem?_eq_none h]

/-- A fresh target has no address, and the others keep theirs. -/
@[simp] theorem address?_allocate (ts : Targets) (t : Target) :
    ts.allocate.2.address? t = ts.address? t := by
  simp only [address?, allocate, Array.getElem?_push]
  split
  · next h => simp [h]
  · rfl

theorem address?_place_self {ts : Targets} {t : Target} (h : t.id < ts.addresses.size) (a : Nat) :
    (ts.place t a).address? t = some a := by
  simp [address?, place, h]

theorem address?_place_ne {ts : Targets} {t u : Target} (h : u ≠ t) (a : Nat) :
    (ts.place t a).address? u = ts.address? u := by
  have hid : t.id ≠ u.id := fun heq => h (by cases t; cases u; cases heq; rfl)
  simp [address?, place, Array.getElem?_setIfInBounds_ne hid]

end Targets

namespace LabelTable

/-- The index has each label at exactly the position of its only entry. -/
def Consistent (t : LabelTable) : Prop :=
  ∀ (label : BitString) (slot : Nat),
    t.index[label]? = some slot ↔ t.entries[slot]?.map Prod.fst = some label

theorem consistent_empty : empty.Consistent := by
  intro label slot
  simp [empty]

theorem find?_empty (label : BitString) : empty.find? label = none := by
  simp [find?, empty]

namespace Consistent

variable {t : LabelTable}

theorem find?_eq_some_iff (h : t.Consistent) {label : BitString} {e : LabelEntry} :
    t.find? label = some e ↔ ∃ slot : Nat, t.entries[slot]? = some (label, e) := by
  constructor
  · intro hf
    simp only [find?, Option.bind_eq_some_iff, Option.map_eq_some_iff] at hf
    obtain ⟨slot, hslot, ⟨l, e'⟩, hentry, rfl⟩ := hf
    have hl := (h label slot).mp hslot
    rw [hentry] at hl
    cases hl
    exact ⟨slot, hentry⟩
  · rintro ⟨slot, hentry⟩
    have hslot := (h label slot).mpr (by rw [hentry]; rfl)
    simp [find?, hslot, hentry]

theorem find?_eq_none_iff (h : t.Consistent) {label : BitString} :
    t.find? label = none ↔ t.index[label]? = none := by
  constructor
  · intro hf
    cases hslot : t.index[label]? with
    | none => rfl
    | some slot =>
      have hl := (h label slot).mp hslot
      obtain ⟨⟨l, e⟩, hentry, _⟩ := Option.map_eq_some_iff.mp hl
      simp [find?, hslot, hentry] at hf
  · intro hi
    simp [find?, hi]

end Consistent

/-- The table with a new entry at its end. -/
def append (t : LabelTable) (label : BitString) (e : LabelEntry) : LabelTable :=
  ⟨t.entries.push (label, e), t.index.insert label t.entries.size⟩

theorem Consistent.append {t : LabelTable} (h : t.Consistent) {label : BitString}
    (hnew : t.find? label = none) (e : LabelEntry) : (t.append label e).Consistent := by
  have hindex := h.find?_eq_none_iff.mp hnew
  intro l slot
  simp only [LabelTable.append, Std.HashMap.getElem?_insert, Array.getElem?_push, beq_iff_eq]
  by_cases hl : label = l
  · subst hl
    by_cases hs : slot = t.entries.size
    · simp [hs]
    · simp only [if_neg hs, ← h label slot, hindex, if_true, Option.some.injEq]
      constructor
      · intro heq; exact absurd heq.symm hs
      · intro heq; cases heq
  · rw [if_neg hl]
    by_cases hs : slot = t.entries.size
    · subst hs
      have hnone : t.entries[t.entries.size]? = none := by simp
      simp only [if_true, Option.map_some, Option.some.injEq, hl, iff_false]
      intro hi
      have := (h l t.entries.size).mp hi
      rw [hnone] at this
      cases this
    · rw [if_neg hs]
      exact h l slot

theorem find?_append {t : LabelTable} (h : t.Consistent) {label : BitString}
    (hnew : t.find? label = none) (e : LabelEntry) (l : BitString) :
    (t.append label e).find? l = if label = l then some e else t.find? l := by
  split
  · next heq =>
    subst heq
    rw [(h.append hnew e).find?_eq_some_iff]
    exact ⟨t.entries.size, by simp [append]⟩
  · next hne =>
    have hindex : (t.append label e).index[l]? = t.index[l]? := by
      simp [append, Std.HashMap.getElem?_insert, hne]
    simp only [find?, hindex]
    cases hslot : t.index[l]? with
    | none => rfl
    | some slot =>
      have hl := (h l slot).mp hslot
      have hlt : slot < t.entries.size := by
        obtain ⟨p, hp, _⟩ := Option.map_eq_some_iff.mp hl
        exact (Array.getElem?_eq_some_iff.mp hp).1
      simp [append, Array.getElem?_push, Nat.ne_of_lt hlt]

theorem entry_of_find?_eq_some {t : LabelTable} {label : BitString} {e : LabelEntry}
    (h : t.find? label = some e) (targets : Targets) : t.entry targets label = (e, t, targets) := by
  simp only [entry, h]

theorem entry_of_find?_eq_none {t : LabelTable} {label : BitString} (h : t.find? label = none)
    (targets : Targets) :
    t.entry targets label =
      (⟨targets.allocate.1, false⟩, t.append label ⟨targets.allocate.1, false⟩,
        targets.allocate.2) := by
  simp only [entry, h, append]

theorem Consistent.setDefined {t : LabelTable} (h : t.Consistent) (label : BitString) :
    (t.setDefined label).Consistent := by
  intro l slot
  unfold LabelTable.setDefined
  split
  · exact h l slot
  · next s hs =>
    rw [h l slot]
    simp only [Array.getElem?_modify]
    split
    · next heq => cases hentry : t.entries[slot]? <;> simp
    · rfl

theorem find?_setDefined {t : LabelTable} (h : t.Consistent) (label l : BitString) :
    (t.setDefined label).find? l =
      if label = l then (t.find? l).map fun e => { e with defined := true } else t.find? l := by
  unfold setDefined
  cases hs : t.index[label]? with
  | none =>
    by_cases heq : label = l
    · subst heq; simp [find?, hs]
    · simp [heq]
  | some slot =>
    simp only [find?]
    split
    · next heq =>
      subst heq
      simp only [hs, Option.bind_some, Array.getElem?_modify, if_true, Option.map_map]
      rfl
    · next hne =>
      cases hl : t.index[l]? with
      | none => rfl
      | some other =>
        have hother : slot ≠ other := by
          intro heq
          have h₁ := (h label slot).mp hs
          have h₂ := (h l other).mp hl
          rw [← heq, h₁] at h₂
          exact hne (Option.some.inj h₂)
        simp [Array.getElem?_modify, hother]

/-- No label is undefined exactly when every entry has its flag set. -/
theorem undefined?_eq_none_iff {t : LabelTable} (h : t.Consistent) :
    t.undefined? = none ↔ ∀ label e, t.find? label = some e → e.defined = true := by
  simp only [undefined?, Option.map_eq_none_iff, Array.find?_eq_none, Bool.not_eq_true',
    Bool.not_eq_false]
  constructor
  · intro hall label e hf
    obtain ⟨slot, hentry⟩ := h.find?_eq_some_iff.mp hf
    exact hall (label, e) (Array.mem_of_getElem? hentry)
  · rintro hall ⟨label, e⟩ hmem
    obtain ⟨slot, hentry⟩ := Array.mem_iff_getElem?.mp hmem
    exact hall label e (h.find?_eq_some_iff.mpr ⟨slot, hentry⟩)

/-- The labels in the order of their entries. -/
def names (t : LabelTable) : List BitString := t.entries.toList.map Prod.fst

theorem names_append (t : LabelTable) (label : BitString) (e : LabelEntry) :
    (t.append label e).names = t.names ++ [label] := by
  simp [names, append]

theorem names_setDefined (t : LabelTable) (label : BitString) :
    (t.setDefined label).names = t.names := by
  unfold setDefined
  split
  · rfl
  · next slot hslot =>
    apply List.ext_getElem?
    intro n
    simp only [names, List.getElem?_map, Array.getElem?_toList, Array.getElem?_modify]
    split
    · rw [Option.map_map]
      rfl
    · rfl

theorem Consistent.mem_names_iff {t : LabelTable} (h : t.Consistent) {label : BitString} :
    label ∈ t.names ↔ ∃ e, t.find? label = some e := by
  constructor
  · intro hmem
    obtain ⟨⟨_, e⟩, hentry, rfl⟩ := List.mem_map.mp hmem
    obtain ⟨slot, hslot⟩ := Array.mem_iff_getElem?.mp (Array.mem_toList_iff.mp hentry)
    exact ⟨e, h.find?_eq_some_iff.mpr ⟨slot, hslot⟩⟩
  · rintro ⟨e, he⟩
    obtain ⟨slot, hslot⟩ := h.find?_eq_some_iff.mp he
    have hentry : (label, e) ∈ t.entries := Array.mem_of_getElem? hslot
    exact List.mem_map.mpr ⟨(label, e), Array.mem_toList_iff.mpr hentry, rfl⟩

/-- The undefined label is the first one whose flag is not set. -/
theorem Consistent.undefined?_eq {t : LabelTable} (h : t.Consistent) {p : BitString → Bool}
    (hp : ∀ {label e}, t.find? label = some e → e.defined = p label) :
    t.undefined? = t.names.find? fun label => !p label := by
  have hflags : t.entries.toList.find? (fun entry => !entry.2.defined) =
      t.entries.toList.find? ((fun label => !p label) ∘ Prod.fst) := by
    apply List.find?_congr
    rintro ⟨label, e⟩ hmem
    obtain ⟨slot, hslot⟩ := Array.mem_iff_getElem?.mp (Array.mem_toList_iff.mp hmem)
    simp [hp (h.find?_eq_some_iff.mpr ⟨slot, hslot⟩)]
  rw [undefined?, names, List.find?_map, ← hflags, ← Array.find?_toList]

end LabelTable

end Whitespace
