import Whitespace.Proofs.Labels

/-!
Targets and labels over a whole history of uses. Labels, return sites and the dispatcher draw their
targets from one counter, in any order; no two of them ever get the same one. The table lists the
labels as they were first asked for, its index knows where each of them stands, and a flag is set
exactly if it was set at some time.
-/
namespace Whitespace

/-- One use of the targets or of the label table, and what came of it. -/
inductive Use where
  | allocated (t : Target)
  | placed (t : Target) (address : Nat)
  | entered (label : BitString) (e : LabelEntry)
  | defined (label : BitString)
  deriving DecidableEq, Repr

namespace Use

def allocated? : Use → Option Target
  | .allocated t => some t
  | .placed _ _ | .entered _ _ | .defined _ => none

/-- The address at which `t` is placed. -/
def addressOf? (t : Target) : Use → Option Nat
  | .placed u address => if u = t then some address else none
  | .allocated _ | .entered _ _ | .defined _ => none

/-- The label whose entry is asked for. -/
def entered? : Use → Option BitString
  | .entered label _ => some label
  | .allocated _ | .placed _ _ | .defined _ => none

/-- The label whose flag is set. -/
def defined? : Use → Option BitString
  | .defined label => some label
  | .allocated _ | .placed _ _ | .entered _ _ => none

/-- The labels whose entries were asked for, each time one was. -/
def mentions (log : List Use) : List BitString := log.filterMap entered?

/-- The address at which `t` was placed last. -/
def lastPlaced? (log : List Use) (t : Target) : Option Nat :=
  (log.filterMap (addressOf? t)).getLast?

/-- All targets that were handed out, for their own sake and to labels. -/
def handedOut (log : List Use) (labels : LabelTable) : List Target :=
  log.filterMap allocated? ++ labels.entries.toList.map (·.2.target)

theorem mentions_concat (log : List Use) (u : Use) :
    mentions (log ++ [u]) = mentions log ++ u.entered?.toList := by
  rw [mentions, List.filterMap_append, ← mentions]
  cases h : u.entered? <;> simp [h]

theorem eraseDups_mentions_concat {u : Use} (hu : u.entered? = none) (log : List Use) :
    (mentions (log ++ [u])).eraseDups = (mentions log).eraseDups := by
  rw [mentions_concat, hu, Option.toList_none, List.append_nil]

theorem lastPlaced?_concat (log : List Use) (u : Use) (t : Target) :
    lastPlaced? (log ++ [u]) t = (u.addressOf? t).or (lastPlaced? log t) := by
  unfold lastPlaced?
  rw [List.filterMap_append, List.getLast?_append]
  cases h : u.addressOf? t <;> simp [h]

theorem defined_mem_concat {log : List Use} {u : Use} (hu : u.defined? = none) (label : BitString) :
    .defined label ∈ log ++ [u] ↔ .defined label ∈ log := by
  rw [List.mem_append, List.mem_singleton]
  constructor
  · rintro (hold | rfl)
    · exact hold
    · cases hu
  · exact .inl

theorem handedOut_concat (log : List Use) (u : Use) (labels : LabelTable) :
    (handedOut (log ++ [u]) labels).Perm (u.allocated?.toList ++ handedOut log labels) := by
  rw [handedOut, handedOut, List.filterMap_append, ← List.append_assoc]
  apply List.Perm.append_right
  cases h : u.allocated? with
  | none => simp [h]
  | some t => simp [h]

end Use

open Use (mentions lastPlaced? handedOut)

/-- The histories of one set of targets and one label table, both empty at first. Only what was
handed out can be placed, and only a label that has an entry can have its flag set. -/
inductive Uses : List Use → Targets → LabelTable → Prop where
  | start : Uses [] .empty .empty
  | allocate {log : List Use} {targets : Targets} {labels : LabelTable}
      (h : Uses log targets labels) :
      Uses (log ++ [.allocated targets.allocate.1]) targets.allocate.2 labels
  | place {log : List Use} {targets : Targets} {labels : LabelTable}
      (h : Uses log targets labels) (t : Target) (ht : t ∈ handedOut log labels) (address : Nat) :
      Uses (log ++ [.placed t address]) (targets.place t address) labels
  | entry {log : List Use} {targets : Targets} {labels : LabelTable}
      (h : Uses log targets labels) (label : BitString) :
      Uses (log ++ [.entered label (labels.entry targets label).1])
        (labels.entry targets label).2.2 (labels.entry targets label).2.1
  | setDefined {log : List Use} {targets : Targets} {labels : LabelTable}
      (h : Uses log targets labels) (label : BitString) (hl : label ∈ labels.names) :
      Uses (log ++ [.defined label]) targets (labels.setDefined label)

/-- The targets are all different, and the counter is beyond them. -/
structure Targets.Apart (ts : Targets) (handed : List Target) : Prop where
  nodup : handed.Nodup
  lt_size : ∀ t ∈ handed, t.id < ts.addresses.size

namespace Targets.Apart

variable {ts : Targets} {handed handed' : List Target}

theorem allocate (h : ts.Apart handed) (hperm : handed'.Perm (ts.allocate.1 :: handed)) :
    ts.allocate.2.Apart handed' := by
  have hnew : ts.allocate.1 ∉ handed := fun hmem => Nat.lt_irrefl _ (h.lt_size _ hmem)
  refine ⟨hperm.nodup_iff.mpr (List.nodup_cons.mpr ⟨hnew, h.nodup⟩), fun t ht => ?_⟩
  rw [size_allocate]
  rcases List.mem_cons.mp (hperm.mem_iff.mp ht) with rfl | hold
  · exact Nat.lt_succ_self _
  · exact Nat.lt_succ_of_lt (h.lt_size t hold)

theorem perm (h : ts.Apart handed) (hperm : handed'.Perm handed) : ts.Apart handed' :=
  ⟨hperm.nodup_iff.mpr h.nodup, fun t ht => h.lt_size t (hperm.mem_iff.mp ht)⟩

theorem place (h : ts.Apart handed) (t : Target) (address : Nat) :
    (ts.place t address).Apart handed := by
  refine ⟨h.nodup, fun u hu => ?_⟩
  rw [size_place]
  exact h.lt_size u hu

end Targets.Apart

namespace LabelTable

theorem Consistent.nodup_names {t : LabelTable} (h : t.Consistent) : t.names.Nodup := by
  rw [List.nodup_iff_getElem?_ne_getElem?]
  intro i j hij hj heq
  have hslot : ∀ {slot : Nat} {label : BitString}, t.names[slot]? = some label →
      t.index[label]? = some slot := by
    intro slot label hlabel
    rw [h label slot]
    simpa [names] using hlabel
  have hlabel := List.getElem?_eq_getElem hj
  have hi := hslot (heq.trans hlabel)
  rw [hslot hlabel] at hi
  exact Nat.ne_of_gt hij (Option.some.inj hi)

theorem targets_setDefined (t : LabelTable) (label : BitString) :
    (t.setDefined label).entries.toList.map (·.2.target) = t.entries.toList.map (·.2.target) := by
  unfold setDefined
  split
  · rfl
  · next slot _ =>
    apply List.ext_getElem?
    intro n
    simp only [List.getElem?_map, Array.getElem?_toList, Array.getElem?_modify]
    split
    · rw [Option.map_map]
      rfl
    · rfl

end LabelTable

/-- What a history tells of the targets and the table it leads to. -/
structure Tracks (log : List Use) (targets : Targets) (labels : LabelTable) : Prop where
  consistent : labels.Consistent
  names : labels.names = (mentions log).eraseDups
  listed : ∀ {label}, .defined label ∈ log → label ∈ labels.names
  flags : ∀ {label e}, labels.find? label = some e → (e.defined = true ↔ .defined label ∈ log)
  answers : ∀ {k label e}, log[k]? = some (.entered label e) →
    (∃ e', labels.find? label = some e' ∧ e'.target = e.target) ∧
      (e.defined = true ↔ .defined label ∈ log.take k)
  apart : targets.Apart (handedOut log labels)
  address : ∀ t, targets.address? t = lastPlaced? log t

namespace Tracks

variable {log : List Use} {targets targets' : Targets} {labels labels' : LabelTable}
  {label : BitString} {u : Use}

theorem start : Tracks [] .empty .empty := by
  refine ⟨LabelTable.consistent_empty, rfl, nofun, ?_, nofun, ⟨List.nodup_nil, nofun⟩, ?_⟩
  · intro label e he
    rw [LabelTable.find?_empty] at he
    cases he
  · intro t
    exact Targets.address?_eq_none (Nat.zero_le _)

theorem mem_names_iff (h : Tracks log targets labels) :
    label ∈ labels.names ↔ label ∈ mentions log := by
  rw [h.names, List.mem_eraseDups]

/-- Answers given before stay true when the log grows and no target of a label changes. -/
theorem answers_concat (h : Tracks log targets labels)
    (hkept : ∀ {label e}, labels.find? label = some e →
      ∃ e', labels'.find? label = some e' ∧ e'.target = e.target)
    (hnew : ∀ {label e}, u = .entered label e →
      (∃ e', labels'.find? label = some e' ∧ e'.target = e.target) ∧
        (e.defined = true ↔ .defined label ∈ log))
    {k : Nat} {label : BitString} {e : LabelEntry}
    (hk : (log ++ [u])[k]? = some (.entered label e)) :
    (∃ e', labels'.find? label = some e' ∧ e'.target = e.target) ∧
      (e.defined = true ↔ .defined label ∈ (log ++ [u]).take k) := by
  rcases Nat.lt_or_ge k log.length with hlt | hge
  · rw [List.getElem?_append_left hlt] at hk
    rw [List.take_append_of_le_length (Nat.le_of_lt hlt)]
    obtain ⟨⟨e₁, he₁, htarget₁⟩, hflag⟩ := h.answers hk
    obtain ⟨e₂, he₂, htarget₂⟩ := hkept he₁
    exact ⟨⟨e₂, he₂, htarget₂.trans htarget₁⟩, hflag⟩
  · have hend : k = log.length := by
      have hlt := (List.getElem?_eq_some_iff.mp hk).1
      rw [List.length_append, List.length_singleton] at hlt
      omega
    subst hend
    rw [List.getElem?_concat_length] at hk
    rw [List.take_left]
    exact hnew (Option.some.inj hk)

/-- A use that leaves the table as it is. -/
theorem concat (h : Tracks log targets labels) (hflag : u.defined? = none)
    (hnames : (mentions (log ++ [u])).eraseDups = (mentions log).eraseDups)
    (hknown : ∀ {label e}, u = .entered label e → labels.find? label = some e)
    (hapart : targets'.Apart (handedOut (log ++ [u]) labels))
    (haddress : ∀ t, targets'.address? t = (u.addressOf? t).or (targets.address? t)) :
    Tracks (log ++ [u]) targets' labels := by
  refine ⟨h.consistent, h.names.trans hnames.symm, ?_, ?_, h.answers_concat ?_ ?_, hapart, ?_⟩
  · intro label hmem
    exact h.listed ((Use.defined_mem_concat hflag label).mp hmem)
  · intro label e he
    rw [h.flags he, Use.defined_mem_concat hflag]
  · intro label e he
    exact ⟨e, he, rfl⟩
  · intro label e hu
    exact ⟨⟨e, hknown hu, rfl⟩, h.flags (hknown hu)⟩
  · intro t
    rw [haddress, h.address, Use.lastPlaced?_concat]

theorem allocate (h : Tracks log targets labels) :
    Tracks (log ++ [.allocated targets.allocate.1]) targets.allocate.2 labels := by
  refine h.concat rfl (Use.eraseDups_mentions_concat rfl log) ?_ ?_ ?_
  · intro label e hu
    cases hu
  · exact h.apart.allocate (Use.handedOut_concat log _ labels)
  · intro t
    exact Targets.address?_allocate targets t

theorem place (h : Tracks log targets labels) {t : Target} (ht : t ∈ handedOut log labels)
    (address : Nat) : Tracks (log ++ [.placed t address]) (targets.place t address) labels := by
  refine h.concat rfl (Use.eraseDups_mentions_concat rfl log) ?_ ?_ ?_
  · intro label e hu
    cases hu
  · have hperm := Use.handedOut_concat log (.placed t address) labels
    exact (h.apart.place t address).perm hperm
  · intro u
    by_cases hut : t = u
    · subst hut
      rw [Targets.address?_place_self (h.apart.lt_size t ht), Use.addressOf?, if_pos rfl]
      rfl
    · rw [Targets.address?_place_ne (Ne.symm hut), Use.addressOf?, if_neg hut]
      rfl

/-- Asking for an entry that is there changes nothing. -/
theorem entry_known (h : Tracks log targets labels) {e : LabelEntry}
    (he : labels.find? label = some e) : Tracks (log ++ [.entered label e]) targets labels := by
  have hmem : label ∈ mentions log := h.mem_names_iff.mp (h.consistent.mem_names_iff.mpr ⟨e, he⟩)
  refine h.concat rfl ?_ ?_ ?_ ?_
  · rw [Use.mentions_concat]
    exact (eraseDups_concat _ _).trans (if_pos hmem)
  · intro l e' hu
    cases hu
    exact he
  · exact h.apart.perm (Use.handedOut_concat log _ labels)
  · intro t
    rfl

theorem setDefined (h : Tracks log targets labels) (hl : label ∈ labels.names) :
    Tracks (log ++ [.defined label]) targets (labels.setDefined label) := by
  have hlookup := LabelTable.find?_setDefined h.consistent label
  refine ⟨h.consistent.setDefined label, ?_, ?_, ?_, h.answers_concat ?_ ?_, ?_, ?_⟩
  · rw [LabelTable.names_setDefined, h.names, Use.eraseDups_mentions_concat rfl]
  · intro l hmem
    rw [LabelTable.names_setDefined]
    rcases List.mem_append.mp hmem with hold | hlast
    · exact h.listed hold
    · cases List.mem_singleton.mp hlast
      exact hl
  · intro l e he
    rw [hlookup l] at he
    rw [List.mem_append, List.mem_singleton]
    split at he
    · next heq =>
      subst heq
      obtain ⟨e, _, rfl⟩ := Option.map_eq_some_iff.mp he
      simp
    · next hne =>
      rw [h.flags he]
      simp [Ne.symm hne]
  · intro l e he
    rw [hlookup l, he]
    split
    · exact ⟨_, rfl, rfl⟩
    · exact ⟨e, rfl, rfl⟩
  · intro l e heq
    cases heq
  · have htargets : handedOut log (labels.setDefined label) = handedOut log labels := by
      rw [handedOut, handedOut, LabelTable.targets_setDefined]
    have hperm := Use.handedOut_concat log (.defined label) (labels.setDefined label)
    rw [htargets] at hperm
    exact h.apart.perm hperm
  · intro t
    rw [h.address, Use.lastPlaced?_concat]
    rfl

/-- A label that has no entry gets one at the end, with a fresh target. -/
theorem entry_new (h : Tracks log targets labels) (hnew : labels.find? label = none) :
    Tracks (log ++ [.entered label ⟨targets.allocate.1, false⟩]) targets.allocate.2
      (labels.append label ⟨targets.allocate.1, false⟩) := by
  have hlookup := LabelTable.find?_append h.consistent hnew ⟨targets.allocate.1, false⟩
  have hunnamed : label ∉ labels.names := by
    rw [h.consistent.mem_names_iff, hnew]
    rintro ⟨e, he⟩
    cases he
  refine ⟨h.consistent.append hnew _, ?_, ?_, ?_, h.answers_concat ?_ ?_, ?_, ?_⟩
  · rw [h.mem_names_iff] at hunnamed
    rw [LabelTable.names_append, Use.mentions_concat, h.names]
    exact ((eraseDups_concat _ _).trans (if_neg hunnamed)).symm
  · intro l hl
    rw [LabelTable.names_append]
    exact List.mem_append_left _ (h.listed ((Use.defined_mem_concat rfl l).mp hl))
  · intro l e he
    rw [hlookup l] at he
    rw [Use.defined_mem_concat rfl]
    split at he
    · next heq =>
      -- The flag of a label cannot have been set before the label had an entry.
      subst heq
      cases he
      simp [mt h.listed hunnamed]
    · exact h.flags he
  · intro l e he
    refine ⟨e, ?_, rfl⟩
    have hne : label ≠ l := by
      rintro rfl
      rw [hnew] at he
      cases he
    rw [hlookup l, if_neg hne, he]
  · intro l e heq
    cases heq
    refine ⟨⟨_, (hlookup label).trans (if_pos rfl), rfl⟩, ?_⟩
    simp [mt h.listed hunnamed]
  · apply h.apart.allocate
    refine (Use.handedOut_concat log _ _).trans ?_
    have hentries : handedOut log (labels.append label ⟨targets.allocate.1, false⟩) =
        handedOut log labels ++ [targets.allocate.1] := by
      simp [handedOut, LabelTable.append]
    change (handedOut log (labels.append label ⟨targets.allocate.1, false⟩)).Perm _
    rw [hentries]
    exact List.perm_append_singleton _ _
  · intro t
    rw [Targets.address?_allocate, h.address, Use.lastPlaced?_concat]
    rfl

theorem entry (h : Tracks log targets labels) (label : BitString) :
    Tracks (log ++ [.entered label (labels.entry targets label).1])
      (labels.entry targets label).2.2 (labels.entry targets label).2.1 := by
  cases hfind : labels.find? label with
  | some e =>
    rw [LabelTable.entry_of_find?_eq_some hfind]
    exact h.entry_known hfind
  | none =>
    rw [LabelTable.entry_of_find?_eq_none hfind]
    exact h.entry_new hfind

end Tracks

theorem Uses.tracks {log : List Use} {targets : Targets} {labels : LabelTable}
    (h : Uses log targets labels) : Tracks log targets labels := by
  induction h with
  | start => exact .start
  | allocate _ ih => exact ih.allocate
  | place _ t ht address ih => exact ih.place ht address
  | entry _ label ih => exact ih.entry label
  | setDefined _ label hl ih => exact ih.setDefined hl

theorem Uses.define {log : List Use} {targets : Targets} {labels : LabelTable}
    (h : Uses log targets labels) (label : BitString) :
    Uses (log ++ [.entered label (labels.entry targets label).1, .defined label])
      (labels.define targets label).2 (labels.define targets label).1 := by
  have hentered := h.entry label
  have hlisted : label ∈ (labels.entry targets label).2.1.names := by
    rw [hentered.tracks.mem_names_iff, Use.mentions_concat]
    exact List.mem_append_right _ (List.mem_singleton_self label)
  have hdefined := hentered.setDefined label hlisted
  rw [List.append_assoc] at hdefined
  exact hdefined

/-- The table has an entry for the label, which is given whenever it is asked for, and nothing is
allocated then. Its flag is set if it has been set, and so was the flag in each earlier answer; the
target was always the same. -/
def Answers (log : List Use) (targets : Targets) (labels : LabelTable) (label : BitString) : Prop :=
  ∃ e, (label, e) ∈ labels.entries ∧ labels.entry targets label = (e, labels, targets) ∧
    (e.defined = true ↔ .defined label ∈ log) ∧
    ∀ (k : Nat) (e' : LabelEntry), log[k]? = some (.entered label e') →
      e'.target = e.target ∧ (e'.defined = true ↔ .defined label ∈ log.take k)

theorem Tracks.answers_of_mem {log : List Use} {targets : Targets} {labels : LabelTable}
    (h : Tracks log targets labels) {label : BitString} (hl : label ∈ labels.names) :
    Answers log targets labels label := by
  obtain ⟨e, he⟩ := h.consistent.mem_names_iff.mp hl
  obtain ⟨slot, hslot⟩ := h.consistent.find?_eq_some_iff.mp he
  have hentry := LabelTable.entry_of_find?_eq_some he targets
  refine ⟨e, Array.mem_of_getElem? hslot, hentry, h.flags he, ?_⟩
  intro k e' hk
  obtain ⟨⟨e₁, he₁, htarget⟩, hflag⟩ := h.answers hk
  obtain rfl := Option.some.inj (he.symm.trans he₁)
  exact ⟨htarget.symm, hflag⟩

/-- The history, the targets and the table agree: the index has each label at the position of its
only entry; labels are listed as they were first asked for, and once; no target was handed out
twice; a target has the address at which it was last placed; and the undefined label is the first
one listed whose flag was not set. -/
structure InStep (log : List Use) (targets : Targets) (labels : LabelTable) : Prop where
  index : ∀ (label : BitString) (slot : Nat),
    labels.index[label]? = some slot ↔ ∃ e, labels.entries[slot]? = some (label, e)
  order : labels.names = (mentions log).eraseDups
  once : labels.names.Nodup
  known : ∀ label ∈ labels.names, Answers log targets labels label
  apart : (handedOut log labels).Nodup
  address : ∀ t, targets.address? t = lastPlaced? log t
  undefined : labels.undefined? = labels.names.find? fun label => .defined label ∉ log

/-- Whatever is done with targets and labels, and in whatever order, they stay in step. -/
theorem uses_stay_in_step {log : List Use} {targets : Targets} {labels : LabelTable}
    (h : Uses log targets labels) : InStep log targets labels := by
  have htracks := h.tracks
  refine ⟨?_, htracks.names, htracks.consistent.nodup_names, fun _ hl => htracks.answers_of_mem hl,
    htracks.apart.nodup, htracks.address, ?_⟩
  · intro label slot
    rw [htracks.consistent label slot]
    cases labels.entries[slot]? <;> simp [Prod.ext_iff]
  · have hflag : ∀ {label e}, labels.find? label = some e →
        e.defined = decide (.defined label ∈ log) := by
      intro label e he
      rw [Bool.eq_iff_iff, decide_eq_true_iff, htracks.flags he]
    rw [htracks.consistent.undefined?_eq hflag]
    simp only [decide_not]

/-- Two labels with a target between them that is placed twice, and one of the labels defined. -/
def sharedCounter : List Use :=
  [.entered [.tab] ⟨⟨0⟩, false⟩, .defined [.tab], .allocated ⟨1⟩, .entered [] ⟨⟨2⟩, false⟩,
    .placed ⟨1⟩ 7, .placed ⟨1⟩ 4, .entered [.tab] ⟨⟨0⟩, true⟩]

theorem sharedCounter_in_step :
    ∃ targets labels, Uses sharedCounter targets labels ∧ InStep sharedCounter targets labels ∧
      labels.names = [[.tab], []] ∧ handedOut sharedCounter labels = [⟨1⟩, ⟨0⟩, ⟨2⟩] ∧
      targets.address? ⟨1⟩ = some 4 ∧ labels.undefined? = some [] := by
  have h₁ := Uses.start.define [.tab]
  have h₂ := h₁.allocate
  have h₃ := h₂.entry []
  have h₄ := h₃.place ⟨1⟩ (by cbv; exact .head _) 7
  have h₅ := h₄.place ⟨1⟩ (by cbv; exact .head _) 4
  have h₆ := h₅.entry [.tab]
  obtain ⟨log, targets, labels, h, rfl, hnames, hhanded, haddress, hundefined⟩ :
      ∃ log targets labels, Uses log targets labels ∧ log = sharedCounter ∧
        labels.names = [[.tab], []] ∧ handedOut log labels = [⟨1⟩, ⟨0⟩, ⟨2⟩] ∧
        targets.address? ⟨1⟩ = some 4 ∧ labels.undefined? = some [] :=
    ⟨_, _, _, h₆, by cbv, by cbv, by cbv, by cbv, by cbv⟩
  exact ⟨targets, labels, h, uses_stay_in_step h, hnames, hhanded, haddress, hundefined⟩

end Whitespace
