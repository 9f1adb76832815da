import Mathlib
import Whitespace.CommandLine.Files

/-!
What was put in its place is found there. A file that is made or replaced leaves every directory a
directory, so the path that led to its place still leads there.
-/
namespace Whitespace.FileTree

variable {t t' : FileTree} {location other : Location} {path : String} {bytes : List UInt8}

theorem lookup_filter_ne (h : other ≠ location) (files : List (Location × List UInt8)) :
    (files.filter fun (name, _) => name != location).lookup other = files.lookup other := by
  induction files with
  | nil => rfl
  | cons file files ih =>
    obtain ⟨name, content⟩ := file
    by_cases hname : name = location
    · subst hname
      simp [List.lookup_cons, ih, beq_eq_false_iff_ne.mpr h]
    · simp [List.lookup_cons, ih, hname]

theorem node?_set_self (t : FileTree) (location : Location) (bytes : List UInt8) :
    (t.set location bytes).node? location = some (.file bytes) := by
  simp [set, node?]

theorem node?_eq_directory_iff :
    t.node? location = some .directory ↔
      t.files.lookup location = none ∧
        (location.isPrefixOf t.home = true ∨
          ∃ file ∈ t.files, location.isPrefixOf file.1 = true) := by
  rw [node?, ← List.any_eq_true, ← Bool.or_eq_true]
  cases t.files.lookup location with
  | some bytes => simp
  | none =>
    rw [Option.ite_none_right_eq_some]
    simp

/-- A directory stays one when a file is put in another place. -/
theorem node?_set_directory (hplace : t.node? location ≠ some .directory)
    (h : t.node? other = some .directory) (bytes : List UInt8) :
    (t.set location bytes).node? other = some .directory := by
  have hne : other ≠ location := fun heq => hplace (heq ▸ h)
  obtain ⟨hnone, habove⟩ := node?_eq_directory_iff.mp h
  refine node?_eq_directory_iff.mpr ⟨?_, ?_⟩
  · rw [set, List.lookup_cons, beq_eq_false_iff_ne.mpr hne]
    exact (lookup_filter_ne hne t.files).trans hnone
  · rcases habove with hhome | ⟨file, hfile, hbelow⟩
    · exact .inl hhome
    · right
      by_cases hsame : file.1 = location
      · exact ⟨(location, bytes), List.mem_cons_self, hsame ▸ hbelow⟩
      · refine ⟨file, List.mem_cons_of_mem _ (List.mem_filter.mpr ⟨hfile, ?_⟩), hbelow⟩
        simpa using hsame

theorem enter_eq_ok_iff {here there : Location} {part : String} :
    t.enter here part = .ok there ↔
      part = "." ∧ there = here ∨ part = ".." ∧ there = here.dropLast ∨
        part ≠ "." ∧ part ≠ ".." ∧ part.utf8ByteSize ≤ maxName ∧
          t.node? (here ++ [part]) = some .directory ∧ there = here ++ [part] := by
  by_cases hdot : part = "."
  · subst hdot
    simp [enter, pure, Except.pure, eq_comm]
  · by_cases hup : part = ".."
    · subst hup
      simp [enter, pure, Except.pure, eq_comm]
    · by_cases hlong : maxName < part.utf8ByteSize
      · simp [enter, find, bind, Except.bind, hdot, hup, hlong]
      · have hshort := Nat.le_of_not_lt hlong
        rcases hnode : t.node? (here ++ [part]) with _ | bytes | _
        · simp [enter, find, bind, Except.bind, hdot, hup, hlong, hnode]
        · simp [enter, find, bind, Except.bind, hdot, hup, hlong, hnode]
        · simp [enter, find, bind, Except.bind, pure, Except.pure, hdot, hup, hlong, hshort, hnode,
            eq_comm (a := there)]

/-- Whoever can go somewhere in the one tree can do so in the other. -/
structure Opens (t t' : FileTree) : Prop where
  home : t'.home = t.home
  directory : ∀ {location}, t.node? location = some .directory →
    t'.node? location = some .directory

theorem opens_set (hplace : t.node? location ≠ some .directory) (bytes : List UInt8) :
    Opens t (t.set location bytes) :=
  ⟨rfl, fun h => node?_set_directory hplace h bytes⟩

namespace Opens

theorem enter (h : Opens t t') {here there : Location} {part : String}
    (henter : t.enter here part = .ok there) : t'.enter here part = .ok there := by
  rw [enter_eq_ok_iff] at henter ⊢
  rcases henter with hdot | hup | ⟨hdot, hup, hshort, hnode, hthere⟩
  · exact .inl hdot
  · exact .inr (.inl hup)
  · exact .inr (.inr ⟨hdot, hup, hshort, h.directory hnode, hthere⟩)

theorem walk (h : Opens t t') {start there : Location} {parts : List String}
    (hwalk : parts.foldlM t.enter start = .ok there) : parts.foldlM t'.enter start = .ok there := by
  induction parts generalizing start with
  | nil => exact hwalk
  | cons part parts ih =>
    rw [List.foldlM_cons] at hwalk ⊢
    cases henter : t.enter start part with
    | error e => rw [henter] at hwalk; cases hwalk
    | ok here =>
      rw [henter] at hwalk
      rw [h.enter henter]
      exact ih hwalk

theorem resolve (h : Opens t t') {leaf : Leaf} (hresolve : t.resolve path = .ok leaf) :
    t'.resolve path = .ok leaf := by
  rw [FileTree.resolve] at hresolve ⊢
  split at hresolve
  · cases hresolve
  · next hshort =>
    rw [if_neg hshort, h.home]
    generalize (if isAbsolute path = true then [] else t.home) = start at hresolve ⊢
    dsimp only at hresolve ⊢
    cases hwalk : (parts path).dropLast.foldlM t.enter start with
    | error e => rw [hwalk] at hresolve; cases hresolve
    | ok here =>
      rw [hwalk] at hresolve
      rw [h.walk hwalk]
      exact hresolve

end Opens

/-- What has to be so for a file to be put in its place, and where that is. -/
theorem replace_eq_ok (h : t.replace path bytes = .ok t') :
    hasNul path = false ∧ endsInSlash path = false ∧
      ∃ here name, t.resolve path = .ok (.entry here name) ∧ name.utf8ByteSize ≤ maxName ∧
        t.node? (here ++ [name]) ≠ some .directory ∧ t' = t.set (here ++ [name]) bytes := by
  rw [replace] at h
  cases hstage : t.stage path with
  | error e => rw [hstage] at h; cases h
  | ok _ =>
    rw [hstage] at h
    simp only [bind, Except.bind, find] at h
    split at h
    · cases h
    · next hnul =>
      split at h
      · cases h
      · next leaf hleaf =>
        cases leaf with
        | directory => cases h
        | entry here name =>
          by_cases hlong : maxName < name.utf8ByteSize
          · simp [hlong] at h
          · by_cases hslash : endsInSlash path
            · simp [hlong, hslash] at h
            · by_cases hplace : t.node? (here ++ [name]) = some .directory
              · simp [hlong, hslash, hplace] at h
              · have hset : t' = t.set (here ++ [name]) bytes := by
                  simpa [hlong, hslash, hplace, pure, Except.pure] using h.symm
                exact ⟨by simpa using hnul, by simpa using hslash, here, name, hleaf,
                  Nat.le_of_not_lt hlong, hplace, hset⟩

theorem read_replace (h : t.replace path bytes = .ok t') : t'.read path = .ok bytes := by
  obtain ⟨hnul, hslash, here, name, hresolve, hshort, hplace, rfl⟩ := replace_eq_ok h
  have hleaf := (opens_set hplace bytes).resolve hresolve
  have hfound := node?_set_self t (here ++ [name]) bytes
  simp [read, hnul, hleaf, find, Nat.not_lt.mpr hshort, hfound, hslash, bind, Except.bind, pure,
    Except.pure]

end Whitespace.FileTree
