import Whitespace.Proofs.StackCheck

/-!
The search of the stack check, turn by turn. A height that is noted is at most one more than
another, so each is less than the number of addresses that have one, however often a loop pushes.
Noting a height lowers what its address may still come down by at least as much as it lengthens the
worklist, so the loop ends after at most as many turns as there are pairs of addresses.
-/
namespace Whitespace

namespace Height

variable {ops : Array Op} {heights : Heights} {work : List Nat} {address height : Nat}

/-- Where a search stands between two turns of its loop. -/
inductive Stage where
  | searching (heights : Heights) (work : List Nat)
  | found (result : Except Underflow Unit)

namespace Stage

/-- One turn of the loop looks at the address noted last. -/
def turn (ops : Array Op) : Stage → Stage
  | .searching _ [] => .found (.ok ())
  | .searching heights (ip :: work) =>
    match heights[ip]?.join, ops[ip]? with
    | some height, some op =>
      if height < op.effect.pops then .found (.error ⟨ip, op, op.effect.pops, height⟩)
      else
        let next :=
          relax (height - op.effect.pops + op.effect.pushes) (op.successors ip) heights work
        .searching next.1 next.2
    | _, _ => .searching heights work
  | .found result => .found result

/-- Before the first turn; code without ops leaves nothing to look at. -/
def first (ops : Array Op) : Stage := .searching (start ops) (if ops.isEmpty then [] else [0])

/-- After so many turns. -/
def after (ops : Array Op) : Nat → Stage
  | 0 => first ops
  | n + 1 => (after ops n).turn ops

/-- What the search comes to from here. -/
def result (ops : Array Op) : Stage → Except Underflow Unit
  | .searching heights work => search ops heights work
  | .found result => result

theorem result_turn (ops : Array Op) (s : Stage) : (s.turn ops).result ops = s.result ops := by
  cases s with
  | found result => rfl
  | searching heights work =>
    rw [result.eq_1]
    fun_cases Height.search ops heights work with
    | case1 => rfl
    | case2 ip work height op hop hheight hlow =>
      simp only [turn, hheight, hop, if_pos hlow, result]
    | case3 ip work height op hop hheight hpops =>
      simp only [turn, hheight, hop, if_neg hpops, result]
      rfl
    | case4 ip work hnone =>
      rw [turn]
      split
      · next height op hheight hop => exact (hnone height op hheight hop).elim
      · rfl

theorem result_after (ops : Array Op) (n : Nat) : (after ops n).result ops = check ops := by
  induction n with
  | zero =>
    rw [after, first, result, Height.check]
    split
    · rw [Height.search]
    · rfl
  | succ n ih => rw [after, result_turn, ih]

end Stage

/-- How many addresses have a height. -/
def reached (heights : Heights) : Nat := heights.toList.countP Option.isSome

/-- Every height is less than the number of addresses that have one. -/
def Low (heights : Heights) : Prop :=
  ∀ {address height : Nat}, heights[address]? = some (some height) → height < reached heights

theorem reached_le (heights : Heights) : reached heights ≤ heights.size := by
  rw [reached, ← Array.length_toList]
  exact List.countP_le_length

/-- News is a first height or a lower one. -/
theorem old_of_improves (h : improves heights height address = true) :
    ∃ old, heights.toList[address]? = some old ∧ ∀ least ∈ old, height < least := by
  obtain ⟨hlt, hnot⟩ := improves_iff.mp h
  refine ⟨heights[address], by simp [hlt], fun least hleast => ?_⟩
  refine Nat.lt_of_not_le fun hle => hnot ⟨least, ?_, hle⟩
  rw [Array.getElem?_eq_getElem hlt]
  exact congrArg some hleast

theorem reached_set {old : Option Nat} (h : heights.toList[address]? = some old) (height : Nat) :
    reached (heights.setIfInBounds address (some height)) =
      reached heights + if old.isNone then 1 else 0 := by
  obtain ⟨hlt, rfl⟩ := List.getElem?_eq_some_iff.mp h
  rw [reached, reached, Array.toList_setIfInBounds, List.countP_set hlt]
  cases hold : heights.toList[address] with
  | none => simp
  | some least =>
    have hpos : 0 < heights.toList.countP Option.isSome :=
      List.countP_pos_iff.mpr ⟨_, List.getElem_mem hlt, by rw [hold]; rfl⟩
    simp only [Option.isSome_some, if_true, Option.isNone_some, Bool.false_eq_true, if_false]
    omega

/-- Some address has no height as long as there is one to be noted for the first time. -/
theorem reached_lt (h : heights.toList[address]? = some none) : reached heights < heights.size := by
  have hset := reached_le (heights.setIfInBounds address (some 0))
  rw [reached_set h, Array.size_setIfInBounds] at hset
  exact hset

theorem Low.set (h : Low heights) (hnews : improves heights height address = true)
    (hle : height ≤ reached heights) :
    Low (heights.setIfInBounds address (some height)) := by
  obtain ⟨old, hold, hlower⟩ := old_of_improves hnews
  intro a k hk
  rw [reached_set hold]
  by_cases ha : address = a
  · subst ha
    rw [Array.getElem?_setIfInBounds_self_of_lt (improves_iff.mp hnews).1] at hk
    cases hk
    cases old with
    | none => exact Nat.lt_succ_of_le hle
    | some least =>
      have hleast : least < reached heights := h (by rw [← Array.getElem?_toList, hold])
      exact Nat.lt_trans (hlower least rfl) hleast
  · rw [Array.getElem?_setIfInBounds_ne ha] at hk
    exact Nat.lt_of_lt_of_le (h hk) (Nat.le_add_right _ _)

theorem reached_le_set (hnews : improves heights height address = true) :
    reached heights ≤ reached (heights.setIfInBounds address (some height)) := by
  obtain ⟨old, hold, _⟩ := old_of_improves hnews
  rw [reached_set hold]
  exact Nat.le_add_right _ _

/-- Noting one more than a height that is there keeps all of them low. -/
theorem Low.relax (h : Low heights) (hle : height ≤ reached heights) (targets : List Int)
    (work : List Nat) : Low (Height.relax height targets heights work).1 := by
  induction targets generalizing heights work with
  | nil => exact h
  | cons t targets ih =>
    rw [Height.relax]
    split
    · next hnews => exact ih (h.set hnews.2 hle) (Nat.le_trans hle (reached_le_set hnews.2)) _
    · exact ih h hle work

/-- By how much all heights together can still come down, where an address without one has that of
as many ops as there are. -/
def slack (heights : Heights) : Nat := (heights.toList.map (·.getD heights.size)).sum

theorem slack_set {old : Option Nat} (h : heights.toList[address]? = some old) (height : Nat) :
    slack (heights.setIfInBounds address (some height)) + old.getD heights.size =
      slack heights + height := by
  obtain ⟨hlt, rfl⟩ := List.getElem?_eq_some_iff.mp h
  have hlt' : address < (heights.toList.map (·.getD heights.size)).length := by simpa using hlt
  have hnew := List.sum_set (heights.toList.map (·.getD heights.size)) address height
  have hsame := List.sum_set (heights.toList.map (·.getD heights.size)) address
    (heights.toList.map (·.getD heights.size))[address]
  rw [List.set_getElem_self, if_pos hlt', List.getElem_map] at hsame
  rw [if_pos hlt'] at hnew
  rw [slack, slack, Array.toList_setIfInBounds, Array.size_setIfInBounds, List.map_set,
    Option.getD_some]
  omega

/-- What a height that is news takes off the slack pays for its place on the worklist. -/
theorem slack_set_lt (hnews : improves heights height address = true)
    (hle : height ≤ reached heights) :
    slack (heights.setIfInBounds address (some height)) < slack heights := by
  obtain ⟨old, hold, hlower⟩ := old_of_improves hnews
  have hset := slack_set hold height
  cases old with
  | none =>
    have hlt := reached_lt hold
    rw [Option.getD_none] at hset
    omega
  | some least =>
    have hlt := hlower least rfl
    rw [Option.getD_some] at hset
    omega

theorem slack_relax_le (hle : height ≤ reached heights) (targets : List Int) (work : List Nat) :
    slack (relax height targets heights work).1 + (relax height targets heights work).2.length ≤
      slack heights + work.length := by
  induction targets generalizing heights work with
  | nil => exact Nat.le_refl _
  | cons t targets ih =>
    rw [relax]
    split
    · next hnews =>
      have hlt := slack_set_lt hnews.2 hle
      have hrest := ih (Nat.le_trans hle (reached_le_set hnews.2)) (t.toNat :: work)
      rw [List.length_cons] at hrest
      omega
    · exact ih hle work

/-- What an op leaves of a low height can be noted. -/
theorem Low.out_le (h : Low heights) (hheight : heights[address]? = some (some height)) {op : Op}
    (hpops : op.effect.pops ≤ height) :
    height - op.effect.pops + op.effect.pushes ≤ reached heights := by
  have hlt := h hheight
  have hpushes := op.pushes_le
  omega

namespace Stage

/-- All heights are low, and there is one cell for each op. -/
def Sound (ops : Array Op) : Stage → Prop
  | .searching heights _ => heights.size = ops.size ∧ Low heights
  | .found _ => True

/-- More than the number of turns that are left. -/
def potential : Stage → Nat
  | .searching heights work => slack heights + work.length + 1
  | .found _ => 0

theorem Sound.turn {s : Stage} (h : s.Sound ops) :
    (s.turn ops).Sound ops ∧ (s.turn ops).potential ≤ s.potential - 1 := by
  cases s with
  | found result => exact ⟨trivial, Nat.le_refl 0⟩
  | searching heights work =>
    obtain ⟨hsize, hlow⟩ := h
    cases work with
    | nil => exact ⟨trivial, Nat.zero_le _⟩
    | cons ip work =>
      rw [Stage.turn]
      split
      · next height op hheight _ =>
        split
        · exact ⟨trivial, Nat.zero_le _⟩
        · next hpops =>
          have hout := hlow.out_le (Option.join_eq_some_iff.mp hheight) (Nat.le_of_not_lt hpops)
          refine ⟨⟨(relaxed_relax _ _ _ _).size.trans hsize, hlow.relax hout _ _⟩, ?_⟩
          exact Nat.succ_le_succ (slack_relax_le hout _ work)
      · exact ⟨⟨hsize, hlow⟩, Nat.le_refl _⟩

theorem sound_first (ops : Array Op) : (first ops).Sound ops := by
  refine ⟨size_start ops, fun {address height} h => ?_⟩
  obtain ⟨rfl, rfl⟩ := eq_zero_of_start h
  refine List.countP_pos_iff.mpr ⟨some 0, List.mem_of_getElem? (i := 0) ?_, rfl⟩
  rw [Array.getElem?_toList]
  exact h

theorem sound_after (ops : Array Op) (n : Nat) :
    (after ops n).Sound ops ∧ (after ops n).potential ≤ (first ops).potential - n := by
  induction n with
  | zero => exact ⟨sound_first ops, Nat.le_refl _⟩
  | succ n ih =>
    obtain ⟨hsound, hle⟩ := ih
    obtain ⟨hsound', hle'⟩ := hsound.turn
    exact ⟨hsound', by rw [after]; omega⟩

theorem potential_first_le (ops : Array Op) : (first ops).potential ≤ ops.size * ops.size + 1 := by
  have hnone : slack (Array.replicate ops.size none) = ops.size * ops.size := by simp [slack]
  rw [first, potential, start]
  split
  · next hempty =>
    rw [Array.isEmpty_iff.mp hempty]
    decide
  · next hempty =>
    have hpos : 0 < ops.size := Array.size_pos_iff.mpr (by simpa using hempty)
    have hfirst : (Array.replicate ops.size none : Heights).toList[0]? = some none := by
      rw [Array.toList_replicate, List.getElem?_replicate, if_pos hpos]
    have hset := slack_set hfirst 0
    rw [hnone, Array.size_replicate, Option.getD_none] at hset
    rw [List.length_singleton]
    omega

/-- As many turns as that are enough. -/
theorem found_of_potential_le {n : Nat} (h : (first ops).potential ≤ n) :
    after ops n = .found (check ops) := by
  have hresult := result_after ops n
  have hnone := (sound_after ops n).2
  rw [Nat.sub_eq_zero_of_le h, Nat.le_zero] at hnone
  cases hstage : after ops n with
  | searching heights work =>
    rw [hstage] at hnone
    cases hnone
  | found result =>
    rw [hstage] at hresult
    rw [← hresult, Stage.result]

end Stage

/-- An op that the search gets past finds the values it takes. -/
theorem Stage.pops_le_of_turn {op : Op} {heights' : Heights} {work' : List Nat}
    (h : (Stage.searching heights (address :: work)).turn ops = .searching heights' work')
    (hheight : heights[address]? = some (some height)) (hop : ops[address]? = some op) :
    op.effect.pops ≤ height := by
  refine Nat.le_of_not_lt fun hlow => ?_
  simp only [turn, Option.join_eq_some_iff.mpr hheight, hop, if_pos hlow] at h
  cases h

/-- The loop of the check ends, after no more turns than the square of the number of ops and one to
find the worklist empty. At each turn every height is less than the number of addresses that have
one, and so than the number of ops. So, where a turn gets past its op, neither taking the values off
the height nor putting on those that the op leaves goes beyond the numbers of 32 bits. -/
theorem check_ends_without_wrapping (ops : Array Op) (hsize : ops.size < 2 ^ 32) :
    (∃ n ≤ ops.size * ops.size + 1, Stage.after ops n = .found (check ops)) ∧
    ∀ n heights work, Stage.after ops n = .searching heights work →
      (∀ address height : Nat, heights[address]? = some (some height) →
        height < reached heights ∧ height < ops.size) ∧
      ∀ heights' work', Stage.after ops (n + 1) = .searching heights' work' →
        ∀ address height op, work.head? = some address →
          heights[address]? = some (some height) → ops[address]? = some op →
          op.effect.pops ≤ height ∧ height - op.effect.pops + op.effect.pushes < 2 ^ 32 := by
  refine ⟨⟨_, Nat.le_refl _, Stage.found_of_potential_le (Stage.potential_first_le ops)⟩, ?_⟩
  intro n heights work hstage
  obtain ⟨hcells, hlow⟩ : heights.size = ops.size ∧ Low heights := by
    have hsound := (Stage.sound_after ops n).1
    rwa [hstage] at hsound
  have hreached : reached heights ≤ ops.size := hcells ▸ reached_le heights
  refine ⟨fun address height hheight => ?_, ?_⟩
  · exact ⟨hlow hheight, Nat.lt_of_lt_of_le (hlow hheight) hreached⟩
  · intro heights' work' hnext address height op hhead hheight hop
    obtain ⟨rest, rfl⟩ := List.head?_eq_some_iff.mp hhead
    rw [Stage.after, hstage] at hnext
    have hpops := Stage.pops_le_of_turn hnext hheight hop
    have hout := hlow.out_le hheight hpops
    exact ⟨hpops, by omega⟩

/-- Pushes for ever. -/
def pushingLoop : Array Op := #[.push 7, .dup, .jump (-2)]

theorem pushingLoop_check_ends :
    pushingLoop.size < 2 ^ 32 ∧
      (∃ n ≤ 10, Stage.after pushingLoop n = .found (check pushingLoop)) ∧
      Stage.after pushingLoop 1 = .searching #[some 0, some 1, none] [1] ∧
      1 < reached #[some 0, some 1, none] ∧ 1 < pushingLoop.size ∧
      Stage.after pushingLoop 2 = .searching #[some 0, some 1, some 2] [2] ∧
      Op.dup.effect.pops ≤ 1 ∧ 1 - Op.dup.effect.pops + Op.dup.effect.pushes < 2 ^ 32 := by
  have hsize : pushingLoop.size < 2 ^ 32 := by decide
  have hstage : Stage.after pushingLoop 1 = .searching #[some 0, some 1, none] [1] := rfl
  have hnext : Stage.after pushingLoop 2 = .searching #[some 0, some 1, some 2] [2] := rfl
  obtain ⟨hends, hturns⟩ := check_ends_without_wrapping pushingLoop hsize
  obtain ⟨hlow, hout⟩ := hturns 1 _ _ hstage
  obtain ⟨hless, hinside⟩ := hlow 1 1 rfl
  exact ⟨hsize, hends, hstage, hless, hinside, hnext, hout _ _ hnext 1 1 .dup rfl rfl rfl⟩

end Height

end Whitespace
