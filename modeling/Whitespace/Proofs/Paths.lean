import Whitespace.Proofs.StackCheck

/-!
The stack check is exact. A path follows the code from its start as the successors of the ops
allow, with the height of the operand stack that the ops leave. Every height that a search notes is
that of a path, and when it passes, its heights are below those of all paths. So the check fails
exactly if some path comes to an op that takes more values than there are, in whatever order the
worklist is gone through.
-/
namespace Whitespace

namespace Height

variable {ops : Array Op} {heights : Heights} {work : List Nat} {address height : Nat}

/-- A path through the code comes to `address` with `height` values on the stack. Each op on its way
has found the values that it takes. -/
inductive Path (ops : Array Op) : Nat → Nat → Prop where
  | start (h : 0 < ops.size) : Path ops 0 0
  | step {address height next : Nat} {op : Op} (h : Path ops address height)
      (hop : ops[address]? = some op) (hpops : op.effect.pops ≤ height)
      (hnext : (next : Int) ∈ op.successors address) (hlt : next < ops.size) :
      Path ops next (height - op.effect.pops + op.effect.pushes)

/-- Some path comes to an op that takes more values than there are. -/
def Short (ops : Array Op) : Prop :=
  ∃ address height op, Path ops address height ∧ ops[address]? = some op ∧
    height < op.effect.pops

/-- Every height is that of a path. -/
def Feasible (ops : Array Op) (heights : Heights) : Prop :=
  ∀ {address height}, heights[address]? = some (some height) → Path ops address height

/-- A height that is there after noting one at all targets was there before, or was noted. -/
theorem origin_of_relax {targets : List Int} {noted : Nat}
    (h : (relax noted targets heights work).1[address]? = some (some height)) :
    heights[address]? = some (some height) ∨
      height = noted ∧ (address : Int) ∈ targets ∧ address < heights.size := by
  induction targets generalizing heights work with
  | nil => exact .inl h
  | cons t targets ih =>
    rw [relax] at h
    split at h
    · next hnews =>
      rcases ih h with hold | ⟨hheight, hmem, hlt⟩
      · by_cases haddress : t.toNat = address
        · subst haddress
          rw [Array.getElem?_setIfInBounds_self_of_lt (improves_iff.mp hnews.2).1] at hold
          cases hold
          refine .inr ⟨rfl, ?_, (improves_iff.mp hnews.2).1⟩
          rw [Int.toNat_of_nonneg hnews.1]
          exact List.mem_cons_self
        · rw [Array.getElem?_setIfInBounds_ne haddress] at hold
          exact .inl hold
      · rw [Array.size_setIfInBounds] at hlt
        exact .inr ⟨hheight, List.mem_cons_of_mem t hmem, hlt⟩
    · rcases ih h with hold | ⟨hheight, hmem, hlt⟩
      · exact .inl hold
      · exact .inr ⟨hheight, List.mem_cons_of_mem t hmem, hlt⟩

/-- What an op leaves is the height of a path at each of its successors. -/
theorem Feasible.relax {op : Op} (h : Feasible ops heights) (hsize : heights.size = ops.size)
    (hheight : heights[address]? = some (some height)) (hop : ops[address]? = some op)
    (hpops : op.effect.pops ≤ height) (work : List Nat) :
    Feasible ops (relax (height - op.effect.pops + op.effect.pushes) (op.successors address)
      heights work).1 := by
  intro next least hleast
  rcases origin_of_relax hleast with hold | ⟨rfl, hmem, hlt⟩
  · exact h hold
  · rw [hsize] at hlt
    exact .step (h hheight) hop hpops hmem hlt

theorem feasible_start (ops : Array Op) : Feasible ops (start ops) := by
  intro address height h
  have hlt : address < ops.size := by
    rw [← size_start ops]
    exact (Array.getElem?_eq_some_iff.mp h).1
  obtain ⟨rfl, rfl⟩ := eq_zero_of_start h
  exact .start hlt

/-- What a report says: a path comes to its address with the height it gives, which is less than
the op there takes. -/
structure Reported (ops : Array Op) (u : Underflow) : Prop where
  path : Path ops u.address u.available
  op : ops[u.address]? = some u.op
  needed : u.needed = u.op.effect.pops
  short : u.available < u.needed

theorem Search.reported {result : Except Underflow Unit} {u : Underflow}
    (hsearch : Search ops heights work result) (herror : result = .error u)
    (hsize : heights.size = ops.size) (h : Feasible ops heights) : Reported ops u := by
  induction hsearch with
  | done => cases herror
  | skip _ _ _ ih => exact ih herror hsize h
  | report hpick hheight hop hlow =>
    cases herror
    exact ⟨h hheight, hop, rfl, hlow⟩
  | visit hpick hheight hop hpops _ ih =>
    refine ih herror ?_ (h.relax hsize hheight hop hpops _)
    exact (relaxed_relax _ _ _ _).size.trans hsize

/-- Heights that are closed are at most those of any path. -/
theorem Certifies.atMost_of_path (hcert : Certifies ops heights) (h : Path ops address height) :
    AtMost heights address height := by
  induction h with
  | start hpos => exact hcert.start hpos
  | @step address height next op _ hop hpops hnext hlt ih =>
    obtain ⟨least, hleast, hle⟩ := ih
    have hlt : (next : Int).toNat < heights.size := by
      rw [Int.toNat_natCast, hcert.size]
      exact hlt
    obtain ⟨_, hsuccessors⟩ := hcert.closed address least op hleast hop
    obtain ⟨below, hbelow, hle'⟩ := hsuccessors next hnext (Int.natCast_nonneg next) hlt
    refine ⟨below, hbelow, ?_⟩
    omega

theorem Certifies.not_short (hcert : Certifies ops heights) : ¬ Short ops := by
  rintro ⟨address, height, op, hpath, hop, hshort⟩
  obtain ⟨least, hleast, hle⟩ := hcert.atMost_of_path hpath
  have hpops := (hcert.closed address least op hleast hop).1
  omega

/-- In whatever order its worklist is gone through, a search from the start fails exactly if there
is a path that comes short. -/
theorem Search.error_iff_short {result : Except Underflow Unit}
    (h : Search ops (start ops) [0] result) : (∃ u, result = .error u) ↔ Short ops := by
  constructor
  · rintro ⟨u, hu⟩
    have hreported := h.reported hu (size_start ops) (feasible_start ops)
    exact ⟨_, _, _, hreported.path, hreported.op, hreported.needed ▸ hreported.short⟩
  · intro hshort
    cases result with
    | error u => exact ⟨u, rfl⟩
    | ok =>
      obtain ⟨heights, hcert⟩ := h.exists_certifies
      exact absurd hshort hcert.not_short

/-- The check fails exactly if a path comes to an op that takes more values than there are, and
what it reports is such a path's end. No other order of looking at the addresses changes whether it
fails. -/
theorem check_fails_exactly_on_short_paths (ops : Array Op) :
    ((∃ u, check ops = .error u) ↔ Short ops) ∧
    (∀ u, check ops = .error u → Reported ops u) ∧
    ∀ result, Search ops (start ops) [0] result →
      ((∃ u, result = .error u) ↔ ∃ u, check ops = .error u) := by
  have hcheck := Search.of_check ops
  refine ⟨hcheck.error_iff_short, fun u hu => ?_, fun result hresult => ?_⟩
  · exact hcheck.reported hu (size_start ops) (feasible_start ops)
  · exact hresult.error_iff_short.trans hcheck.error_iff_short.symm

/-- Drops what it pushed once, and then once more for each time around. -/
def drainingLoop : Array Op := #[.push 1, .drop, .push 0, .jumpIfZero (-2), .halt]

theorem drainingLoop_comes_short :
    check drainingLoop = .error ⟨1, .drop, 1, 0⟩ ∧ Short drainingLoop ∧
      Reported drainingLoop ⟨1, .drop, 1, 0⟩ := by
  have hcheck : check drainingLoop = .error ⟨1, .drop, 1, 0⟩ := by cbv
  obtain ⟨hiff, hreport, -⟩ := check_fails_exactly_on_short_paths drainingLoop
  exact ⟨hcheck, hiff.mp ⟨_, hcheck⟩, hreport _ hcheck⟩

end Height

end Whitespace
