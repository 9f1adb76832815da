import Whitespace.Proofs.Effect

/-!
What an op leaves alone. Control flow touches nothing of the data but the stack. A call adds its own
return site to those pending and nothing else adds any. Control fails only for a target outside the
code or a return site that is not in the table.
-/
namespace Whitespace

namespace Machine

/-- What an op leaves alone: the count of steps, the pending calls but for its own and, if it is
control flow, all data but the stack. -/
structure Framed (op : Op) (m m' : Machine) : Prop where
  steps : m'.steps = m.steps
  returns : ∀ site ∈ m'.returns.items, site ∈ m.returns.items ∨ op = .pushReturn site
  data : op.family = .flow → ∃ stack, m'.data = { m.data with stack }

/-- What a fault of control flow says of the machine that raised it. No op is at fault for the
limits that were looked at before it. -/
def Explains (size : Nat) (op : Op) (m : Machine) : Fault → Prop
  | .invalidJump t => t ∈ op.successors m.address ∧ ¬ (0 ≤ t ∧ t ≤ size)
  | .unknownReturnSite site =>
    site ∈ m.returns.items ∧ ∃ table, op = .dispatch table ∧ table.size ≤ site.toNat
  | .stepLimit _ | .stackLimit _ => False
  | _ => True

end Machine

/-- What executing `op` in code of `size` ops can come to, the data of other ops than control flow
left aside. -/
def Progress.Moves (size : Nat) (op : Op) (m : Machine) : Progress → Prop
  | .running m' => m.Framed op m'
  | .halted m' => m' = m ∧ op = .halt
  | .faulted f m' => m.Framed op m' ∧ m'.address = m.address ∧ m.Explains size op f

namespace Machine

variable {op : Op} {m m' : Machine} {size : Nat}

theorem framed_refl (op : Op) (m : Machine) : m.Framed op m :=
  ⟨rfl, fun _ h => .inl h, fun _ => ⟨m.data.stack, rfl⟩⟩

theorem Framed.goto (h : m.Framed op m') (haddress : m'.address = m.address) {offset : Int32}
    (hmem : Op.target m.address offset ∈ op.successors m.address) (size : Nat) :
    (m'.goto size offset).Moves size op m := by
  rw [Machine.goto, haddress]
  split
  · exact ⟨h.steps, h.returns, h.data⟩
  · next hrange => exact ⟨h, haddress, hmem, hrange⟩

theorem moves_branchIf {offset : Int32} (hbranch : op.branchOffset? = some offset) (size : Nat)
    (test : Word → Bool) (m : Machine) : (m.branchIf size test offset).Moves size op m := by
  rw [branchIf]
  split
  · exact ⟨framed_refl op m, rfl, trivial⟩
  · next w stack _ =>
    have hpopped : m.Framed op { m with data := { m.data with stack } } :=
      ⟨rfl, fun _ h => .inl h, fun _ => ⟨stack, rfl⟩⟩
    dsimp only
    split
    · exact hpopped.goto rfl (Op.target_mem_successors hbranch _) size
    · exact ⟨hpopped.steps, hpopped.returns, hpopped.data⟩

theorem moves_pushReturn (limits : Limits) (size : Nat) (site : UInt32) (m : Machine) :
    (m.pushReturn limits site).Moves size (.pushReturn site) m := by
  rw [pushReturn]
  split
  · exact ⟨framed_refl _ m, rfl, trivial⟩
  · refine ⟨rfl, fun s hs => ?_, fun _ => ⟨m.data.stack, rfl⟩⟩
    rcases List.mem_cons.mp hs with rfl | hs
    · exact .inr rfl
    · exact .inl hs

theorem moves_dispatch (size : Nat) (table : Array Int32) (m : Machine) :
    (m.dispatch size table).Moves size (.dispatch table) m := by
  rw [dispatch]
  split
  · exact ⟨framed_refl _ m, rfl, trivial⟩
  · next site returns hpop =>
    have hitems : m.returns.items = site :: returns.items := by
      rw [Stack.pop?_eq_some_iff.mp hpop]
      rfl
    have hpopped : m.Framed (.dispatch table) { m with returns } :=
      ⟨rfl, fun s hs => .inl (hitems ▸ List.mem_cons_of_mem site hs), fun _ => ⟨m.data.stack, rfl⟩⟩
    dsimp only
    split
    · next hnone =>
      refine ⟨hpopped, rfl, ?_, table, rfl, Array.getElem?_eq_none_iff.mp hnone⟩
      exact hitems ▸ List.mem_cons_self
    · next offset hentry =>
      exact hpopped.goto rfl (Op.entry_mem_successors (Array.mem_of_getElem? hentry) _) size

theorem moves_perform (h : op.family ≠ .flow) (size : Nat) (m : Machine) :
    (m.perform op).Moves size op m := by
  have houtcome := m.data.outcome_apply h
  rw [perform]
  generalize m.data.apply op = s at houtcome
  have hframed : ∀ data address, m.Framed op { m with data, address } :=
    fun data address => ⟨rfl, fun _ hs => .inl hs, fun hflow => absurd hflow h⟩
  cases houtcome with
  | done | stored | wrote => exact hframed _ (m.address + 1)
  | overfull => exact ⟨hframed _ m.address, rfl, trivial⟩
  | @failed f _ _ hf =>
    refine ⟨hframed _ m.address, rfl, ?_⟩
    cases f with
    | invalidJump | unknownReturnSite | stepLimit | stackLimit => cases hf
    | _ => trivial

theorem moves_exec (limits : Limits) (size : Nat) (m : Machine) (op : Op) :
    (m.exec limits size op).Moves size op m := by
  by_cases hdata : op.family ≠ .flow
  · rw [exec_of_data hdata]
    exact moves_perform hdata size m
  · cases op with
    | jump offset =>
      exact (framed_refl _ m).goto rfl (Op.target_mem_successors rfl m.address) size
    | jumpIfZero offset | jumpIfNegative offset => exact moves_branchIf rfl size _ m
    | pushReturn site => exact moves_pushReturn limits size site m
    | dispatch table => exact moves_dispatch size table m
    | halt => exact ⟨rfl, rfl⟩
    | _ => exact absurd nofun hdata

end Machine

end Whitespace
