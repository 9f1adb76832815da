import Whitespace.Code
import Whitespace.Text.Column

/-!
The static stack check. It computes, over all paths through the code from address 0 and an empty
stack, the least height of the operand stack at each address, and reports an op that takes more
values than that. A dispatcher is taken to lead to all its return sites.

The search keeps one least height for each address it has reached and a list of addresses to look
at again. It ends because each height that is written is either the first at its address or less
than the one before.
-/
namespace Whitespace

/-- An op that may find fewer values on the stack than it takes. -/
structure Underflow where
  address : Nat
  op : Op
  needed : Nat
  available : Nat
  deriving DecidableEq, Repr

def Underflow.message (u : Underflow) : String :=
  "stack-check error: " ++ u.op.name ++ " at " ++ Column.address u.address ++
    s!" needs {u.needed} values, only {u.available} guaranteed"

namespace Height

/-- The least height found so far at each address. -/
abbrev Heights := Array (Option Nat)

/-- Whether coming to `address` with height `height` is news. -/
def improves (heights : Heights) (height : Nat) (address : Nat) : Bool :=
  match heights[address]? with
  | none => false
  | some none => true
  | some (some least) => height < least

/-- Notes that all of `targets` are reached with height `height`; those for which it is news are
put on the front of the worklist. Targets outside the code are passed over. -/
def relax (height : Nat) : List Int → Heights → List Nat → Heights × List Nat
  | [], heights, work => (heights, work)
  | t :: targets, heights, work =>
    if 0 ≤ t ∧ improves heights height t.toNat then
      relax height targets (heights.setIfInBounds t.toNat (some height)) (t.toNat :: work)
    else relax height targets heights work

/-- How many addresses have no height yet. -/
def unreached (heights : Heights) : Nat := heights.toList.countP Option.isNone

/-- The sum of all heights. -/
def total (heights : Heights) : Nat := heights.toList.foldr (·.getD 0 + ·) 0

theorem countP_set_none {hs : List (Option Nat)} {n : Nat} (x : Nat) (h : hs[n]? = some none) :
    (hs.set n (some x)).countP Option.isNone < hs.countP Option.isNone := by
  induction hs generalizing n with
  | nil => simp at h
  | cons a hs ih =>
    cases n with
    | zero => simp_all
    | succ n =>
      have := ih (n := n) (by simpa using h)
      simp only [List.set_cons_succ, List.countP_cons]
      omega

theorem set_some {hs : List (Option Nat)} {n x y : Nat} (h : hs[n]? = some (some y)) (hxy : x < y) :
    (hs.set n (some x)).countP Option.isNone = hs.countP Option.isNone ∧
      (hs.set n (some x)).foldr (·.getD 0 + ·) 0 < hs.foldr (·.getD 0 + ·) 0 := by
  induction hs generalizing n with
  | nil => simp at h
  | cons a hs ih =>
    cases n with
    | zero => simp_all
    | succ n =>
      have := ih (n := n) (by simpa using h)
      simp only [List.set_cons_succ, List.countP_cons, List.foldr_cons]
      omega

/-- Lower in the order in which the search descends: fewer addresses without a height, or as many
and a smaller sum. -/
def Below (a b : Heights) : Prop :=
  unreached a < unreached b ∨ unreached a = unreached b ∧ total a < total b

theorem Below.trans {a b c : Heights} (hab : Below a b) (hbc : Below b c) : Below a c := by
  unfold Below at *
  omega

theorem below_setIfInBounds {heights : Heights} {height address : Nat}
    (h : improves heights height address = true) :
    Below (heights.setIfInBounds address (some height)) heights := by
  unfold improves at h
  split at h
  · cases h
  · next hn =>
    rw [← Array.getElem?_toList] at hn
    left
    simpa [unreached] using countP_set_none height hn
  · next least hn =>
    rw [← Array.getElem?_toList] at hn
    right
    simpa [unreached, total] using set_some hn (by simpa using h)

theorem relax_below (height : Nat) (targets : List Int) (heights : Heights) (work : List Nat) :
    relax height targets heights work = (heights, work) ∨
      Below (relax height targets heights work).1 heights := by
  induction targets generalizing heights work with
  | nil => exact .inl rfl
  | cons t targets ih =>
    unfold relax
    split
    · next h =>
      have hbelow := below_setIfInBounds h.2
      cases ih (heights.setIfInBounds t.toNat (some height)) (t.toNat :: work) with
      | inl heq => rw [heq]; exact .inr hbelow
      | inr hlt => exact .inr (hlt.trans hbelow)
    · exact ih heights work

theorem relax_decreases (height : Nat) (targets : List Int) (heights : Heights) (ip : Nat)
    (work : List Nat) :
    Prod.Lex (· < ·) (Prod.Lex (· < ·) (· < ·))
      (unreached (relax height targets heights work).1, total (relax height targets heights work).1,
        (relax height targets heights work).2.length)
      (unreached heights, total heights, (ip :: work).length) := by
  cases relax_below height targets heights work with
  | inl heq => rw [heq]; exact .right _ (.right _ (Nat.lt_succ_self _))
  | inr hlt =>
    cases hlt with
    | inl h => exact .left _ _ h
    | inr h => rw [h.1]; exact .right _ (.left _ _ h.2)

/-- Looks at the addresses of the worklist, the last one noted first. -/
def search (ops : Array Op) (heights : Heights) : List Nat → Except Underflow Unit
  | [] => .ok ()
  | ip :: work =>
    match heights[ip]?.join, ops[ip]? with
    | some height, some op =>
      if height < op.effect.pops then .error ⟨ip, op, op.effect.pops, height⟩
      else
        let out := height - op.effect.pops + op.effect.pushes
        let next := relax out (op.successors ip) heights work
        search ops next.1 next.2
    | _, _ => search ops heights work
termination_by work => (unreached heights, total heights, work.length)
decreasing_by
  · exact relax_decreases _ _ _ _ _
  · exact .right _ (.right _ (Nat.lt_succ_self _))

def check (ops : Array Op) : Except Underflow Unit :=
  if ops.isEmpty then .ok ()
  else search ops ((Array.replicate ops.size none).setIfInBounds 0 (some 0)) [0]

end Height

end Whitespace
