/-!
Stacks that know their depth.
-/
namespace Whitespace

structure Stack (α : Type) where
  /-- The top comes first. -/
  items : List α
  depth : Nat
  depth_eq : depth = items.length

namespace Stack

variable {α : Type}

def empty : Stack α := ⟨[], 0, rfl⟩

def push (s : Stack α) (a : α) : Stack α :=
  ⟨a :: s.items, s.depth + 1, congrArg (· + 1) s.depth_eq⟩

def pop? : Stack α → Option (α × Stack α)
  | ⟨[], _, _⟩ => none
  | ⟨a :: items, depth, h⟩ => some (a, ⟨items, depth - 1, by simp [h]⟩)

theorem ext {s t : Stack α} (h : s.items = t.items) : s = t := by
  obtain ⟨items, depth, hs⟩ := s
  obtain ⟨items', depth', ht⟩ := t
  cases h
  subst hs ht
  rfl

@[simp] theorem pop?_push (s : Stack α) (a : α) : (s.push a).pop? = some (a, s) := rfl

theorem pop?_eq_none_iff {s : Stack α} : s.pop? = none ↔ s.depth = 0 := by
  obtain ⟨items, depth, h⟩ := s
  cases items <;> simp_all [pop?]

theorem pop?_eq_some_iff {s t : Stack α} {a : α} : s.pop? = some (a, t) ↔ s = t.push a := by
  constructor
  · intro h
    obtain ⟨items, depth, hs⟩ := s
    cases items with
    | nil => cases h
    | cons b items =>
      simp only [pop?, Option.some.injEq, Prod.mk.injEq] at h
      obtain ⟨rfl, rfl⟩ := h
      exact Stack.ext rfl
  · intro h
    rw [h]
    exact pop?_push t a

end Stack

end Whitespace
