import Mathlib
import Whitespace.Machine

/-!
Runs of the machine. A run of so many steps can be cut anywhere, so a run ends in one way at most.
-/
namespace Whitespace

/-- How a run came to its end, and what it left. -/
structure Ending where
  /-- None if the run went well. -/
  fault : Option Fault
  data : Data
  /-- How many calls had not returned. -/
  pending : Nat

def Progress.ending? : Progress → Option Ending
  | .running _ => none
  | .halted m => some ⟨none, m.data, m.returns.depth⟩
  | .faulted f m => some ⟨some f, m.data, m.returns.depth⟩

namespace Machine

variable {limits : Limits} {ops : Array Op} {m m' : Machine} {e : Ending}

/-- Does what an op does to the data. -/
def perform (m : Machine) (op : Op) : Progress :=
  match m.data.apply op with
  | .done data => .running { m with data }.next
  | .fault f data => .faulted f { m with data }

theorem exec_of_data {op : Op} (h : op.family ≠ .flow) (limits : Limits) (size : Nat)
    (m : Machine) : exec limits size m op = m.perform op := by
  cases op with
  | jump _ | jumpIfZero _ | jumpIfNegative _ | pushReturn _ | dispatch _ | halt =>
    exact absurd rfl h
  | _ => rfl

/-- The run from `m` comes to this end. -/
def Ends (limits : Limits) (ops : Array Op) (m : Machine) (e : Ending) : Prop :=
  ∃ n, (m.runFor limits ops n).ending? = some e

theorem runFor_succ_of_running (h : m.step limits ops = .running m') (n : Nat) :
    m.runFor limits ops (n + 1) = m'.runFor limits ops n := by
  rw [runFor, h]

theorem runFor_succ_of_ended (h : (m.step limits ops).ending? = some e) (n : Nat) :
    m.runFor limits ops (n + 1) = m.step limits ops := by
  rw [runFor]
  split
  · next m' hstep => rw [hstep] at h; cases h
  · rfl

theorem runFor_one (limits : Limits) (ops : Array Op) (m : Machine) :
    m.runFor limits ops 1 = m.step limits ops := by
  rw [runFor]
  split
  · next h => rw [h]; rfl
  · rfl

theorem running_or_ended (p : Progress) : (∃ m, p = .running m) ∨ ∃ e, p.ending? = some e := by
  cases p with
  | running m => exact .inl ⟨m, rfl⟩
  | halted m => exact .inr ⟨_, rfl⟩
  | faulted f m => exact .inr ⟨_, rfl⟩

theorem runFor_add_of_running {n : Nat} (h : m.runFor limits ops n = .running m') (k : Nat) :
    m.runFor limits ops (n + k) = m'.runFor limits ops k := by
  induction n generalizing m with
  | zero => cases h; rw [Nat.zero_add]
  | succ n ih =>
    rw [Nat.succ_add]
    rcases running_or_ended (m.step limits ops) with ⟨m₁, hstep⟩ | ⟨e, hstep⟩
    · rw [runFor_succ_of_running hstep] at h ⊢
      exact ih h
    · rw [runFor_succ_of_ended hstep] at h
      rw [h] at hstep
      cases hstep

theorem runFor_add_of_ended {n : Nat} (h : (m.runFor limits ops n).ending? = some e) (k : Nat) :
    m.runFor limits ops (n + k) = m.runFor limits ops n := by
  induction n generalizing m with
  | zero => cases h
  | succ n ih =>
    rw [Nat.succ_add]
    rcases running_or_ended (m.step limits ops) with ⟨m₁, hstep⟩ | ⟨e', hstep⟩
    · rw [runFor_succ_of_running hstep] at h ⊢
      rw [runFor_succ_of_running hstep]
      exact ih h
    · rw [runFor_succ_of_ended hstep, runFor_succ_of_ended hstep]

/-- What a run has reached is on the way to its end. -/
theorem ends_iff_of_running {n : Nat} (h : m.runFor limits ops n = .running m') :
    Ends limits ops m e ↔ Ends limits ops m' e := by
  constructor
  · rintro ⟨k, hk⟩
    refine ⟨k, ?_⟩
    rw [← runFor_add_of_running h, Nat.add_comm, runFor_add_of_ended hk]
    exact hk
  · rintro ⟨k, hk⟩
    exact ⟨n + k, by rw [runFor_add_of_running h]; exact hk⟩

theorem Ends.unique {e' : Ending} (h : Ends limits ops m e) (h' : Ends limits ops m e') :
    e = e' := by
  obtain ⟨n, hn⟩ := h
  obtain ⟨k, hk⟩ := h'
  have hsame := runFor_add_of_ended hn k
  rw [Nat.add_comm, runFor_add_of_ended hk] at hsame
  rw [← hsame, hk] at hn
  exact (Option.some.inj hn).symm

end Machine

end Whitespace
