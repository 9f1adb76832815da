import Whitespace.Machine.Trace
import Whitespace.Proofs.Limits

/-!
A trace follows its run. Though every state of it is found by starting over under a larger limit on
the steps, these are the machines that the run without such a limit goes through, one after the
other, and how the trace ends is how that run ends.
-/
namespace Whitespace

/-- The same limits on calls and on the stack, and none on the steps. -/
def Limits.endless (limits : Limits) : Limits := { limits with maxSteps := none }

namespace Machine

/-- The next op has been begun. -/
def counted (m : Machine) : Machine := { m with steps := m.steps + 1 }

end Machine

/-- What becomes of a run that may not begin another op. -/
def Progress.paused (ops : Array Op) (max : Nat) : Progress → Progress
  | .running m => if ops[m.address]?.isSome then .faulted (.stepLimit max) m.counted else .halted m
  | .halted m => .halted m
  | .faulted f m => .faulted f m

namespace Machine

variable {limits : Limits} {ops : Array Op} {m m' : Machine} {max n : Nat}

theorem step_of_steps_lt (h : m.steps < max) (limits : Limits) (ops : Array Op) :
    m.step { limits with maxSteps := some max } ops = m.step limits.endless ops := by
  have hexceeded : { m with steps := m.steps + 1 }.exceeded? { limits with maxSteps := some max } =
      { m with steps := m.steps + 1 }.exceeded? limits.endless :=
    if_neg (Nat.not_lt.mpr h)
  have hexec : ∀ m op, exec { limits with maxSteps := some max } ops.size m op =
      exec limits.endless ops.size m op := by
    intro m op
    cases op <;> rfl
  rw [step, step]
  simp only [hexceeded, hexec]

theorem step_of_steps_eq (h : m.steps = max) (limits : Limits) (ops : Array Op) :
    m.step { limits with maxSteps := some max } ops = (Progress.running m).paused ops max := by
  have hexceeded : { m with steps := m.steps + 1 }.exceeded? { limits with maxSteps := some max } =
      some (.stepLimit max) :=
    if_pos (h ▸ Nat.lt_succ_self m.steps)
  rw [step, Progress.paused]
  cases ops[m.address]? with
  | none => rfl
  | some op => simp only [hexceeded, counted, Option.isSome_some, if_true]

/-- Up to its limit a run is the same as without one. -/
theorem runFor_of_maxSteps (h : m.steps + n = max) (limits : Limits) (ops : Array Op) :
    m.runFor { limits with maxSteps := some max } ops (n + 1) =
      (m.runFor limits.endless ops n).paused ops max := by
  induction n generalizing m with
  | zero => rw [runFor_one, step_of_steps_eq h, runFor]
  | succ n ih =>
    have hlt : m.steps < max := by omega
    have hsame := step_of_steps_lt hlt limits ops
    rcases running_or_ended (m.step limits.endless ops) with ⟨m₁, hstep⟩ | ⟨e, hstep⟩
    · have hsteps := (executes_of_running hstep).2
      rw [runFor_succ_of_running (hsame.trans hstep), runFor_succ_of_running hstep]
      exact ih (by omega)
    · rw [runFor_succ_of_ended (hsame ▸ hstep), runFor_succ_of_ended hstep, hsame]
      cases hend : m.step limits.endless ops with
      | running m₁ => rw [hend] at hstep; cases hstep
      | halted m₁ => rfl
      | faulted f m₁ => rfl

theorem exceeded?_endless (limits : Limits) (m : Machine) :
    m.exceeded? limits.endless =
      if limits.maxStackSize < m.data.stack.depth then some (.stackLimit limits.maxStackSize)
      else none :=
  rfl

theorem step_ne_stepLimit (limits : Limits) (ops : Array Op) (m m' : Machine) (max : Nat) :
    m.step limits.endless ops ≠ .faulted (.stepLimit max) m' := by
  intro h
  rw [step] at h
  split at h
  · cases h
  · next op _ =>
    dsimp only at h
    split at h
    · next f hf =>
      cases h
      by_cases hfull : limits.maxStackSize < m.data.stack.depth
      · rw [exceeded?_endless, if_pos hfull] at hf
        cases hf
      · rw [exceeded?_endless, if_neg hfull] at hf
        cases hf
    · have hmoves := moves_exec limits.endless ops.size { m with steps := m.steps + 1 } op
      rw [h] at hmoves
      exact hmoves.2.2

theorem runFor_ne_stepLimit (limits : Limits) (ops : Array Op) (n : Nat) (m m' : Machine)
    (max : Nat) : m.runFor limits.endless ops n ≠ .faulted (.stepLimit max) m' := by
  induction n generalizing m with
  | zero => exact nofun
  | succ n ih =>
    rw [runFor]
    split
    · next m₁ _ => exact ih m₁
    · exact step_ne_stepLimit limits ops m m' max

end Machine

namespace Trace

variable {limits : Limits} {ops : Array Op} {start : Machine} {states : Array Machine} {n : Nat}

/-- These are the machines of a run after one op, after two ops, and so on, each with its next op
begun. -/
def Passes (limits : Limits) (ops : Array Op) (start : Machine) (states : List Machine) : Prop :=
  ∀ k s, states[k]? = some s →
    ∃ m, start.runFor limits.endless ops (k + 1) = .running m ∧ s = m.counted

/-- The trace follows the run without a limit on the steps: its states are those of that run, and if
there are not as many of them as there could be, the run ends right behind the last one as the trace
says. -/
structure Follows (limits : Limits) (ops : Array Op) (start : Machine) (count : Nat) (t : Trace) :
    Prop where
  states : Passes limits ops start t.states
  cut : t.ending = none → t.states.length = count
  ended : ∀ p, t.ending = some p → t.states.length < count ∧ p.ending?.isSome = true ∧
    start.runFor limits.endless ops (t.states.length + 2) = p

theorem Passes.push {s : Machine} (h : Passes limits ops start states.toList)
    (hs : ∃ m, start.runFor limits.endless ops (states.size + 1) = .running m ∧ s = m.counted) :
    Passes limits ops start (states.push s).toList := by
  intro k u hk
  rw [Array.getElem?_toList, Array.getElem?_push] at hk
  split at hk
  · next hlast =>
    cases hk
    exact hlast ▸ hs
  · exact h k u (by rw [Array.getElem?_toList]; exact hk)

theorem stoppedAfter_eq (hstart : start.steps = 0) (n : Nat) :
    stoppedAfter limits ops start n = (start.runFor limits.endless ops n).paused ops n := by
  rw [stoppedAfter]
  exact Machine.runFor_of_maxSteps (by omega) limits ops

theorem running_of_stopped {max : Nat} {s : Machine} (hstart : start.steps = 0)
    (h : stoppedAfter limits ops start n = .faulted (.stepLimit max) s) :
    ∃ m, start.runFor limits.endless ops n = .running m ∧ s = m.counted := by
  have hne := Machine.runFor_ne_stepLimit limits ops n start s max
  rw [stoppedAfter_eq hstart] at h
  generalize start.runFor limits.endless ops n = p at h hne
  cases p with
  | running m =>
    rw [Progress.paused] at h
    split at h
    · cases h
      exact ⟨m, rfl, rfl⟩
    · cases h
  | halted m => cases h
  | faulted f m => exact absurd h hne

theorem ended_of_not_stopped (hstart : start.steps = 0)
    (h : ∀ max s, stoppedAfter limits ops start n ≠ .faulted (.stepLimit max) s) :
    (stoppedAfter limits ops start n).ending?.isSome = true ∧
      start.runFor limits.endless ops (n + 1) = stoppedAfter limits ops start n := by
  rw [stoppedAfter_eq hstart] at h ⊢
  cases hrun : start.runFor limits.endless ops n with
  | running m =>
    rw [hrun, Progress.paused] at h
    rw [Progress.paused]
    cases hop : ops[m.address]? with
    | some op => exact absurd (by rw [hop]; rfl) (h n m.counted)
    | none =>
      rw [Machine.runFor_add_of_running hrun, Machine.runFor_one, Machine.step, hop]
      exact ⟨rfl, rfl⟩
  | halted m | faulted f m =>
    exact ⟨rfl, (Machine.runFor_add_of_ended (by rw [hrun]; rfl) 1).trans hrun⟩

theorem follows_extend (hstart : start.steps = 0) (count : Nat)
    (h : Passes limits ops start states.toList) (hsize : states.size = n) :
    Follows limits ops start (n + count) (extend limits ops start states n count) := by
  induction count generalizing states n with
  | zero => exact ⟨h, fun _ => hsize, nofun⟩
  | succ count ih =>
    rw [extend]
    split
    · next max s hstopped =>
      have hpassed := running_of_stopped hstart hstopped
      have hrest := ih (h.push (hsize ▸ hpassed)) (by rw [Array.size_push, hsize])
      rw [Nat.succ_add] at hrest
      exact hrest
    · next hne =>
      obtain ⟨hended, hrun⟩ := ended_of_not_stopped hstart hne
      refine ⟨h, nofun, ?_⟩
      rintro _ ⟨⟩
      rw [Array.length_toList, hsize]
      exact ⟨by omega, hended, hrun⟩

/-- Starting over under ever larger limits on the steps shows one and the same run. -/
theorem follows_ofRun (hstart : start.steps = 0) (limits : Limits) (ops : Array Op) (count : Nat) :
    Follows limits ops start count (ofRun limits ops start count) := by
  have hnone : Passes limits ops start (#[] : Array Machine).toList := nofun
  have hfollows : Follows limits ops start (0 + count) (ofRun limits ops start count) :=
    follows_extend hstart count hnone rfl
  rw [Nat.zero_add] at hfollows
  exact hfollows

end Trace

end Whitespace
