import Whitespace.Proofs.Confinement

/-!
Limits hold in every state of a run. An op puts at most one value more on the stack than it takes
off, and the stack is measured before each op, so it exceeds its limit by one value at most; calls
are counted before a return site is pushed. Compiled code halts only at a halt, before which the
stack was measured, so a run of it that goes well ends within the limit.
-/
namespace Whitespace

namespace Machine

variable {limits : Limits} {ops : Array Op} {m m' : Machine} {op : Op}

/-- However an op comes out, the stack has at most one value more. -/
theorem depth_exec_le (limits : Limits) (size : Nat) (m : Machine) (op : Op) :
    (m.exec limits size op).machine.data.stack.depth ≤ m.data.stack.depth + 1 := by
  have hobeys := obeys_exec limits size m op
  have hpushes := op.pushes_le
  generalize m.exec limits size op = p at hobeys
  rw [p.machine.data.stack.depth_eq, m.data.stack.depth_eq]
  cases p with
  | running m' =>
    have hlength := hobeys.1.length
    have hpops := hobeys.1.1
    simp only [Progress.machine]
    omega
  | halted m' =>
    have hlength := hobeys.length
    have hpops := hobeys.1
    simp only [Progress.machine]
    omega
  | faulted f m' =>
    simp only [Progress.machine, hobeys.left, List.length_drop]
    omega

theorem returns_goto (m : Machine) (size : Nat) (offset : Int32) :
    (m.goto size offset).machine.returns = m.returns := by
  rw [goto]
  split <;> rfl

theorem returns_branchIf (m : Machine) (size : Nat) (test : Word → Bool) (offset : Int32) :
    (m.branchIf size test offset).machine.returns = m.returns := by
  rw [branchIf]
  split
  · rfl
  · dsimp only
    split
    · exact returns_goto _ size offset
    · rfl

theorem returns_perform (m : Machine) (op : Op) : (m.perform op).machine.returns = m.returns := by
  rw [perform]
  split <;> rfl

/-- A return site is pushed only where there is room for it. -/
theorem depth_returns_exec_le (h : m.returns.depth ≤ limits.maxCallDepth) (size : Nat) (op : Op) :
    (m.exec limits size op).machine.returns.depth ≤ limits.maxCallDepth := by
  by_cases hdata : op.family ≠ .flow
  · rw [exec_of_data hdata, returns_perform]
    exact h
  · cases op with
    | jump offset => exact (returns_goto m size offset) ▸ h
    | jumpIfZero offset | jumpIfNegative offset => exact (returns_branchIf m size _ offset) ▸ h
    | pushReturn site =>
      change (m.pushReturn limits site).machine.returns.depth ≤ _
      rw [pushReturn]
      split
      · exact h
      · next hroom => exact Nat.lt_of_not_le hroom
    | dispatch table =>
      change (m.dispatch size table).machine.returns.depth ≤ _
      rw [dispatch]
      split
      · exact h
      · next site returns hpop =>
        have hpopped : returns.depth ≤ limits.maxCallDepth := by
          rw [Stack.pop?_eq_some_iff.mp hpop] at h
          exact Nat.le_of_succ_le h
        dsimp only
        split
        · exact hpopped
        · rw [returns_goto]
          exact hpopped
    | halt => exact h
    | _ => simp [Op.family] at hdata

/-- The stack exceeds its limit by one value at most, and the pending calls do not exceed theirs. -/
structure Bounded (limits : Limits) (m : Machine) : Prop where
  stack : m.data.stack.depth ≤ limits.maxStackSize + 1
  returns : m.returns.depth ≤ limits.maxCallDepth

theorem bounded_step (ops : Array Op) (h : m.Bounded limits) :
    (m.step limits ops).machine.Bounded limits := by
  rw [step]
  split
  · exact h
  · next op _ =>
    dsimp only
    split
    · exact ⟨h.stack, h.returns⟩
    · next hnone =>
      -- The stack is within its limit when the op is begun, so one value more is all there can be.
      have hmeasured := (exceeded?_eq_none_iff.mp hnone).2
      have hgrown := depth_exec_le limits ops.size { m with steps := m.steps + 1 } op
      exact ⟨Nat.le_trans hgrown (Nat.succ_le_succ hmeasured),
        depth_returns_exec_le (m := { m with steps := m.steps + 1 }) h.returns ops.size op⟩

theorem bounded_runFor (ops : Array Op) (n : Nat) (h : m.Bounded limits) :
    (m.runFor limits ops n).machine.Bounded limits := by
  induction n generalizing m with
  | zero => exact h
  | succ n ih =>
    have hstep := bounded_step ops h
    rw [runFor]
    split
    · next m' hrunning =>
      rw [hrunning] at hstep
      exact ih hstep
    · exact hstep

theorem bounded_fresh (limits : Limits) (input : List UInt8) (output : Output) :
    (fresh input output).Bounded limits :=
  ⟨Nat.zero_le _, Nat.zero_le _⟩

/-- A machine that halts at an op was measured before it. -/
theorem measured_of_halted_step (h : m.step limits ops = .halted m')
    (hop : ops[m'.address]? = some op) : m'.data.stack.depth ≤ limits.maxStackSize := by
  rw [step] at h
  split at h
  · next hnone =>
    cases h
    rw [hnone] at hop
    cases hop
  · next op' _ =>
    dsimp only at h
    split at h
    · cases h
    · next hnone =>
      have hmoves := moves_exec limits ops.size { m with steps := m.steps + 1 } op'
      rw [h] at hmoves
      rw [hmoves.1]
      exact (exceeded?_eq_none_iff.mp hnone).2

theorem measured_of_halted_run {n : Nat} (h : m.runFor limits ops n = .halted m')
    (hop : ops[m'.address]? = some op) : m'.data.stack.depth ≤ limits.maxStackSize := by
  induction n generalizing m with
  | zero => cases h
  | succ n ih =>
    rcases running_or_ended (m.step limits ops) with ⟨m₁, hstep⟩ | ⟨e, hstep⟩
    · rw [runFor_succ_of_running hstep] at h
      exact ih h
    · rw [runFor_succ_of_ended hstep] at h
      exact measured_of_halted_step h hop

/-- After any number of steps, and however the run has ended, the stack has at most one value more
than its limit and no more calls are pending than theirs. Compiled code that comes to a good end
leaves a stack within the limit. -/
theorem runs_stay_within_limits (limits : Limits) (input : List UInt8) (output : Output) :
    (∀ ops n, ((fresh input output).runFor limits ops n).machine.Bounded limits) ∧
    ∀ (p : Program) (code : Code), p.compile = .ok code → code.ops.size ≤ 2 ^ 31 - 1 →
      ∀ n m, (fresh input output).runFor limits code.ops n = .halted m →
        m.data.stack.depth ≤ limits.maxStackSize := by
  refine ⟨fun ops n => bounded_runFor ops n (bounded_fresh limits input output), ?_⟩
  intro p code hcompile hsize n m hrun
  have hc := compiled_of_compile hcompile
  have hconfined : ((fresh input output).runFor limits code.ops n).Confined _ code :=
    hc.confined_runFor (by omega) n nofun (hc.address_lt_size (Nat.zero_le _))
  rw [hrun] at hconfined
  exact measured_of_halted_run hrun hconfined.2

/-- Calls what comes next, which pushes two values and ends. -/
def twoPushed : Program where
  instructions := #[⟨.call, some [], 1⟩, ⟨.mark, some [], 1⟩, ⟨.push, some [.space, .tab], 1⟩,
    ⟨.push, some [.space, .tab], 1⟩, ⟨.halt, none, 1⟩]
  labels := ∅

def twoPushedCode : Code where
  ops := #[.pushReturn 0, .jump 1, .push 1, .push 1, .halt, .halt, .dispatch #[-4]]
  returnSites := 1
  dispatcher := some 6
  sourceInstructions := 5

/-- All bounds are reached: with room for two values the run ends with two, and with room for one
it is stopped with two. -/
theorem twoPushed_within_limits :
    twoPushed.compile = .ok twoPushedCode ∧ twoPushedCode.ops.size ≤ 2 ^ 31 - 1 ∧
      (∃ m, (fresh [] .unlimited).runFor ⟨none, 1, 2⟩ twoPushedCode.ops 5 = .halted m ∧
        m.data.stack.depth = 2 ∧ m.data.stack.depth ≤ 2) ∧
      ∃ m, (fresh [] .unlimited).runFor ⟨none, 1, 1⟩ twoPushedCode.ops 5 =
          .faulted (.stackLimit 1) m ∧
        m.data.stack.depth = 2 ∧ m.returns.depth = 1 ∧ m.Bounded ⟨none, 1, 1⟩ := by
  have hcompile : twoPushed.compile = .ok twoPushedCode := by cbv
  have hsize : twoPushedCode.ops.size ≤ 2 ^ 31 - 1 := by decide
  refine ⟨hcompile, hsize, ⟨_, rfl, by decide +kernel, ?_⟩,
    ⟨_, rfl, by decide +kernel, by decide +kernel, ?_⟩⟩
  · exact (runs_stay_within_limits ⟨none, 1, 2⟩ [] .unlimited).2 _ _ hcompile hsize 5 _ rfl
  · exact (runs_stay_within_limits ⟨none, 1, 1⟩ [] .unlimited).1 twoPushedCode.ops 5

end Machine

end Whitespace
