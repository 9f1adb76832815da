import Whitespace.Proofs.Confinement
import Whitespace.Proofs.Lockstep

/-!
What a run consumes. Only the ops that read take anything off the input, so what is left of it after
some steps of a run depends on how often they were executed and on nothing else that was done.
-/
namespace Whitespace

namespace Machine

variable {limits : Limits} {ops : Array Op} {op : Op} {m m' : Machine}

/-- How many of the first `n` steps of a run that goes on execute `op`. -/
def times (limits : Limits) (ops : Array Op) (op : Op) : Nat → Machine → Nat
  | 0, _ => 0
  | n + 1, m =>
    match m.step limits ops with
    | .running m' => (if ops[m.address]? = some op then 1 else 0) + times limits ops op n m'
    | _ => 0

theorem times_succ_of_running (h : m.step limits ops = .running m') (op : Op) (n : Nat) :
    m.times limits ops op (n + 1) =
      (if ops[m.address]? = some op then 1 else 0) + m'.times limits ops op n := by
  rw [times, h]

theorem times_add {n : Nat} (h : m.runFor limits ops n = .running m') (op : Op) (k : Nat) :
    m.times limits ops op (n + k) = m.times limits ops op n + m'.times limits ops op k := by
  induction n generalizing m with
  | zero =>
    cases h
    rw [times, Nat.zero_add, Nat.zero_add]
  | succ n ih =>
    rcases running_or_ended (m.step limits ops) with ⟨m₁, hstep⟩ | ⟨e, hstep⟩
    · rw [runFor_succ_of_running hstep] at h
      rw [Nat.succ_add, times_succ_of_running hstep, times_succ_of_running hstep, ih h,
        Nat.add_assoc]
    · rw [runFor_succ_of_ended hstep] at h
      rw [h] at hstep
      cases hstep

/-- The next step executes `op`, which finds `w` on top of the stack. -/
structure Ready (limits : Limits) (ops : Array Op) (op : Op) (w : Word) (rest : Stack Word)
    (m : Machine) : Prop where
  fetch : ops[m.address]? = some op
  within : { m with steps := m.steps + 1 }.exceeded? limits = none
  stack : m.data.stack = rest.push w

/-- Where the machine stands after a step that did this to the data. -/
def proceed (m : Machine) : DataStep → Progress
  | .done data => .running { m with data, address := m.address + 1, steps := m.steps + 1 }
  | .fault f data => .faulted f { m with data, steps := m.steps + 1 }

end Machine

/-- What becomes of the data when `value` has been read, which leaves `left` of the input, and is
stored at `address`; without a value, that the input had come to its end. -/
def Data.receive (d : Data) (address : Word) (rest : Stack Word) (value : Option Word)
    (left : List UInt8) : DataStep :=
  match value with
  | some v => .done ({ d with stack := rest, input := left }.set address v)
  | none => .fault .unexpectedEndOfInput { d with stack := rest }

namespace Machine

variable {limits : Limits} {ops : Array Op} {op : Op} {m m' : Machine}

/-- A run on this input, of code that reads with `op` alone, has come to read `k`, counted from zero,
and is about to store at `address`. -/
structure AtRead (op : Op) (input : List UInt8) (k : Nat) (limits : Limits) (ops : Array Op)
    (address : Word) (rest : Stack Word) (m : Machine) : Prop where
  only : ∀ o ∈ ops, o.reads = true → o = op
  run : ∃ (start : Machine) (n : Nat), start.data.input = input ∧
    start.runFor limits ops n = .running m ∧ start.times limits ops op n = k
  ready : m.Ready limits ops op address rest

/-- In every run on this input that reads with `op` alone, read `k` finds `left k` of the input,
stores `value k` and leaves `left (k + 1)`, or ends the run if there is no such value. -/
def Reads (op : Op) (input : List UInt8) (value : Nat → Option Word) (left : Nat → List UInt8) :
    Prop :=
  ∀ ⦃k : Nat⦄ ⦃limits : Limits⦄ ⦃ops : Array Op⦄ ⦃address : Word⦄ ⦃rest : Stack Word⦄
    ⦃m : Machine⦄, m.AtRead op input k limits ops address rest →
    m.data.input = left k ∧
      m.step limits ops = m.proceed (m.data.receive address rest (value k) (left (k + 1)))

/-- After a read that went on, and steps that do not read, the next read is at hand. -/
theorem AtRead.next {input : List UInt8} {k n : Nat} {address address' : Word}
    {rest rest' : Stack Word} {m₁ : Machine} (h : m.AtRead op input k limits ops address rest)
    (hstep : m.step limits ops = .running m₁) (hrun : m₁.runFor limits ops n = .running m')
    (hquiet : m₁.times limits ops op n = 0) (hready : m'.Ready limits ops op address' rest') :
    m'.AtRead op input (k + 1) limits ops address' rest' := by
  obtain ⟨start, j, hinput, hstart, rfl⟩ := h.run
  refine ⟨h.only, ⟨start, j + (n + 1), hinput, ?_, ?_⟩, hready⟩
  · rw [runFor_add_of_running hstart, runFor_succ_of_running hstep, hrun]
  · rw [times_add hstart, times_succ_of_running hstep, if_pos h.ready.fetch, hquiet]

end Machine

end Whitespace
