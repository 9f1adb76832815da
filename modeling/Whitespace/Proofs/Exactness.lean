import Whitespace.Proofs.Limits

/-!
The table of effects and the machine agree on every op and every way it can come out. An op that
faults has at most taken its operands off the stack; unless it is the input or the output that
failed, nothing is stored or written.
-/
namespace Whitespace

/-- Whether the fault is that of the input or of the output. -/
def Fault.isIo : Fault → Bool
  | .inputNotText | .outputFull => true
  | _ => false

/-- A fault leaves the heap alone, and the output too unless it is full. -/
def DataStep.Spares (d : Data) : DataStep → Prop
  | .done _ => True
  | .fault f d' => d'.heap = d.heap ∧ (f ≠ .outputFull → d'.output = d.output)

theorem Data.Outcome.spares {effect : Effect} {reads : Bool} {d : Data} {s : DataStep}
    (h : Outcome effect reads d s) : s.Spares d := by
  cases h with
  | done | stored | wrote => trivial
  | overfull => exact ⟨rfl, fun hf => absurd rfl hf⟩
  | failed => exact ⟨rfl, fun _ => rfl⟩

namespace Machine

variable {limits : Limits} {ops : Array Op} {op : Op} {m m' : Machine} {f : Fault}

theorem spares_of_faulted_exec {size : Nat} (h : m.exec limits size op = .faulted f m') :
    m'.data.heap = m.data.heap ∧ (f ≠ .outputFull → m'.data.output = m.data.output) := by
  by_cases hflow : op.family = .flow
  · have hmoves := moves_exec limits size m op
    rw [h] at hmoves
    obtain ⟨stack, hdata⟩ := hmoves.1.data hflow
    rw [hdata]
    exact ⟨rfl, fun _ => rfl⟩
  · have hspares := (m.data.outcome_apply hflow).spares
    rw [exec_of_data hflow, perform] at h
    split at h
    · cases h
    · next hfault =>
      cases h
      rw [hfault] at hspares
      exact hspares

/-- What executing `op` on `m` came to is what its effect says: it underflows exactly if it finds
fewer values than it takes; if it succeeds, below these values nothing changes; if it faults other
than for input or output, it stores and writes nothing and has at most taken its values. -/
structure Exact (op : Op) (m : Machine) (p : Progress) : Prop where
  underflow : (∃ m', p = .faulted .stackUnderflow m') ↔ m.data.stack.depth < op.effect.pops
  success : ∀ m', p = .running m' ∨ p = .halted m' →
    (∃ top : List Word, top.length = op.effect.pushes ∧
      m'.data.stack.items = top ++ m.data.stack.items.drop op.effect.pops) ∧
    (m'.data.stack.depth : Int) - m.data.stack.depth = op.effect.pushes - op.effect.pops
  fault : ∀ f m', p = .faulted f m' → f.isIo = false →
    m'.data.heap = m.data.heap ∧ m'.data.output = m.data.output ∧
      m'.data.stack.items <:+ m.data.stack.items ∧
      m.data.stack.depth - m'.data.stack.depth ≤ op.effect.pops

theorem relates_of_obeys {p : Progress} (hobeys : p.Obeys op m)
    (h : p = .running m' ∨ p = .halted m') :
    op.effect.Relates m.data.stack.items m'.data.stack.items := by
  rcases h with rfl | rfl
  · exact hobeys.1
  · exact hobeys

theorem underflow_iff_of_obeys {p : Progress} (hobeys : p.Obeys op m) :
    (∃ m', p = .faulted .stackUnderflow m') ↔ m.data.stack.depth < op.effect.pops := by
  rw [m.data.stack.depth_eq]
  constructor
  · rintro ⟨m', rfl⟩
    exact hobeys.underflow.mp rfl
  · intro hshort
    cases p with
    | running m' => exact absurd hobeys.1.1 (Nat.not_le.mpr hshort)
    | halted m' => exact absurd hobeys.1 (Nat.not_le.mpr hshort)
    | faulted f m' =>
      obtain rfl := hobeys.underflow.mpr hshort
      exact ⟨m', rfl⟩

theorem exact_exec (limits : Limits) (size : Nat) (m : Machine) (op : Op) :
    Exact op m (m.exec limits size op) := by
  have hobeys := obeys_exec limits size m op
  refine ⟨underflow_iff_of_obeys hobeys, ?_, ?_⟩
  · intro m' hm'
    have hrelates := relates_of_obeys hobeys hm'
    have hlength := hrelates.length
    have hpops := hrelates.1
    refine ⟨hrelates.2, ?_⟩
    rw [m.data.stack.depth_eq, m'.data.stack.depth_eq]
    omega
  · intro f m' hfault hio
    obtain ⟨hheap, houtput⟩ := spares_of_faulted_exec hfault
    rw [hfault] at hobeys
    have hleft : m'.data.stack.items = m.data.stack.items.drop op.effect.pops := hobeys.left
    refine ⟨hheap, houtput ?_, hleft ▸ List.drop_suffix _ _, ?_⟩
    · rintro rfl
      cases hio
    · rw [m.data.stack.depth_eq, m'.data.stack.depth_eq, hleft, List.length_drop]
      omega

/-- Whatever the state of the machine and its input, once the limits have been looked at an op does
what its effect says and nothing else. -/
theorem effects_are_exact (hop : ops[m.address]? = some op)
    (hlimits : { m with steps := m.steps + 1 }.exceeded? limits = none) :
    Exact op m (m.step limits ops) := by
  rw [step_eq_exec hop hlimits]
  obtain ⟨hunderflow, hsuccess, hfault⟩ :=
    exact_exec limits ops.size { m with steps := m.steps + 1 } op
  exact ⟨hunderflow, hsuccess, hfault⟩

/-- Three values on the stack, with a zero on top. -/
def zeroDivisor : Machine :=
  ⟨⟨((Stack.empty.push 9).push 5).push 0, ∅, [], .unlimited⟩, .empty, 0, 0⟩

theorem zeroDivisor_exact :
    #[Op.div][zeroDivisor.address]? = some .div ∧
      { zeroDivisor with steps := zeroDivisor.steps + 1 }.exceeded? .standard = none ∧
      (∃ m', zeroDivisor.step .standard #[.div] = .faulted .divisionByZero m' ∧
        m'.data.stack.items = [9]) ∧
      Exact .div zeroDivisor (zeroDivisor.step .standard #[.div]) := by
  have hlimits : { zeroDivisor with steps := zeroDivisor.steps + 1 }.exceeded? .standard = none := by
    decide +kernel
  exact ⟨rfl, hlimits, ⟨_, rfl, rfl⟩, effects_are_exact rfl hlimits⟩

end Machine

end Whitespace
