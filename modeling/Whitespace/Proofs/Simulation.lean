import Whitespace.Proofs.Compilation

/-!
Compiled code does what the program means. A machine simulates an interpreter when it stands at the
address of the interpreter's instruction, with the same data and, for each pending call, the number
of the return site at which the interpreter will go on. One step of the interpreter is then matched
by a few steps of the machine, and by none at a mark, of which no run has endlessly many in a row.
-/
namespace Whitespace

open Layout
open Instruction (markIndex?)

/-- What an instruction that has its literal can be. -/
inductive Instruction.Form (i : Instruction) : Prop where
  | plain {op : Op} (hop : i.op? = some op)
  | mark (hop : i.opcode = .mark)
  | branch {kind : BranchKind} {label : BitString} (hop : i.opcode.branchKind? = some kind)
      (hparam : i.param = some label)
  | call {label : BitString} (hop : i.opcode = .call) (hparam : i.param = some label)
  | ret (hop : i.opcode = .ret)

theorem Instruction.Complete.form {i : Instruction} (h : i.Complete) : i.Form := by
  unfold Complete at h
  cases hop : i.opcode with
  | push =>
    rw [hop] at h
    obtain ⟨bits, n, hparam, hnumber⟩ := h
    have hpush : i.op? = some (.push n) := by simp [op?, hop, hparam, hnumber, Except.toOption]
    exact .plain hpush
  | mark => exact .mark hop
  | call =>
    rw [hop] at h
    obtain ⟨label, hparam⟩ := h
    exact .call hop hparam
  | jump | jumpIfZero | jumpIfNegative =>
    rw [hop] at h
    obtain ⟨label, hparam⟩ := h
    exact .branch (by rw [hop]; rfl) hparam
  | ret => exact .ret hop
  | _ => exact .plain (by rw [op?, hop])

theorem toInt_relative {a b : Nat} (ha : a < 2 ^ 31) (hb : b < 2 ^ 31) :
    (Lowering.relative a b).toInt = (b : Int) - a := by
  rw [Lowering.relative, Int32.toInt_sub, Int32.toInt_ofNat_of_lt ha, Int32.toInt_ofNat_of_lt hb]
  apply Int.bmod_eq_of_le <;> omega

namespace Machine

variable {limits : Limits} {ops : Array Op} {m : Machine}

theorem goto_relative {size b : Nat} (hm : m.address ≤ size) (hb : b ≤ size)
    (hsize : size < 2 ^ 31) :
    m.goto size (Lowering.relative m.address b) = .running { m with address := b } := by
  have htarget : Op.target m.address (Lowering.relative m.address b) = b := by
    rw [Op.target, toInt_relative (by omega) (by omega)]
    omega
  have hrange : (0 : Int) ≤ b ∧ (b : Int) ≤ size := by omega
  simp [goto, htarget, hrange]

theorem step_of_op {op : Op} (hsteps : limits.maxSteps = none)
    (hop : ops[m.address]? = some op) (hdepth : m.data.stack.depth ≤ limits.maxStackSize) :
    m.step limits ops = exec limits ops.size { m with steps := m.steps + 1 } op := by
  have hok : ¬ limits.maxStackSize < m.data.stack.depth := Nat.not_lt.mpr hdepth
  simp [step, hop, exceeded?, hsteps, hok]

theorem step_of_full {op : Op} (hsteps : limits.maxSteps = none)
    (hop : ops[m.address]? = some op) (hdepth : limits.maxStackSize < m.data.stack.depth) :
    m.step limits ops =
      .faulted (.stackLimit limits.maxStackSize) { m with steps := m.steps + 1 } := by
  simp [step, hop, exceeded?, hsteps, hdepth]

theorem exec_of_op? {i : Instruction} {op : Op} (h : i.op? = some op) (limits : Limits)
    (size : Nat) (m : Machine) :
    exec limits size m op = if i.opcode = .halt then .halted m else m.perform op := by
  cases hop : i.opcode with
  | push =>
    simp only [Instruction.op?, hop, Option.bind_eq_some_iff, Option.map_eq_some_iff] at h
    obtain ⟨bits, _, n, _, rfl⟩ := h
    rfl
  | mark | call | jump | jumpIfZero | jumpIfNegative | ret => simp [Instruction.op?, hop] at h
  | _ =>
    simp only [Instruction.op?, hop, Option.some.injEq] at h
    subst h
    rfl

end Machine

namespace Interpreter

theorem exec_of_op? {i : Instruction} {op : Op} (h : i.op? = some op) (limits : Limits)
    (is : List Instruction) (s : Interpreter) :
    s.exec limits is i = if i.opcode = .halt then .halted s else s.perform op := by
  cases hop : i.opcode with
  | mark | call | jump | jumpIfZero | jumpIfNegative | ret => simp [Instruction.op?, hop] at h
  | _ => simp [exec, hop, h]

end Interpreter

/-- Stacks that agree entry by entry are popped alike. -/
theorem Stack.pop?_of_forall₂ {α β : Type} {R : α → β → Prop} {s : Stack α} {t : Stack β}
    (h : List.Forall₂ R s.items t.items) :
    s.pop? = none ∧ t.pop? = none ∨
      ∃ a b s' t', s.pop? = some (a, s') ∧ t.pop? = some (b, t') ∧ R a b ∧
        List.Forall₂ R s'.items t'.items := by
  obtain ⟨as, depth, hs⟩ := s
  obtain ⟨bs, depth', ht⟩ := t
  cases h with
  | nil => exact .inl ⟨rfl, rfl⟩
  | cons hab hrest => exact .inr ⟨_, _, _, _, rfl, rfl, hab, hrest⟩

/-- The machine has the data of the interpreter, and its return sites are those of the same
calls. -/
structure Agrees (is : List Instruction) (s : Interpreter) (m : Machine) : Prop where
  data : m.data = s.data
  returns : List.Forall₂ (fun site n => (returnIndices is)[site.toNat]? = some n)
    m.returns.items s.returns.items

/-- Besides, the machine stands where the interpreter does. -/
structure Simulates (is : List Instruction) (s : Interpreter) (m : Machine) : Prop
    extends Agrees is s m where
  index : s.index ≤ is.length
  address : m.address = address is s.index

/-- The two come to the same result. -/
inductive Matches (is : List Instruction) : Interpreter.Outcome → Progress → Prop where
  | running {s : Interpreter} {m : Machine} (h : Simulates is s m) :
      Matches is (.running s) (.running m)
  | halted {s : Interpreter} {m : Machine} (hdata : m.data = s.data)
      (hpending : m.returns.depth = s.returns.depth) : Matches is (.halted s) (.halted m)
  | faulted {s : Interpreter} {m : Machine} (f : Fault) (hdata : m.data = s.data)
      (hpending : m.returns.depth = s.returns.depth) : Matches is (.faulted f s) (.faulted f m)

theorem Agrees.pending {is : List Instruction} {s : Interpreter} {m : Machine}
    (h : Agrees is s m) : m.returns.depth = s.returns.depth := by
  rw [m.returns.depth_eq, s.returns.depth_eq, h.returns.length_eq]

namespace Simulates

variable {is : List Instruction} {s : Interpreter} {m : Machine}

/-- The number of steps plays no part. -/
theorem tick (h : Simulates is s m) (n : Nat) : Simulates is s { m with steps := n } :=
  ⟨⟨h.data, h.returns⟩, h.index, h.address⟩

theorem withData (h : Simulates is s m) (data : Data) :
    Simulates is { s with data } { m with data } := ⟨⟨rfl, h.returns⟩, h.index, h.address⟩

theorem next (h : Simulates is s m) {i : Instruction} (hi : is[s.index]? = some i)
    (hwidth : i.opcode.width = 1) : Simulates is s.next m.next := by
  refine ⟨⟨h.data, h.returns⟩, (List.getElem?_eq_some_iff.mp hi).1, ?_⟩
  change m.address + 1 = Layout.address is (s.index + 1)
  rw [address_succ hi, hwidth, h.address]

theorem mark (h : Simulates is s m) {i : Instruction} (hi : is[s.index]? = some i)
    (hop : i.opcode = .mark) : Simulates is s.next m := by
  refine ⟨⟨h.data, h.returns⟩, (List.getElem?_eq_some_iff.mp hi).1, ?_⟩
  change m.address = Layout.address is (s.index + 1)
  rw [address_succ hi, hop, h.address]
  rfl

theorem perform (h : Simulates is s m) {i : Instruction} (hi : is[s.index]? = some i)
    (hwidth : i.opcode.width = 1) (op : Op) : Matches is (s.perform op) (m.perform op) := by
  unfold Interpreter.perform Machine.perform
  rw [h.data]
  cases s.data.apply op with
  | done data => exact .running ((h.withData data).next hi hwidth)
  | fault f data => exact .faulted f rfl h.pending

end Simulates

namespace Compiled

variable {is : List Instruction} {code : Code} {limits : Limits} {s : Interpreter} {m : Machine}

/-- What the machine finds for the instruction at which the interpreter stands. -/
theorem fetch (hc : Compiled is code) (h : Simulates is s m) {i : Instruction} {j : Nat} {d : Draft}
    (hi : is[s.index]? = some i) (hd : (draft (calls (is.take s.index)) i)[j]? = some d) :
    code.ops[m.address + j]? = some (d.resolve is (m.address + j)) := by
  rw [h.address]
  exact hc.op_at hi hd

theorem goto (hc : Compiled is code) (hsize : code.ops.size < 2 ^ 31) (h : Agrees is s m)
    (hm : m.address ≤ code.ops.size) {l : BitString} {n : Nat} (hn : markIndex? is l = some n) :
    Matches is (s.goto is (some l))
      (m.goto code.ops.size (Lowering.relative m.address (lands is (.label l)))) := by
  have hlands : lands is (.label l) = address is n := by simp [lands, place?, hn]
  have hle := Nat.le_of_lt (markIndex?_lt hn)
  rw [hlands, Machine.goto_relative hm (Nat.le_of_lt (hc.address_lt_size hle)) hsize]
  simp only [Interpreter.goto, Option.bind_some, hn]
  exact .running ⟨⟨h.data, h.returns⟩, hle, rfl⟩

theorem branchIf (hc : Compiled is code) (hsize : code.ops.size < 2 ^ 31) (h : Simulates is s m)
    {i : Instruction} (hi : is[s.index]? = some i) (hwidth : i.opcode.width = 1) {l : BitString}
    {n : Nat} (hn : markIndex? is l = some n) (test : Word → Bool) :
    Matches is (s.branchIf is test (some l))
      (m.branchIf code.ops.size test (Lowering.relative m.address (lands is (.label l)))) := by
  have hm : m.address ≤ code.ops.size := by
    rw [h.address]
    exact Nat.le_of_lt (hc.address_lt_size h.index)
  unfold Interpreter.branchIf Machine.branchIf
  rw [h.data]
  cases s.data.stack.pop? with
  | none => exact .faulted .stackUnderflow h.data h.pending
  | some popped =>
    obtain ⟨w, stack⟩ := popped
    have hpopped := h.withData { s.data with stack }
    cases htest : test w with
    | true => simpa only [htest, if_true] using hc.goto hsize hpopped.toAgrees hm hn
    | false => simpa [htest] using Matches.running (hpopped.next hi hwidth)

/-- The dispatcher leads to the instruction at which the interpreter goes on. -/
theorem dispatch (hc : Compiled is code) (hsize : code.ops.size < 2 ^ 31) (h : Agrees is s m)
    (hm : m.address = dispatcherAddress is) :
    Matches is s.ret (m.dispatch code.ops.size (table is).toArray) := by
  have hbound : dispatcherAddress is ≤ code.ops.size := by rw [hc.size_ops]; omega
  unfold Interpreter.ret Machine.dispatch
  rcases Stack.pop?_of_forall₂ h.returns with
    ⟨hm', hs'⟩ | ⟨site, n, rs, ns, hm', hs', hsite, hrest⟩
  · rw [hm', hs']
    exact .faulted .returnStackUnderflow h.data h.pending
  · have hle := le_of_mem_returnIndices (List.mem_of_getElem? hsite)
    have hentry : (table is).toArray[site.toNat]? =
        some (Lowering.relative m.address (address is n)) := by
      rw [List.getElem?_toArray, table, List.getElem?_map, hsite, hm]
      rfl
    have hgoto := Machine.goto_relative (m := { m with returns := rs }) (hm ▸ hbound)
      (Nat.le_of_lt (hc.address_lt_size hle)) hsize
    simp only [hm', hs', hentry, hgoto]
    exact .running ⟨⟨h.data, hrest⟩, hle, rfl⟩

theorem calls_lt_size (hc : Compiled is code) : calls is < code.ops.size :=
  Nat.lt_of_le_of_lt (calls_le_address is) (hc.address_lt_size (Nat.le_refl is.length))

/-- There are too few calls for their numbers to wrap around. -/
theorem toNat_calls_take (hc : Compiled is code) (hsize : code.ops.size < 2 ^ 31) (n : Nat) :
    (calls (is.take n)).toUInt32.toNat = calls (is.take n) := by
  have hle := calls_take_le is n
  have hlt := hc.calls_lt_size
  simpa using Nat.mod_eq_of_lt (by omega : calls (is.take n) < 2 ^ 32)

theorem site_of_call (hc : Compiled is code) (hsize : code.ops.size < 2 ^ 31) {n : Nat}
    {i : Instruction} (hi : is[n]? = some i) (hop : i.opcode = .call) :
    (returnIndices is)[(calls (is.take n)).toUInt32.toNat]? = some (n + 1) := by
  rw [hc.toNat_calls_take hsize]
  exact returnIndices_of_call hi (by simp [Instruction.isCall, hop])

section Steps

variable (hc : Compiled is code) (hsize : code.ops.size < 2 ^ 31) (hsteps : limits.maxSteps = none)
include hc hsize hsteps

theorem jump (h : Agrees is s m) {l : BitString} {n : Nat} (hn : markIndex? is l = some n)
    (hjump : code.ops[m.address]? =
      some (.jump (Lowering.relative m.address (lands is (.label l)))))
    (hdepth : m.data.stack.depth ≤ limits.maxStackSize) :
    Matches is (s.goto is (some l)) (m.runFor limits code.ops 1) := by
  have hm := Nat.le_of_lt (Array.getElem?_eq_some_iff.mp hjump).1
  have htick : Agrees is s { m with steps := m.steps + 1 } := ⟨h.data, h.returns⟩
  rw [Machine.runFor_one, Machine.step_of_op hsteps hjump hdepth]
  exact hc.goto hsize htick hm hn

theorem call (h : Simulates is s m) {i : Instruction} (hi : is[s.index]? = some i)
    (hop : i.opcode = .call) {l : BitString} (hparam : i.param = some l)
    (hdepth : m.data.stack.depth ≤ limits.maxStackSize) :
    ∃ k, Matches is (s.call limits is (some l)) (m.runFor limits code.ops (k + 1)) := by
  let site := (calls (is.take s.index)).toUInt32
  have hdraft : draft (calls (is.take s.index)) i =
      [.op (.pushReturn site), .branch .always (.label l)] := by
    simp [draft, hop, Instruction.label, hparam, site]
  have hpush := hc.fetch (j := 0) h hi (by rw [hdraft]; rfl)
  have hjump := hc.fetch (j := 1) h hi (by rw [hdraft]; rfl)
  have hmem : .branch .always (.label l) ∈ draft (calls (is.take s.index)) i := by simp [hdraft]
  obtain ⟨n, hn⟩ := hc.mark_of_branch hi hmem
  have hstep : m.step limits code.ops =
      Machine.pushReturn { m with steps := m.steps + 1 } limits site :=
    Machine.step_of_op hsteps hpush hdepth
  unfold Interpreter.call
  by_cases hfull : limits.maxCallDepth ≤ s.returns.depth
  · have hfull' : limits.maxCallDepth ≤ m.returns.depth := by rw [h.pending]; exact hfull
    refine ⟨0, ?_⟩
    rw [Machine.runFor_one, hstep, Machine.pushReturn, if_pos hfull', if_pos hfull]
    exact .faulted _ h.data h.pending
  · have hfull' : ¬ limits.maxCallDepth ≤ m.returns.depth := by rw [h.pending]; exact hfull
    let called : Machine :=
      { m with returns := m.returns.push site, address := m.address + 1, steps := m.steps + 1 }
    have hcalled : m.step limits code.ops = .running called := by
      rw [hstep, Machine.pushReturn, if_neg hfull']
      rfl
    have hagrees : Agrees is { s with returns := s.returns.push (s.index + 1) } called :=
      ⟨h.data, .cons (hc.site_of_call hsize hi hop) h.returns⟩
    refine ⟨1, ?_⟩
    rw [Machine.runFor_succ_of_running hcalled, if_neg hfull]
    exact hc.jump hsize hsteps hagrees hn hjump hdepth

theorem ret (h : Simulates is s m) {i : Instruction} (hi : is[s.index]? = some i)
    (hop : i.opcode = .ret) (hdepth : m.data.stack.depth ≤ limits.maxStackSize) :
    ∃ k, Matches is s.ret (m.runFor limits code.ops (k + 1)) := by
  have hdispatches : dispatches is = true := by
    rw [dispatches, List.any_eq_true]
    exact ⟨i, List.mem_of_getElem? hi, by simp [hop]⟩
  have hjump := hc.fetch (j := 0) (d := .branch .always .dispatcher) h hi (by simp [draft, hop])
  have hbound : dispatcherAddress is ≤ code.ops.size := by rw [hc.size_ops]; omega
  have hstep : m.step limits code.ops =
      .running { m with steps := m.steps + 1, address := dispatcherAddress is } := by
    rw [Machine.step_of_op hsteps hjump hdepth]
    exact Machine.goto_relative (m := { m with steps := m.steps + 1 })
      (Nat.le_of_lt (Array.getElem?_eq_some_iff.mp hjump).1) hbound hsize
  refine ⟨1, ?_⟩
  rw [Machine.runFor_succ_of_running hstep, Machine.runFor_one, Machine.step_of_op
    (m := { m with steps := m.steps + 1, address := dispatcherAddress is }) hsteps
    (hc.dispatch_at hdispatches) hdepth]
  exact hc.dispatch hsize ⟨h.data, h.returns⟩ rfl

omit hsize in
theorem plain (h : Simulates is s m) {i : Instruction} (hi : is[s.index]? = some i) {op : Op}
    (hop : i.op? = some op) (hdepth : m.data.stack.depth ≤ limits.maxStackSize) :
    Matches is (s.exec limits is i) (m.runFor limits code.ops 1) := by
  have hfetch := hc.fetch (j := 0) (d := .op op) h hi (by rw [draft_of_op? hop]; rfl)
  rw [Machine.runFor_one, Machine.step_of_op hsteps hfetch hdepth, Draft.resolve,
    Machine.exec_of_op? hop, Interpreter.exec_of_op? hop]
  split
  · exact .halted h.data h.pending
  · exact (h.tick (m.steps + 1)).perform hi (Instruction.width_of_op? hop) op

theorem branch (h : Simulates is s m) {i : Instruction} (hi : is[s.index]? = some i)
    {kind : BranchKind} {l : BitString} (hop : i.opcode.branchKind? = some kind)
    (hparam : i.param = some l) (hdepth : m.data.stack.depth ≤ limits.maxStackSize) :
    Matches is (s.exec limits is i) (m.runFor limits code.ops 1) := by
  have hlabel : i.label = l := by simp [Instruction.label, hparam]
  have hdraft := draft_of_branchKind? hop (calls (is.take s.index))
  rw [hlabel] at hdraft
  have hmem : .branch kind (.label l) ∈ draft (calls (is.take s.index)) i := by simp [hdraft]
  have hfetch := hc.fetch (j := 0) h hi (by rw [hdraft]; rfl)
  obtain ⟨n, hn⟩ := hc.mark_of_branch hi hmem
  cases hcode : i.opcode with
  | jump =>
    rw [hcode] at hop
    cases hop
    rw [Interpreter.exec, hcode, hparam]
    exact hc.jump hsize hsteps h.toAgrees hn hfetch hdepth
  | jumpIfZero | jumpIfNegative =>
    rw [hcode] at hop
    cases hop
    rw [Machine.runFor_one, Machine.step_of_op hsteps hfetch hdepth, Interpreter.exec, hcode,
      hparam]
    exact hc.branchIf hsize (h.tick (m.steps + 1)) hi (by rw [hcode]; rfl) hn _
  | _ => rw [hcode] at hop; cases hop

/-- What an instruction that is no mark does, the machine does in one step or two. -/
theorem exec (h : Simulates is s m) {i : Instruction} (hi : is[s.index]? = some i)
    (hmark : i.opcode ≠ .mark) (hdepth : m.data.stack.depth ≤ limits.maxStackSize) :
    ∃ k, Matches is (s.exec limits is i) (m.runFor limits code.ops (k + 1)) := by
  cases (hc.complete i (List.mem_of_getElem? hi)).form with
  | plain hop => exact ⟨0, hc.plain hsteps h hi hop hdepth⟩
  | mark hop => exact absurd hop hmark
  | branch hop hparam => exact ⟨0, hc.branch hsize hsteps h hi hop hparam hdepth⟩
  | @call l hop hparam =>
    have hexec : s.exec limits is i = s.call limits is (some l) := by
      simp [Interpreter.exec, hop, hparam]
    rw [hexec]
    exact hc.call hsize hsteps h hi hop hparam hdepth
  | ret hop =>
    have hexec : s.exec limits is i = s.ret := by simp [Interpreter.exec, hop]
    rw [hexec]
    exact hc.ret hsize hsteps h hi hop hdepth

omit hc hsize in
/-- Both see a stack that is too large before they do anything. -/
theorem full (h : Simulates is s m) {op : Op} (hop : code.ops[m.address]? = some op)
    (hfull : limits.maxStackSize < s.data.stack.depth) :
    Matches is (.faulted (.stackLimit limits.maxStackSize) s) (m.runFor limits code.ops 1) := by
  rw [Machine.runFor_one, Machine.step_of_full hsteps hop (by rw [h.data]; exact hfull)]
  exact .faulted _ h.data h.pending

omit hsize in
theorem finish (h : Simulates is s m) (hend : is[s.index]? = none) :
    Matches is (s.step limits is) (m.runFor limits code.ops 1) := by
  have hindex : s.index = is.length :=
    Nat.le_antisymm h.index (List.getElem?_eq_none_iff.mp hend)
  have hhalt := hc.halt_at_end
  rw [← hindex, ← h.address] at hhalt
  simp only [Interpreter.step, hend]
  split
  · next hfull => exact full hsteps h hhalt hfull
  · next hfull =>
    have hdepth : m.data.stack.depth ≤ limits.maxStackSize := by
      rw [h.data]
      exact Nat.le_of_not_lt hfull
    rw [Machine.runFor_one, Machine.step_of_op hsteps hhalt hdepth]
    exact .halted h.data h.pending

/-- One step of the interpreter is over a mark, or the machine matches it in at least one step. -/
theorem step (h : Simulates is s m) :
    s.step limits is = .running s.next ∧ s.index < is.length ∧ Simulates is s.next m ∨
      ∃ k, Matches is (s.step limits is) (m.runFor limits code.ops (k + 1)) := by
  cases hi : is[s.index]? with
  | none => exact .inr ⟨0, hc.finish hsteps h hi⟩
  | some i =>
    by_cases hmark : i.opcode = .mark
    · refine .inl ⟨?_, (List.getElem?_eq_some_iff.mp hi).1, h.mark hi hmark⟩
      simp only [Interpreter.step, hi, if_pos hmark]
    · refine .inr ?_
      simp only [Interpreter.step, hi, if_neg hmark]
      split
      · next hfull =>
        have hlt := hc.address_lt_size h.index
        rw [← h.address] at hlt
        exact ⟨0, full hsteps h (Array.getElem?_eq_getElem hlt) hfull⟩
      · next hfull =>
        have hdepth : m.data.stack.depth ≤ limits.maxStackSize := by
          rw [h.data]
          exact Nat.le_of_not_lt hfull
        exact hc.exec hsize hsteps h hi hmark hdepth

end Steps

end Compiled

theorem Matches.running_or_ended {is : List Instruction} {o : Interpreter.Outcome} {p : Progress}
    (h : Matches is o p) :
    (∃ s m, o = .running s ∧ p = .running m ∧ Simulates is s m) ∨
      ∃ e, o.ending? = some e ∧ p.ending? = some e := by
  cases h with
  | running h => exact .inl ⟨_, _, rfl, rfl, h⟩
  | halted hdata hpending =>
    exact .inr ⟨_, rfl, by rw [Progress.ending?, hdata, hpending]⟩
  | faulted f hdata hpending =>
    exact .inr ⟨_, rfl, by rw [Progress.ending?, hdata, hpending]⟩

namespace Compiled

variable {is : List Instruction} {code : Code} {limits : Limits} {s : Interpreter} {m : Machine}
  {e : Ending} (hc : Compiled is code) (hsize : code.ops.size < 2 ^ 31)
  (hsteps : limits.maxSteps = none)
include hc hsize hsteps

/-- Over marks the interpreter comes to an instruction that the machine takes steps for. -/
theorem skip_marks (h : Simulates is s m) :
    ∃ s', (∀ e, Interpreter.Ends limits is s' e → Interpreter.Ends limits is s e) ∧
      ∃ k, Matches is (s'.step limits is) (m.runFor limits code.ops (k + 1)) := by
  generalize hleft : is.length - s.index = left
  induction left generalizing s with
  | zero =>
    rcases hc.step hsize hsteps h with ⟨_, hlt, _⟩ | hmatch
    · omega
    · exact ⟨s, fun _ he => he, hmatch⟩
  | succ left ih =>
    rcases hc.step hsize hsteps h with ⟨hmark, _, hnext⟩ | hmatch
    · have hleft' : is.length - (s.index + 1) = left := by omega
      obtain ⟨s', hends, hmatch⟩ := ih hnext hleft'
      exact ⟨s', fun e he => .of_running hmark (hends e he), hmatch⟩
    · exact ⟨s, fun _ he => he, hmatch⟩

theorem machine_ends (h : Simulates is s m) (hends : Interpreter.Ends limits is s e) :
    Machine.Ends limits code.ops m e := by
  obtain ⟨n, hn⟩ := hends
  induction n generalizing s m with
  | zero => cases hn
  | succ n ih =>
    rcases hc.step hsize hsteps h with ⟨hmark, _, hnext⟩ | ⟨k, hmatch⟩
    · rw [Interpreter.runFor_succ_of_running hmark] at hn
      exact ih hnext hn
    · rcases hmatch.running_or_ended with ⟨s', m', hs, hm, h'⟩ | ⟨e', hs, hm⟩
      · rw [Interpreter.runFor_succ_of_running hs] at hn
        exact (Machine.ends_iff_of_running hm).mpr (ih h' hn)
      · rw [Interpreter.runFor_succ_of_ended hs, hs] at hn
        exact ⟨k + 1, hm.trans hn⟩

theorem interpreter_ends (h : Simulates is s m) (hends : Machine.Ends limits code.ops m e) :
    Interpreter.Ends limits is s e := by
  obtain ⟨n, hn⟩ := hends
  -- Between two instructions that are no marks the machine takes a step, so its steps run out.
  induction n using Nat.strongRecOn generalizing s m with
  | ind n ih =>
    obtain ⟨s₁, hskip, k, hmatch⟩ := hc.skip_marks hsize hsteps h
    apply hskip
    rcases hmatch.running_or_ended with ⟨s', m', hs, hm, h'⟩ | ⟨e', hs, hm⟩
    · have hlt : k + 1 < n := by
        by_contra hle
        obtain ⟨j, hj⟩ := Nat.exists_eq_add_of_le (Nat.le_of_not_lt hle)
        rw [hj, Machine.runFor_add_of_ended hn] at hm
        rw [hm] at hn
        cases hn
      obtain ⟨j, rfl⟩ := Nat.exists_eq_add_of_lt hlt
      rw [Nat.add_assoc, Machine.runFor_add_of_running hm] at hn
      exact .of_running hs (ih (j + 1) (by omega) h' hn)
    · have he : e' = e := Machine.Ends.unique ⟨k + 1, hm⟩ ⟨n, hn⟩
      exact .of_ended (he ▸ hs)

end Compiled

theorem Simulates.fresh (is : List Instruction) (input : List UInt8) (output : Output) :
    Simulates is (.fresh input output) (.fresh input output) where
  data := rfl
  returns := .nil
  index := Nat.zero_le _
  address := rfl

/-- Without a limit on its steps, the machine comes to an end on compiled code exactly if the
interpreter does on the program, and to the same one. -/
theorem compile_preserves_endings {p : Program} {code : Code} (hcompile : p.compile = .ok code)
    (hsize : code.ops.size ≤ 2 ^ 31 - 1) {limits : Limits} (hsteps : limits.maxSteps = none)
    (input : List UInt8) (output : Output) (e : Ending) :
    Machine.Ends limits code.ops (.fresh input output) e ↔
      Interpreter.Ends limits p.instructions.toList (.fresh input output) e := by
  have hc := compiled_of_compile hcompile
  have hlt : code.ops.size < 2 ^ 31 := by omega
  have hfresh := Simulates.fresh p.instructions.toList input output
  exact ⟨hc.interpreter_ends hlt hsteps hfresh, hc.machine_ends hlt hsteps hfresh⟩

/-- A call of a subroutine that stands after the halt and leaves 1 on the stack. -/
def subroutine : Program where
  instructions := #[⟨.call, some [.tab], 1⟩, ⟨.halt, none, 1⟩, ⟨.mark, some [.tab], 1⟩,
    ⟨.push, some [.space, .tab], 1⟩, ⟨.ret, none, 1⟩]
  labels := ∅

def subroutineCode : Code where
  ops := #[.pushReturn 0, .jump 2, .halt, .push 1, .jump 2, .halt, .dispatch #[-4]]
  returnSites := 1
  dispatcher := some 6
  sourceInstructions := 5

theorem subroutine_endings :
    subroutine.compile = .ok subroutineCode ∧
      ∃ e : Ending, e.fault = none ∧ e.data.stack.items = [1] ∧ e.pending = 0 ∧
        Machine.Ends .standard subroutineCode.ops (.fresh [] .unlimited) e ∧
        Interpreter.Ends .standard subroutine.instructions.toList (.fresh [] .unlimited) e := by
  have hcompile : subroutine.compile = .ok subroutineCode := by cbv
  have hrun : ((Machine.fresh [] .unlimited).runFor .standard subroutineCode.ops 6).ending?.map
      (fun e => (e.fault, e.data.stack.items, e.pending)) = some (none, [1], 0) := by
    decide +kernel
  obtain ⟨e, he, hview⟩ := Option.map_eq_some_iff.mp hrun
  simp only [Prod.mk.injEq] at hview
  have hends : Machine.Ends .standard subroutineCode.ops (.fresh [] .unlimited) e := ⟨6, he⟩
  refine ⟨hcompile, e, hview.1, hview.2.1, hview.2.2, hends, ?_⟩
  exact (compile_preserves_endings hcompile (by decide) rfl [] .unlimited e).mp hends

end Whitespace
