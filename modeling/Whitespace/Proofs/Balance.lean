import Whitespace.Build
import Whitespace.Proofs.Confinement

/-!
The height that is reported while a program is lowered is that of the ops it becomes: what they push
less what they pop, added up since the last halt. A program that runs straight through leaves a
stack of the height that was reported at the end.
-/
namespace Whitespace

open Layout

namespace Op

/-- By how much the op changes the height of the stack. -/
def change (op : Op) : Int := op.effect.pushes - op.effect.pops

/-- By how much the ops change the height together. -/
def balance (ops : List Op) : Int := (ops.map change).sum

@[simp] theorem balance_nil : balance [] = 0 := rfl

@[simp] theorem balance_append (ops later : List Op) :
    balance (ops ++ later) = balance ops + balance later := by
  simp [balance]

@[simp] theorem balance_singleton (op : Op) : balance [op] = op.change := by
  simp [balance]

end Op

open Op (balance)

/-- The op that is emitted. A branch has no offset yet. -/
def Slot.emitted : Slot → Op
  | .op o => o
  | .branch kind _ => kind.op 0

namespace Instruction

/-- The instructions up to the last halt; none if there is no halt. -/
def untilHalt (is : List Instruction) : List Instruction := is.rdropWhile (·.opcode != .halt)

/-- Whether control goes on to the next instruction and nowhere else. -/
def isStraight (i : Instruction) : Bool :=
  i.opcode ∉ [.call, .jump, .jumpIfZero, .jumpIfNegative, .ret, .halt]

theorem opcode_of_halt {i : Instruction} (h : i.op? = some .halt) : i.opcode = .halt := by
  cases hop : i.opcode with
  | push =>
    simp only [op?, hop, Option.bind_eq_some_iff, Option.map_eq_some_iff] at h
    obtain ⟨_, _, n, _, hn⟩ := h
    cases hn
  | halt => rfl
  | _ => simp [op?, hop] at h

end Instruction

open Instruction (untilHalt)

namespace Lowering

/-- The ops so far. -/
def emitted (s : Lowering) : List Op := s.slots.toList.map Slot.emitted

/-- Between the two states these ops were emitted, and the height was changed accordingly. -/
structure Emits (s : Lowering) (ops : List Op) (s' : Lowering) : Prop where
  emitted : s'.emitted = s.emitted ++ ops
  height : s'.height = s.height + balance ops

namespace Emits

variable {s s₁ s₂ : Lowering} {ops later : List Op}

theorem trans (h : Emits s ops s₁) (h' : Emits s₁ later s₂) : Emits s (ops ++ later) s₂ :=
  ⟨by rw [h'.emitted, h.emitted, List.append_assoc],
    by rw [h'.height, h.height, Op.balance_append, Int.add_assoc]⟩

/-- Only slots and height count. -/
theorem quiet (hslots : s₁.slots = s.slots) (hheight : s₁.height = s.height) : Emits s [] s₁ :=
  ⟨by simp [Lowering.emitted, hslots], by simp [hheight]⟩

theorem push (slot : Slot) (hslots : s₁.slots = s.slots.push slot)
    (hheight : s₁.height = s.height + slot.emitted.change) : Emits s [slot.emitted] s₁ :=
  ⟨by simp [Lowering.emitted, hslots], by rw [hheight, Op.balance_singleton]⟩

end Emits

variable {s s' : Lowering} {i : Instruction}

theorem lower_of_branchKind? {kind : BranchKind} (h : i.opcode.branchKind? = some kind) :
    s.lower i = s.branchTo i kind (kind.op 0).change := by
  cases hop : i.opcode with
  | jump | jumpIfZero | jumpIfNegative =>
    rw [hop] at h
    cases h
    simp only [lower, hop]
    rfl
  | _ =>
    rw [hop] at h
    cases h

/-- Lowering an instruction other than a halt emits some ops and counts them. -/
theorem emits_of_lower (h : s.lower i = .ok s') (hhalt : i.opcode ≠ .halt) :
    ∃ ops, Emits s ops s' := by
  cases step_of_lower h with
  | @plain op hop =>
    refine ⟨[op], .push (.op op) rfl ?_⟩
    cases op with
    | halt => exact absurd (Instruction.opcode_of_halt hop) hhalt
    | _ => rfl
  | @mark label hop hparam hnew => exact ⟨[], .quiet rfl rfl⟩
  | @branch kind label hop hparam change =>
    -- What a branch takes off the stack is not said by the step but by the opcode.
    rw [lower_of_branchKind? hop, branchTo_eq, literal, hparam] at h
    have hheight := congrArg Lowering.height (Except.ok.inj h)
    exact ⟨[kind.op 0], .push (.branch kind (s.entryOf label).target) rfl hheight.symm⟩
  | @call label hop hparam =>
    have hpushed : Emits s [.pushReturn s.returnSites.size.toUInt32]
        ((s.reserve label).emit (.pushReturn s.returnSites.size.toUInt32) 0) :=
      .push (.op _) rfl rfl
    exact ⟨_, hpushed.trans (.push (.branch .always (s.entryOf label).target) rfl rfl)⟩
  | @ret t hop hd => exact ⟨_, .push (.branch .always t) rfl rfl⟩
  | firstRet hop hd => exact ⟨_, .push (.branch .always s.targets.allocate.1) rfl rfl⟩

theorem height_of_halt (h : s.lower i = .ok s') (hhalt : i.opcode = .halt) : s'.height = 0 := by
  simp only [lower, hhalt] at h
  cases h
  rfl

theorem lowerAll_append {is later : List Instruction} (h : s.lowerAll (is ++ later) = .ok s') :
    ∃ s₁, s.lowerAll is = .ok s₁ ∧ s₁.lowerAll later = .ok s' := by
  induction is generalizing s with
  | nil => exact ⟨s, rfl, h⟩
  | cons i is ih =>
    rw [List.cons_append, lowerAll] at h
    rw [lowerAll]
    cases hlower : s.lower i with
    | error e => rw [hlower] at h; cases h
    | ok s₁ =>
      rw [hlower] at h
      exact ih h

theorem emits_of_lowerAll {is : List Instruction} (h : s.lowerAll is = .ok s')
    (hhalt : ∀ i ∈ is, i.opcode ≠ .halt) : ∃ ops, Emits s ops s' := by
  induction is generalizing s with
  | nil =>
    cases h
    exact ⟨[], .quiet rfl rfl⟩
  | cons i is ih =>
    rw [lowerAll] at h
    cases hlower : s.lower i with
    | error e => rw [hlower] at h; cases h
    | ok s₁ =>
      rw [hlower] at h
      obtain ⟨ops, hops⟩ := emits_of_lower hlower (hhalt i List.mem_cons_self)
      obtain ⟨later, hlater⟩ := ih h fun j hj => hhalt j (List.mem_cons_of_mem i hj)
      exact ⟨ops ++ later, hops.trans hlater⟩

theorem lowerAll_singleton (s : Lowering) (i : Instruction) : s.lowerAll [i] = s.lower i := by
  rw [lowerAll]
  cases s.lower i <;> rfl

/-- At the start, and right after a halt, the height is counted from zero. -/
theorem height_untilHalt {is : List Instruction} (h : empty.lowerAll (untilHalt is) = .ok s) :
    s.height = 0 := by
  induction is using List.reverseRecOn with
  | nil =>
    cases h
    rfl
  | append_singleton is i ih =>
    rw [untilHalt, List.rdropWhile_concat] at h
    split at h
    · exact ih h
    · next hhalt =>
      obtain ⟨s₁, _, hlast⟩ := lowerAll_append h
      rw [lowerAll_singleton] at hlast
      exact height_of_halt hlast (by simpa using hhalt)

/-- The height is the balance of the ops since the last halt. -/
theorem height_eq_balance {is : List Instruction} (h : empty.lowerAll is = .ok s) :
    ∃ s₀ since, empty.lowerAll (untilHalt is) = .ok s₀ ∧ s.emitted = s₀.emitted ++ since ∧
      s.height = balance since := by
  have hsplit : untilHalt is ++ is.rtakeWhile (·.opcode != .halt) = is :=
    List.rdropWhile_append_rtakeWhile
  have hsince : ∀ i ∈ is.rtakeWhile (·.opcode != .halt), i.opcode ≠ .halt := by
    intro i hi
    simpa using List.mem_rtakeWhile_imp hi
  rw [← hsplit] at h
  obtain ⟨s₀, hs₀, hrest⟩ := lowerAll_append h
  obtain ⟨since, hemits⟩ := emits_of_lowerAll hrest hsince
  exact ⟨s₀, since, hs₀, hemits.emitted, by
    rw [hemits.height, height_untilHalt hs₀, Int.zero_add]⟩

theorem events_eq (s : Lowering) (index : Nat) (found : Array Event) (is : List Instruction) :
    s.events index found is = found.toList ++ s.events index #[] is := by
  induction is generalizing s index found with
  | nil => simp [events]
  | cons i is ih =>
    rw [events, events]
    cases s.lower i with
    | error e => simp
    | ok s₁ =>
      dsimp only
      rw [ih, ih s₁ (index + 1) (#[].push _)]
      simp

/-- The event after each instruction tells the height after it. -/
theorem getElem?_events {is : List Instruction} {n : Nat} (index : Nat) (hi : is[n]? = some i)
    (h : s.lowerAll (is.take (n + 1)) = .ok s') :
    (s.events index #[] is)[n]? = some (.lowered (index + n) i.opcode s'.height) := by
  induction is generalizing s n index with
  | nil => cases hi
  | cons j is ih =>
    rw [List.take_succ_cons, lowerAll] at h
    rw [events]
    cases hlower : s.lower j with
    | error e => rw [hlower] at h; cases h
    | ok s₁ =>
      rw [hlower] at h
      dsimp only at h ⊢
      rw [events_eq]
      cases n with
      | zero =>
        cases hi
        cases h
        rfl
      | succ n =>
        have hnext := ih (index + 1) hi h
        rw [Nat.add_right_comm, Nat.add_assoc] at hnext
        exact hnext

theorem emitted_of_sketches {stands : Target → Destination → Prop} {slots : List Slot}
    {ops : List Op} (h : List.Forall₂ (Sketches stands) slots (ops.map .op)) :
    slots.map Slot.emitted = ops := by
  induction ops generalizing slots with
  | nil =>
    cases h
    rfl
  | cons op ops ih =>
    cases h with
    | cons hhead htail =>
      cases hhead
      rw [List.map_cons, ih htail]
      rfl

end Lowering

namespace Instruction

variable {i : Instruction} {is : List Instruction}

theorem untilHalt_of_straight (h : ∀ i ∈ is, i.isStraight = true) : untilHalt is = [] := by
  rw [untilHalt, List.rdropWhile_eq_nil_iff]
  intro i hi
  have hstraight := h i hi
  rw [bne_iff_ne]
  intro hop
  simp [isStraight, hop] at hstraight

theorem family_of_straight {op : Op} (h : i.isStraight = true) (hop : i.op? = some op) :
    op.family ≠ .flow := by
  intro hflow
  obtain rfl := op?_of_flow hop hflow
  simp [isStraight, opcode_of_halt hop] at h

theorem draft_of_straight (h : i.isStraight = true) (site : Nat) :
    draft site i = i.op?.toList.map .op := by
  cases hop : i.opcode with
  | call | jump | jumpIfZero | jumpIfNegative | ret | halt => simp [isStraight, hop] at h
  | mark => simp [draft, op?, hop]
  | _ => simp [draft, hop]

theorem drafts_of_straight (h : ∀ i ∈ is, i.isStraight = true) (site : Nat) :
    drafts site is = (is.filterMap op?).map .op := by
  induction is generalizing site with
  | nil => rfl
  | cons i is ih =>
    rw [drafts, draft_of_straight (h i List.mem_cons_self),
      ih fun j hj => h j (List.mem_cons_of_mem i hj), List.filterMap_cons, ← List.map_append]
    cases i.op? <;> rfl

/-- The code of such a program is one op for each instruction that is no mark, and a halt. -/
theorem ops_of_straight (h : ∀ i ∈ is, i.isStraight = true) :
    Layout.ops is = is.filterMap op? ++ [.halt] := by
  have hdispatches : dispatches is = false := by
    rw [dispatches, List.any_eq_false]
    intro i hi hop
    have hstraight := h i hi
    simp only [Bool.or_eq_true, beq_iff_eq] at hop
    rcases hop with hop | hop <;> simp [isStraight, hop] at hstraight
  rw [Layout.ops, drafts_of_straight h, ending, hdispatches]
  exact congrArg (· ++ [Op.halt]) (Lowering.mapIdx_op is 0 _)

end Instruction

namespace Machine

variable {limits : Limits} {ops : Array Op} {op : Op} {m m' : Machine}

theorem running_of_data (hop : ops[m.address]? = some op) (hdata : op.family ≠ .flow)
    (hstep : m.step limits ops = .running m') :
    m'.address = m.address + 1 ∧
      (m'.data.stack.items.length : Int) = m.data.stack.items.length + op.change := by
  obtain ⟨op', hop', hexec⟩ := exec_of_step hstep
  obtain rfl := Option.some.inj (hop.symm.trans hop')
  have hobeys := obeys_exec limits ops.size { m with steps := m.steps + 1 } op
  rw [hexec] at hobeys
  constructor
  · rw [exec_of_data hdata, perform] at hexec
    split at hexec
    · cases hexec
      rfl
    · cases hexec
  · have hlength := hobeys.1.length
    have hpops := hobeys.1.1
    rw [Op.change]
    dsimp only at hlength hpops
    omega

/-- The stack is as high as the ops before the address make it. -/
def Level (ops : Array Op) (m : Machine) : Prop :=
  (m.data.stack.items.length : Int) = balance (ops.toList.take m.address)

section Straight

variable {front : List Op} (hops : ops.toList = front ++ [.halt])
  (hfront : ∀ op ∈ front, op.family ≠ .flow)
include hops hfront

theorem address_of_halt (hop : ops[m.address]? = some .halt) : m.address = front.length := by
  rw [← Array.getElem?_toList, hops] at hop
  rcases Nat.lt_or_ge m.address front.length with hlt | hge
  · rw [List.getElem?_append_left hlt] at hop
    exact absurd rfl (hfront _ (List.mem_of_getElem? hop))
  · have hlt := (List.getElem?_eq_some_iff.mp hop).1
    rw [List.length_append, List.length_singleton] at hlt
    omega

theorem Level.running (h : m.Level ops) (hstep : m.step limits ops = .running m') :
    m'.Level ops := by
  obtain ⟨op, hop, hexec⟩ := exec_of_step hstep
  have hlist : ops.toList[m.address]? = some op := by rw [Array.getElem?_toList, hop]
  have hdata : op.family ≠ .flow := by
    have hmem := List.mem_of_getElem? hlist
    rw [hops] at hmem
    rcases List.mem_append.mp hmem with hmem | hmem
    · exact hfront op hmem
    · rw [List.mem_singleton.mp hmem] at hexec
      cases hexec
  obtain ⟨haddress, hlength⟩ := running_of_data hop hdata hstep
  rw [Level, haddress, List.take_add_one, hlist, hlength, h, Op.balance_append]
  exact congrArg _ (Op.balance_singleton op).symm

theorem Level.halted (h : m.Level ops) (hstep : m.step limits ops = .halted m') :
    (m'.data.stack.items.length : Int) = balance front := by
  rw [step] at hstep
  split at hstep
  · next hnone =>
    cases hstep
    rw [Array.getElem?_eq_none_iff, ← Array.length_toList] at hnone
    rw [h, List.take_of_length_le hnone, hops, Op.balance_append]
    exact Int.add_zero _
  · next op hop =>
    dsimp only at hstep
    split at hstep
    · cases hstep
    · have hmoves := moves_exec limits ops.size { m with steps := m.steps + 1 } op
      rw [hstep] at hmoves
      obtain ⟨rfl, rfl⟩ := hmoves
      have hlevel : (m.data.stack.items.length : Int) = _ := h
      rw [address_of_halt hops hfront hop, hops, List.take_left] at hlevel
      exact hlevel

theorem Level.run {n : Nat} (h : m.Level ops) (hrun : m.runFor limits ops n = .halted m') :
    (m'.data.stack.items.length : Int) = balance front := by
  induction n generalizing m with
  | zero => cases hrun
  | succ n ih =>
    rcases running_or_ended (m.step limits ops) with ⟨m₁, hstep⟩ | ⟨e, hstep⟩
    · rw [runFor_succ_of_running hstep] at hrun
      exact ih (h.running hops hfront hstep) hrun
    · rw [runFor_succ_of_ended hstep] at hrun
      exact h.halted hops hfront hrun

end Straight

theorem halted_of_ends {e : Ending} (h : Ends limits ops m e) (hok : e.fault = none) :
    ∃ n m', m.runFor limits ops n = .halted m' ∧ e.data = m'.data := by
  obtain ⟨n, hn⟩ := h
  cases hrun : m.runFor limits ops n with
  | running m' => rw [hrun] at hn; cases hn
  | halted m' =>
    rw [hrun] at hn
    cases hn
    exact ⟨n, m', hrun, rfl⟩
  | faulted f m' =>
    rw [hrun] at hn
    cases hn
    cases hok

end Machine

namespace Program

variable {p : Program} {code : Code}

theorem lowerAll_of_compile (h : p.compile = .ok code) :
    ∃ s, Lowering.empty.lowerAll p.instructions.toList = .ok s := by
  rw [compile] at h
  split at h
  · cases h
  · next s hs => exact ⟨s, hs⟩

theorem getLast?_compileEvents {s : Lowering} (h : p.compile = .ok code)
    (hlower : Lowering.empty.lowerAll p.instructions.toList = .ok s) :
    p.compileEvents.getLast? =
      some (.codeGenerated p.size code.ops.size s.labels.size s.returnSites.size s.height) := by
  rw [compileEvents, generated?, hlower, h]
  exact List.getLast?_concat

theorem height_of_straight {s : Lowering} (h : ∀ i ∈ p.instructions.toList, i.isStraight = true)
    (hlower : Lowering.empty.lowerAll p.instructions.toList = .ok s) :
    s.height = balance (p.instructions.toList.filterMap Instruction.op?) := by
  have hlays := Lowering.lays_of_lowerAll Lowering.lays_empty hlower
  have hslots := hlays.laid.slots
  rw [List.nil_append, Instruction.drafts_of_straight h] at hslots
  obtain ⟨s₀, since, hs₀, hemitted, hheight⟩ := Lowering.height_eq_balance hlower
  rw [Instruction.untilHalt_of_straight h] at hs₀
  cases hs₀
  rw [hheight, ← Lowering.emitted_of_sketches hslots]
  exact congrArg balance hemitted.symm

end Program

/-- After each instruction, the height that is reported is what the ops emitted since the last halt
push less what they pop. A program without control flow that comes to a good end leaves as many
values as the height reported at its end says. -/
theorem reported_heights_balance (p : Program) :
    (∀ n s, n < p.size → Lowering.empty.lowerAll (p.instructions.toList.take (n + 1)) = .ok s →
      ∃ i s₀ since, p.instructions[n]? = some i ∧
        Lowering.empty.lowerAll (untilHalt (p.instructions.toList.take (n + 1))) = .ok s₀ ∧
        s.emitted = s₀.emitted ++ since ∧
        p.compileEvents[n]? = some (.lowered n i.opcode (balance since))) ∧
    ∀ code, p.compile = .ok code → (∀ i ∈ p.instructions.toList, i.isStraight = true) →
      ∀ limits input output e, Machine.Ends limits code.ops (.fresh input output) e →
        e.fault = none →
        ∃ labels sites, p.compileEvents.getLast? = some
          (.codeGenerated p.size code.ops.size labels sites e.data.stack.items.length) := by
  constructor
  · intro n s hn hlower
    have hi : p.instructions.toList[n]? = some p.instructions[n] := by
      rw [Array.getElem?_toList]
      exact Array.getElem?_eq_getElem hn
    obtain ⟨s₀, since, hs₀, hemitted, hheight⟩ := Lowering.height_eq_balance hlower
    refine ⟨p.instructions[n], s₀, since, Array.getElem?_eq_getElem hn, hs₀, hemitted, ?_⟩
    have hevent := Lowering.getElem?_events 0 hi hlower
    rw [Nat.zero_add, hheight] at hevent
    rw [Program.compileEvents, List.getElem?_append_left (List.getElem?_eq_some_iff.mp hevent).1]
    exact hevent
  · intro code hcompile hstraight limits input output e hends hok
    obtain ⟨s, hlower⟩ := Program.lowerAll_of_compile hcompile
    obtain ⟨n, m, hrun, hdata⟩ := Machine.halted_of_ends hends hok
    have hops := (compiled_of_compile hcompile).ops
    rw [Instruction.ops_of_straight hstraight] at hops
    have hfront : ∀ op ∈ p.instructions.toList.filterMap Instruction.op?, op.family ≠ .flow := by
      intro op hop
      obtain ⟨i, hi, hop⟩ := List.mem_filterMap.mp hop
      exact Instruction.family_of_straight (hstraight i hi) hop
    have hstart : (Machine.fresh input output).Level code.ops := rfl
    have hlength := hstart.run hops hfront hrun
    rw [hdata, hlength, ← Program.height_of_straight hstraight hlower]
    exact ⟨_, _, Program.getLast?_compileEvents hcompile hlower⟩

/-- Two values are left over before the halt, and one after it. -/
def restarted : Program where
  instructions := #[⟨.push, some [.space, .tab], 1⟩, ⟨.dup, none, 1⟩, ⟨.halt, none, 1⟩,
    ⟨.mark, some [.tab], 1⟩, ⟨.push, some [.space, .tab], 1⟩, ⟨.dup, none, 1⟩,
    ⟨.jumpIfZero, some [.tab], 1⟩]
  labels := ∅

def restartedCode : Code where
  ops := #[.push 1, .dup, .halt, .push 1, .dup, .jumpIfZero (-2), .halt]
  returnSites := 0
  dispatcher := none
  sourceInstructions := 7

/-- Leaves two values. -/
def doubled : Program where
  instructions := #[⟨.push, some [.space, .tab], 1⟩, ⟨.dup, none, 1⟩, ⟨.mark, some [], 1⟩,
    ⟨.dup, none, 1⟩, ⟨.add, none, 1⟩]
  labels := ∅

def doubledCode : Code where
  ops := #[.push 1, .dup, .dup, .add, .halt]
  returnSites := 0
  dispatcher := none
  sourceInstructions := 5

theorem restarted_heights_balance :
    restarted.compile = .ok restartedCode ∧
      restarted.compileEvents[6]? = some (.lowered 6 .jumpIfZero 1) ∧
      (∃ s i s₀ since, Lowering.empty.lowerAll (restarted.instructions.toList.take 7) = .ok s ∧
        restarted.instructions[6]? = some i ∧
        Lowering.empty.lowerAll (untilHalt (restarted.instructions.toList.take 7)) = .ok s₀ ∧
        s.emitted = s₀.emitted ++ since ∧
        restarted.compileEvents[6]? = some (.lowered 6 i.opcode (balance since))) ∧
      doubled.compile = .ok doubledCode ∧
      (∀ i ∈ doubled.instructions.toList, i.isStraight = true) ∧
      ∃ e, Machine.Ends .standard doubledCode.ops (.fresh [] .unlimited) e ∧ e.fault = none ∧
        e.data.stack.items = [2, 1] ∧
        ∃ labels sites, doubled.compileEvents.getLast? = some
          (.codeGenerated doubled.size doubledCode.ops.size labels sites
            e.data.stack.items.length) := by
  have hrestarted : restarted.compile = .ok restartedCode := by cbv
  obtain ⟨s, hs⟩ := Program.lowerAll_of_compile hrestarted
  obtain ⟨i, s₀, since, hi, hs₀, hemitted, hevent⟩ :=
    (reported_heights_balance restarted).1 6 s (by decide) hs
  have hdoubled : doubled.compile = .ok doubledCode := by cbv
  have hstraight : ∀ i ∈ doubled.instructions.toList, i.isStraight = true := by decide
  have hends : Machine.Ends .standard doubledCode.ops (.fresh [] .unlimited) _ := ⟨5, rfl⟩
  exact ⟨hrestarted, by cbv, ⟨s, i, s₀, since, hs, hi, hs₀, hemitted, hevent⟩, hdoubled, hstraight,
    _, hends, rfl, rfl,
    (reported_heights_balance doubled).2 _ hdoubled hstraight _ _ _ _ hends rfl⟩

end Whitespace
