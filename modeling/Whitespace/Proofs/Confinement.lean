import Whitespace.Proofs.Limits
import Whitespace.Proofs.Placement

/-!
Runs of compiled code stay within it. What can stand at an address is known from the layout, and so
is where each op may lead: to an instruction or the final halt, and from a return alone to the
dispatcher. Pending calls have the numbers of calls of the program, and so an entry in the table.
-/
namespace Whitespace

open Layout
open Instruction (markIndex?)

/-- An instruction that leads nowhere is lowered to no control flow but a halt. -/
theorem Instruction.op?_of_flow {i : Instruction} {op : Op} (h : i.op? = some op)
    (hflow : op.family = .flow) : op = .halt := by
  cases hop : i.opcode with
  | push =>
    simp only [op?, hop, Option.bind_eq_some_iff, Option.map_eq_some_iff] at h
    obtain ⟨_, _, n, _, rfl⟩ := h
    cases hflow
  | mark | call | jump | jumpIfZero | jumpIfNegative | ret => simp [op?, hop] at h
  | halt =>
    rw [op?, hop] at h
    exact (Option.some.inj h).symm
  | _ =>
    rw [op?, hop] at h
    obtain rfl := Option.some.inj h
    cases hflow

theorem Op.family_of_branchOffset? {op : Op} {offset : Int32}
    (h : op.branchOffset? = some offset) : op.family = .flow := by
  cases op with
  | jump | jumpIfZero | jumpIfNegative => rfl
  | _ => cases h

theorem BranchKind.branchOffset?_op (kind : BranchKind) (offset : Int32) :
    (kind.op offset).branchOffset? = some offset := by
  cases kind <;> rfl

theorem Op.mem_successors {op : Op} {a : Nat} {t : Int} (h : t ∈ op.successors a) :
    op.fallsThrough = true ∧ t = (a + 1 : Nat) ∨
      (∃ offset, op.branchOffset? = some offset ∧ t = target a offset) ∨
      ∃ table offset, op = .dispatch table ∧ offset ∈ table ∧ t = target a offset := by
  cases op with
  | dispatch table =>
    obtain ⟨offset, hmem, rfl⟩ : ∃ offset ∈ table, target a offset = t := by
      simpa [successors, fallsThrough, branchOffset?] using h
    exact .inr (.inr ⟨table, offset, rfl, hmem, rfl⟩)
  | _ => simp_all [successors, fallsThrough, branchOffset?]

namespace Layout

variable {is : List Instruction}

/-- Every address before the final halt is that of an op of some instruction. -/
theorem exists_index_of_lt {a : Nat} (h : a < address is is.length) :
    ∃ n i j, is[n]? = some i ∧ j < i.opcode.width ∧ a = address is n + j := by
  induction is generalizing a with
  | nil => exact absurd h (Nat.not_lt_zero _)
  | cons i is ih =>
    have hshift : ∀ n, address (i :: is) (n + 1) = i.opcode.width + address is n := by
      simp [address]
    rcases Nat.lt_or_ge a i.opcode.width with hlt | hge
    · exact ⟨0, i, a, rfl, hlt, by simp [address]⟩
    · rw [List.length_cons, hshift] at h
      obtain ⟨n, i', j, hi, hj, ha⟩ := ih (a := a - i.opcode.width) (by omega)
      refine ⟨n + 1, i', j, hi, hj, ?_⟩
      rw [hshift]
      omega

/-- What can stand at an address. -/
inductive Fetched (is : List Instruction) : Nat → Op → Prop where
  | plain {n : Nat} {i : Instruction} {op : Op} (hi : is[n]? = some i) (hop : i.op? = some op) :
      Fetched is (address is n) op
  | branch {n j : Nat} {i : Instruction} {l : BitString} {m : Nat} (hi : is[n]? = some i)
      (hj : j < i.opcode.width) (hm : markIndex? is l = some m) (kind : BranchKind) :
      Fetched is (address is n + j)
        (kind.op (Lowering.relative (address is n + j) (address is m)))
  | call {n : Nat} {i : Instruction} (hi : is[n]? = some i) (hop : i.opcode = .call) :
      Fetched is (address is n) (.pushReturn (calls (is.take n)).toUInt32)
  | ret {n : Nat} {i : Instruction} (hi : is[n]? = some i) (hop : i.opcode = .ret) :
      Fetched is (address is n) (.jump (Lowering.relative (address is n) (dispatcherAddress is)))
  | halt : Fetched is (address is is.length) .halt
  | dispatch (hd : dispatches is = true) :
      Fetched is (dispatcherAddress is) (.dispatch (table is).toArray)

theorem next_le {n j : Nat} {i : Instruction} (hi : is[n]? = some i) (hj : j < i.opcode.width) :
    address is n + j + 1 ≤ address is is.length := by
  have hmono : address is (n + 1) ≤ address is is.length :=
    address_mono (List.getElem?_eq_some_iff.mp hi).1
  rw [address_succ hi] at hmono
  omega

theorem dispatches_of_calls (h : 0 < calls is) : dispatches is = true := by
  obtain ⟨i, hi, hcall⟩ := List.countP_pos_iff.mp h
  exact List.any_eq_true.mpr ⟨i, hi, by simpa [Instruction.isCall] using Or.inl hcall⟩

/-- There is one dispatcher only. -/
theorem table_of_fetched {a : Nat} {t : Array Int32} (h : Fetched is a (.dispatch t)) :
    a = dispatcherAddress is ∧ t = (table is).toArray := by
  generalize hop : Op.dispatch t = op at h
  cases h with
  | plain _ hplain => subst hop; cases Instruction.op?_of_flow hplain rfl
  | branch _ _ _ kind => cases kind <;> cases hop
  | call | ret | halt => cases hop
  | dispatch => cases hop; exact ⟨rfl, rfl⟩

theorem call_of_fetched {a : Nat} {site : UInt32} (h : Fetched is a (.pushReturn site)) :
    ∃ n i, is[n]? = some i ∧ i.opcode = .call ∧ site = (calls (is.take n)).toUInt32 := by
  generalize hop : Op.pushReturn site = op at h
  cases h with
  | plain _ hplain => subst hop; cases Instruction.op?_of_flow hplain rfl
  | branch _ _ _ kind => cases kind <;> cases hop
  | call hi hcall => cases hop; exact ⟨_, _, hi, hcall, rfl⟩
  | ret | halt | dispatch => cases hop

end Layout

namespace Compiled

variable {is : List Instruction} {code : Code}

theorem eq_resolve_of_draft (hc : Compiled is code) {n j : Nat} {i : Instruction} {d : Draft}
    {op : Op} (hi : is[n]? = some i) (hop : code.ops[address is n + j]? = some op)
    (hd : (draft (calls (is.take n)) i)[j]? = some d) : op = d.resolve is (address is n + j) :=
  Option.some.inj (hop.symm.trans (hc.op_at hi hd))

theorem fetched_of_branch (hc : Compiled is code) {n j : Nat} {i : Instruction} {op : Op}
    {kind : BranchKind} {l : BitString} (hi : is[n]? = some i) (hj : j < i.opcode.width)
    (hop : code.ops[address is n + j]? = some op)
    (hd : (draft (calls (is.take n)) i)[j]? = some (.branch kind (.label l))) :
    Fetched is (address is n + j) op := by
  obtain ⟨m, hm⟩ := hc.mark_of_branch hi (List.mem_of_getElem? hd)
  have hlands : lands is (.label l) = address is m := by simp [lands, place?, hm]
  rw [hc.eq_resolve_of_draft hi hop hd, Draft.resolve, hlands]
  exact .branch hi hj hm kind

theorem fetched_of_index (hc : Compiled is code) {n j : Nat} {i : Instruction} {op : Op}
    (hi : is[n]? = some i) (hj : j < i.opcode.width)
    (hop : code.ops[address is n + j]? = some op) : Fetched is (address is n + j) op := by
  have hcomplete := hc.complete i (List.mem_of_getElem? hi)
  cases hcomplete.form with
  | plain hplain =>
    obtain rfl : j = 0 := by rw [Instruction.width_of_op? hplain] at hj; omega
    obtain rfl := hc.eq_resolve_of_draft (d := .op _) hi hop (by rw [draft_of_op? hplain]; rfl)
    exact .plain hi hplain
  | mark hmark => rw [hmark] at hj; exact absurd hj (Nat.not_lt_zero j)
  | branch hkind =>
    have hdraft := draft_of_branchKind? hkind (calls (is.take n))
    obtain rfl : j = 0 := by
      rw [← length_draft hcomplete (calls (is.take n)), hdraft, List.length_singleton] at hj
      omega
    exact hc.fetched_of_branch hi hj hop (by rw [hdraft]; rfl)
  | call hcall =>
    have hdraft : draft (calls (is.take n)) i =
        [.op (.pushReturn (calls (is.take n)).toUInt32), .branch .always (.label i.label)] := by
      simp [draft, hcall]
    obtain rfl | rfl : j = 0 ∨ j = 1 := by rw [hcall, Opcode.width] at hj; omega
    · obtain rfl := hc.eq_resolve_of_draft hi hop (by rw [hdraft]; rfl)
      exact .call hi hcall
    · exact hc.fetched_of_branch hi hj hop (by rw [hdraft]; rfl)
  | ret hret =>
    have hone : i.opcode.width = 1 := by rw [hret]; rfl
    obtain rfl : j = 0 := by omega
    obtain rfl := hc.eq_resolve_of_draft (d := .branch .always .dispatcher) hi hop
      (by simp [draft, hret])
    exact .ret hi hret

theorem fetched (hc : Compiled is code) {a : Nat} {op : Op} (hop : code.ops[a]? = some op) :
    Fetched is a op := by
  have hlt := (Array.getElem?_eq_some_iff.mp hop).1
  rw [hc.size_ops] at hlt
  rcases Nat.lt_trichotomy a (address is is.length) with hbefore | rfl | hbehind
  · obtain ⟨n, i, j, hi, hj, rfl⟩ := exists_index_of_lt hbefore
    exact hc.fetched_of_index hi hj hop
  · obtain rfl := Option.some.inj (hop.symm.trans hc.halt_at_end)
    exact .halt
  · obtain ⟨hd, rfl⟩ : dispatches is = true ∧ a = dispatcherAddress is := by
      rw [dispatcherAddress] at hlt ⊢
      split at hlt
      · next hd => exact ⟨hd, by omega⟩
      · omega
    obtain rfl := Option.some.inj (hop.symm.trans (hc.dispatch_at hd))
    exact .dispatch hd

/-- Where an op of the code may lead: within the instructions or to the halt after them, and from a
return to the dispatcher. -/
theorem successor (hc : Compiled is code) (hsize : code.ops.size < 2 ^ 31) {a : Nat} {op : Op}
    (h : Fetched is a op) (ha : a ≤ code.ops.size) {t : Int} (ht : t ∈ op.successors a) :
    ∃ b : Nat, t = b ∧ (b ≤ address is is.length ∨
      b = dispatcherAddress is ∧ dispatches is = true ∧
        ∃ n i, is[n]? = some i ∧ i.opcode = .ret ∧ a = address is n) := by
  have hland : ∀ {b}, b ≤ code.ops.size → Op.target a (Lowering.relative a b) = b := by
    intro b hb
    rw [Op.target, toInt_relative (by omega) (by omega)]
    omega
  have hindex : ∀ {n}, n ≤ is.length → address is n ≤ code.ops.size :=
    fun hn => Nat.le_of_lt (hc.address_lt_size hn)
  rcases Op.mem_successors ht with
    ⟨hfalls, rfl⟩ | ⟨offset, hoffset, rfl⟩ | ⟨_, offset, rfl, hmem, rfl⟩
  · refine ⟨_, rfl, .inl ?_⟩
    cases h with
    | plain hi hop => exact next_le hi (by rw [Instruction.width_of_op? hop]; exact Nat.one_pos)
    | branch hi hj => exact next_le hi hj
    | call hi hop => exact next_le hi (by rw [hop]; exact Nat.two_pos)
    | ret | halt | dispatch => cases hfalls
  · cases h with
    | plain _ hop =>
      obtain rfl := Instruction.op?_of_flow hop (Op.family_of_branchOffset? hoffset)
      cases hoffset
    | branch hi hj hm kind =>
      rw [BranchKind.branchOffset?_op] at hoffset
      cases hoffset
      have hle := Nat.le_of_lt (markIndex?_lt hm)
      exact ⟨_, hland (hindex hle), .inl (address_mono hle)⟩
    | ret hi hop =>
      cases hoffset
      refine ⟨_, hland hc.dispatcherAddress_le, .inr ⟨rfl, ?_, _, _, hi, hop, rfl⟩⟩
      exact List.any_eq_true.mpr ⟨_, List.mem_of_getElem? hi, by simp [hop]⟩
    | call | halt | dispatch => cases hoffset
  · obtain ⟨rfl, rfl⟩ := table_of_fetched h
    obtain ⟨r, hr, rfl⟩ : ∃ r ∈ returnIndices is,
        Lowering.relative (dispatcherAddress is) (address is r) = offset := by
      simpa [table] using hmem
    have hle := le_of_mem_returnIndices hr
    exact ⟨_, hland (hindex hle), .inl (address_mono hle)⟩

end Compiled

/-- Every pending call is one of the program's. -/
def Machine.Pending (is : List Instruction) (m : Machine) : Prop :=
  ∀ site ∈ m.returns.items, site.toNat < calls is

/-- The machine has not left the code, and has its pending calls from the program. -/
def Progress.Confined (is : List Instruction) (code : Code) : Progress → Prop
  | .running m => m.Pending is ∧ m.address < code.ops.size
  | .halted m => m.Pending is ∧ code.ops[m.address]? = some .halt
  | .faulted f m =>
    m.Pending is ∧ (∀ t, f ≠ .invalidJump t) ∧ ∀ site, f ≠ .unknownReturnSite site

theorem Fault.of_isLimit {f : Fault} (h : f.isLimit = true) :
    (∀ t, f ≠ .invalidJump t) ∧ ∀ site, f ≠ .unknownReturnSite site := by
  refine ⟨fun t hf => ?_, fun site hf => ?_⟩
  · rw [hf] at h; cases h
  · rw [hf] at h; cases h

/-- A step that goes on has executed an op. -/
theorem Machine.exec_of_step {limits : Limits} {ops : Array Op} {m m' : Machine}
    (h : m.step limits ops = .running m') :
    ∃ op, ops[m.address]? = some op ∧
      exec limits ops.size { m with steps := m.steps + 1 } op = .running m' := by
  rw [step] at h
  split at h
  · cases h
  · next op hfetch =>
    dsimp only at h
    split at h
    · cases h
    · exact ⟨op, hfetch, h⟩

namespace Compiled

variable {is : List Instruction} {code : Code} {limits : Limits} {m m' : Machine}
  (hc : Compiled is code) (hsize : code.ops.size < 2 ^ 31)
include hc hsize

theorem pending_of_framed {op : Op} (hop : code.ops[m.address]? = some op) (h : m.Pending is)
    (hframed : m.Framed op m') : m'.Pending is := by
  intro site hsite
  rcases hframed.returns site hsite with hold | rfl
  · exact h site hold
  · obtain ⟨n, i, hi, hcall, rfl⟩ := call_of_fetched (hc.fetched hop)
    have hlt := (List.getElem?_eq_some_iff.mp (hc.site_of_call hsize hi hcall)).1
    rwa [length_returnIndices] at hlt

theorem confined_exec {op : Op} (hop : code.ops[m.address]? = some op) (h : m.Pending is) :
    (m.exec limits code.ops.size op).Confined is code := by
  have ha := Nat.le_of_lt (Array.getElem?_eq_some_iff.mp hop).1
  have hfetched := hc.fetched hop
  have hmoves := Machine.moves_exec limits code.ops.size m op
  have hobeys := Machine.obeys_exec limits code.ops.size m op
  have hframed : ∀ {m'}, m.Framed op m' → m'.Pending is := hc.pending_of_framed hsize hop h
  have hinside : ∀ t ∈ op.successors m.address, 0 ≤ t ∧ t < code.ops.size := by
    intro t ht
    obtain ⟨b, rfl, hb⟩ := hc.successor hsize hfetched ha ht
    have hend := hc.address_lt_size (Nat.le_refl is.length)
    rcases hb with hle | ⟨rfl, hd, _⟩
    · omega
    · rw [hc.size_ops, if_pos hd]
      omega
  generalize m.exec limits code.ops.size op = p at hmoves hobeys
  cases p with
  | running m' =>
    have hbound := hinside _ hobeys.2
    exact ⟨hframed hmoves, by omega⟩
  | halted m' =>
    obtain ⟨rfl, rfl⟩ := hmoves
    exact ⟨h, hop⟩
  | faulted f m' =>
    obtain ⟨hmoved, _, hexplains⟩ := hmoves
    refine ⟨hframed hmoved, ?_, ?_⟩
    · rintro t rfl
      have hbound := hinside t hexplains.1
      exact hexplains.2 ⟨hbound.1, Int.le_of_lt hbound.2⟩
    · rintro site rfl
      obtain ⟨hsite, t, rfl, hle⟩ := hexplains
      rw [(table_of_fetched hfetched).2] at hle
      have hlt := h site hsite
      rw [← length_returnIndices] at hlt
      simp [table] at hle
      omega

theorem confined_step (h : m.Pending is) (haddress : m.address < code.ops.size) :
    (m.step limits code.ops).Confined is code := by
  have hop := Array.getElem?_eq_getElem haddress
  rw [Machine.step, hop]
  dsimp only
  split
  · next f hf => exact ⟨h, Fault.of_isLimit (Machine.isLimit_of_exceeded? hf)⟩
  · exact hc.confined_exec hsize (m := { m with steps := m.steps + 1 }) hop h

theorem confined_runFor (n : Nat) (h : m.Pending is) (haddress : m.address < code.ops.size) :
    (m.runFor limits code.ops n).Confined is code := by
  induction n generalizing m with
  | zero => exact ⟨h, haddress⟩
  | succ n ih =>
    have hstep : (m.step limits code.ops).Confined is code := hc.confined_step hsize h haddress
    rw [Machine.runFor]
    split
    · next m' hrunning =>
      rw [hrunning] at hstep
      exact ih hstep.1 hstep.2
    · exact hstep

/-- Only a return leads to the dispatcher. -/
theorem ret_of_dispatch {table : Array Int32} (hstep : m.step limits code.ops = .running m')
    (hop : code.ops[m'.address]? = some (.dispatch table)) :
    ∃ n i offset, is[n]? = some i ∧ i.opcode = .ret ∧ m.address = address is n ∧
      code.ops[m.address]? = some (.jump offset) := by
  obtain ⟨op, hfetch, hexec⟩ := Machine.exec_of_step hstep
  have hobeys := Machine.obeys_exec limits code.ops.size { m with steps := m.steps + 1 } op
  rw [hexec] at hobeys
  have ha := Nat.le_of_lt (Array.getElem?_eq_some_iff.mp hfetch).1
  have haddress := (table_of_fetched (hc.fetched hop)).1
  obtain ⟨b, hb, hwhere⟩ := hc.successor hsize (hc.fetched hfetch) ha hobeys.2
  rcases hwhere with hle | ⟨_, _, n, i, hi, hret, hat⟩
  · rw [dispatcherAddress] at haddress
    omega
  · obtain ⟨offset, hjump, _⟩ := hc.retBranchAt hsize hi hret
    exact ⟨n, i, offset, hi, hret, hat, hat ▸ hjump⟩

end Compiled

/-- The last of the steps that a run has taken. -/
theorem Machine.running_of_runFor_succ {limits : Limits} {ops : Array Op} {n : Nat} {m m' : Machine}
    (h : m.runFor limits ops (n + 1) = .running m') :
    ∃ before, m.runFor limits ops n = .running before ∧ before.step limits ops = .running m' := by
  rcases running_or_ended (m.runFor limits ops n) with ⟨before, hbefore⟩ | ⟨e, he⟩
  · rw [runFor_add_of_running hbefore, runFor_one] at h
    exact ⟨before, hbefore, h⟩
  · rw [runFor_add_of_ended he] at h
    rw [h] at he
    cases he

/-- What is known of a run of compiled code after at most `n` steps. -/
structure RunConfined (is : List Instruction) (code : Code) (limits : Limits) (start : Machine)
    (n : Nat) : Prop where
  /-- There is an op to fetch as long as the run goes on. -/
  fetch : ∀ {m}, start.runFor limits code.ops n = .running m → m.address < code.ops.size
  /-- All pending calls have an entry in the table. -/
  pending : ∀ site ∈ (start.runFor limits code.ops n).machine.returns.items,
    site < code.returnSites ∧ ∃ d table, code.dispatcher = some d ∧
      code.ops[d.toNat]? = some (.dispatch table) ∧ site.toNat < table.size
  /-- Before the dispatcher, the jump of a return was executed. -/
  dispatch : ∀ {m table}, start.runFor limits code.ops n = .running m →
    code.ops[m.address]? = some (.dispatch table) →
    ∃ k before j i offset, n = k + 1 ∧ start.runFor limits code.ops k = .running before ∧
      is[j]? = some i ∧ i.opcode = .ret ∧ before.address = address is j ∧
      code.ops[before.address]? = some (.jump offset)
  halt : ∀ {m}, start.runFor limits code.ops n = .halted m → code.ops[m.address]? = some .halt
  fault : ∀ {f m}, start.runFor limits code.ops n = .faulted f m →
    (∀ t, f ≠ .invalidJump t) ∧ ∀ site, f ≠ .unknownReturnSite site

theorem Code.LaidOut.entry_of_pending {is : List Instruction} {code : Code} (h : code.LaidOut is)
    {site : UInt32} (hsite : site.toNat < calls is) :
    site < code.returnSites ∧ ∃ d table, code.dispatcher = some d ∧
      code.ops[d.toNat]? = some (.dispatch table) ∧ site.toNat < table.size := by
  have hd := dispatches_of_calls (Nat.zero_lt_of_lt hsite)
  have hdispatcher := h.dispatcher
  rw [if_pos hd] at hdispatcher
  obtain ⟨d, hcode, hnat⟩ := Option.map_eq_some_iff.mp hdispatcher
  obtain ⟨table, hop, htable⟩ := h.dispatch hd
  refine ⟨?_, d, table, hcode, hnat ▸ hop, htable.size ▸ hsite⟩
  rw [UInt32.lt_iff_toNat_lt, h.returnSites]
  exact hsite

theorem Progress.Confined.pending {is : List Instruction} {code : Code} {p : Progress}
    (h : p.Confined is code) : p.machine.Pending is := by
  cases p with
  | running m | halted m | faulted f m => exact h.1

/-- Compiled code is closed under execution, whatever the limits and the input. -/
theorem compiled_code_confines_runs {p : Program} {code : Code} (hcompile : p.compile = .ok code)
    (hsize : code.ops.size ≤ 2 ^ 31 - 1) (limits : Limits) (input : List UInt8) (output : Output)
    (n : Nat) :
    RunConfined p.instructions.toList code limits (.fresh input output) n := by
  have hc := compiled_of_compile hcompile
  have hlt : code.ops.size < 2 ^ 31 := by omega
  have hlaid := hc.laidOut hlt (singleMarks_of_compile hcompile)
  have hconfined : ((Machine.fresh input output).runFor limits code.ops n).Confined _ code :=
    hc.confined_runFor hlt n nofun (hc.address_lt_size (Nat.zero_le _))
  refine ⟨?_, fun site hsite => hlaid.entry_of_pending (hconfined.pending site hsite), ?_, ?_, ?_⟩
  · intro m hrun
    rw [hrun] at hconfined
    exact hconfined.2
  · intro m table hrun hop
    cases n with
    | zero =>
      cases hrun
      have hstart := (table_of_fetched (hc.fetched hop)).1
      cases hstart
    | succ k =>
      obtain ⟨before, hbefore, hstep⟩ := Machine.running_of_runFor_succ hrun
      obtain ⟨j, i, offset, hi, hret, hat, hjump⟩ := hc.ret_of_dispatch hlt hstep hop
      exact ⟨k, before, j, i, offset, rfl, hbefore, hi, hret, hat, hjump⟩
  · intro m hrun
    rw [hrun] at hconfined
    exact hconfined.2
  · intro f m hrun
    rw [hrun] at hconfined
    exact hconfined.2

theorem twoCalls_confined :
    twoCalls.compile = .ok twoCallsCode ∧ twoCallsCode.ops.size ≤ 2 ^ 31 - 1 ∧
      (∃ m, (Machine.fresh [] .unlimited).runFor .standard twoCallsCode.ops 3 = .running m ∧
        twoCallsCode.ops[m.address]? = some (.dispatch #[-5, -3]) ∧ m.returns.items = [0]) ∧
      RunConfined twoCalls.instructions.toList twoCallsCode .standard (.fresh [] .unlimited) 3 := by
  have hcompile : twoCalls.compile = .ok twoCallsCode := by cbv
  refine ⟨hcompile, by decide, ⟨_, rfl, by decide +kernel, by decide +kernel⟩, ?_⟩
  exact compiled_code_confines_runs hcompile (by decide) .standard [] .unlimited 3

end Whitespace
