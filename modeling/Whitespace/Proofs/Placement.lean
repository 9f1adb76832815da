import Whitespace.Proofs.Simulation

/-!
Where everything lies in compiled code. Each instruction has its ops at the sum of the widths
before it, a branch leads to the one mark of its label, a return to the dispatcher behind the final
halt, and entry `k` of the dispatcher to behind call `k`.
-/
namespace Whitespace

open Layout
open Instruction (markIndex?)

namespace Layout

variable {is : List Instruction}

/-- The instruction with index `m` marks the label, and no other does. -/
structure OnlyMark (is : List Instruction) (label : BitString) (m : Nat) : Prop where
  marks : ∃ i, is[m]? = some i ∧ i.marks label = true
  only : ∀ {n i}, is[n]? = some i → i.marks label = true → n = m

/-- No label is marked twice. -/
def SingleMarks (is : List Instruction) : Prop :=
  is.Pairwise fun i j => ∀ l, i.marks l = true → j.marks l = false

theorem SingleMarks.concat (h : SingleMarks is) {i : Instruction}
    (hnew : ∀ l, i.marks l = true → markIndex? is l = none) : SingleMarks (is ++ [i]) := by
  refine List.pairwise_append.mpr ⟨h, List.pairwise_singleton _ _, ?_⟩
  intro j hj i' hi' l hmarks
  rw [List.mem_singleton.mp hi']
  by_contra hagain
  have hnone := List.findIdx?_eq_none_iff.mp (hnew l (by simpa using hagain)) j hj
  rw [hmarks] at hnone
  cases hnone

theorem SingleMarks.onlyMark (h : SingleMarks is) {l : BitString} {m : Nat}
    (hm : markIndex? is l = some m) : OnlyMark is l m := by
  obtain ⟨hlt, hmarks, hfirst⟩ := List.findIdx?_eq_some_iff_getElem.mp hm
  refine ⟨⟨is[m], List.getElem?_eq_getElem hlt, hmarks⟩, fun {n i} hi hagain => ?_⟩
  obtain ⟨hn, rfl⟩ := List.getElem?_eq_some_iff.mp hi
  rcases Nat.lt_trichotomy n m with hbefore | heq | hafter
  · exact absurd hagain (hfirst n hbefore)
  · exact heq
  · have hnot := List.pairwise_iff_getElem.mp h m n hlt hn hafter l hmarks
    rw [hagain] at hnot
    cases hnot

theorem calls_take_mono {m n : Nat} (h : m ≤ n) : calls (is.take m) ≤ calls (is.take n) := by
  have htake := calls_take_le (is.take n) m
  rwa [List.take_take, Nat.min_eq_left h] at htake

theorem address_after_call {n : Nat} {i : Instruction} (hi : is[n]? = some i)
    (hop : i.opcode = .call) : address is (n + 1) = address is n + 2 := by
  rw [address_succ hi, hop]
  rfl

/-- Return site `k` is that of the call with `k` calls before it. -/
theorem call_of_returnIndices {k r : Nat} (h : (returnIndices is)[k]? = some r) :
    ∃ n i, r = n + 1 ∧ is[n]? = some i ∧ i.opcode = .call ∧ calls (is.take n) = k := by
  induction is using List.reverseRecOn with
  | nil => cases h
  | append_singleton is j ih =>
    rw [returnIndices_concat] at h
    rcases Nat.lt_or_ge k (returnIndices is).length with hlt | hge
    · rw [List.getElem?_append_left hlt] at h
      obtain ⟨n, i, rfl, hi, hop, hcalls⟩ := ih h
      have hn := (List.getElem?_eq_some_iff.mp hi).1
      refine ⟨n, i, rfl, by rw [List.getElem?_append_left hn, hi], hop, ?_⟩
      rw [List.take_append_of_le_length (Nat.le_of_lt hn), hcalls]
    · rw [List.getElem?_append_right hge] at h
      cases hcall : j.isCall with
      | false => simp [hcall] at h
      | true =>
        obtain ⟨hk, rfl⟩ : k - (returnIndices is).length = 0 ∧ is.length + 1 = r := by
          simpa [hcall, List.getElem?_singleton] using h
        refine ⟨is.length, j, rfl, by simp, by simpa [Instruction.isCall] using hcall, ?_⟩
        rw [List.take_left, ← length_returnIndices]
        omega

end Layout

theorem Lowering.Lays.markIndex?_of_step {done : List Instruction} {i : Instruction}
    {s s' : Lowering} (h : Lowering.Lays done s) (hstep : s.Step i s') {l : BitString}
    (hmarks : i.marks l = true) : markIndex? done l = none := by
  obtain ⟨hop, hparam⟩ : i.opcode = .mark ∧ i.param = some l := by
    simpa [Instruction.marks] using hmarks
  cases hstep with
  | plain hop' => exact absurd hop (Instruction.op?_ne hop').1
  | mark _ hparam' hnew =>
    obtain rfl := Option.some.inj (hparam.symm.trans hparam')
    simpa [place?] using h.place?_of_new hnew
  | branch hop' => exact absurd hop (Opcode.branchKind?_ne hop').2.1
  | call hop' | ret hop' | firstRet hop' => cases hop.symm.trans hop'

theorem singleMarks_of_compile {p : Program} {code : Code} (h : p.compile = .ok code) :
    SingleMarks p.instructions.toList := by
  unfold Program.compile at h
  split at h
  · cases h
  · next s hs =>
    have hall := Lowering.lowerAll_induction
      (P := fun done s => Lowering.Lays done s ∧ SingleMarks done)
      (fun hlays hstep =>
        ⟨hlays.1.step hstep, hlays.2.concat fun _ => hlays.1.markIndex?_of_step hstep⟩)
      ⟨Lowering.lays_empty, .nil⟩ hs
    exact hall.2

namespace Code

/-- At `address` stands a branch of this kind that leads to `destination`. -/
def BranchAt (code : Code) (address : Nat) (kind : BranchKind) (destination : Nat) : Prop :=
  ∃ offset, code.ops[address]? = some (kind.op offset) ∧
    (address : Int) + offset.toInt = destination

/-- It leads to the one mark of the label. -/
def MarkBranchAt (is : List Instruction) (code : Code) (address : Nat) (kind : BranchKind)
    (label : Option BitString) : Prop :=
  ∃ l m, label = some l ∧ OnlyMark is l m ∧ code.BranchAt address kind (Layout.address is m)

/-- The ops of the instruction with index `n` stand at its address. -/
def LoweredAt (is : List Instruction) (code : Code) (n : Nat) (i : Instruction) : Prop :=
  match i.opcode with
  | .mark => True
  | .call =>
    (∃ site, code.ops[address is n]? = some (.pushReturn site) ∧
      site.toNat = calls (is.take n)) ∧
    code.MarkBranchAt is (address is n + 1) .always i.param
  | .jump => code.MarkBranchAt is (address is n) .always i.param
  | .jumpIfZero => code.MarkBranchAt is (address is n) .ifZero i.param
  | .jumpIfNegative => code.MarkBranchAt is (address is n) .ifNegative i.param
  | .ret => code.BranchAt (address is n) .always (dispatcherAddress is)
  | _ => ∃ op, i.op? = some op ∧ code.ops[address is n]? = some op

/-- Entry `k` leads to behind the call that has `k` calls before it. -/
structure Dispatches (is : List Instruction) (table : Array Int32) : Prop where
  size : table.size = calls is
  entry : ∀ {k offset}, table[k]? = some offset →
    ∃ n i, is[n]? = some i ∧ i.opcode = .call ∧ calls (is.take n) = k ∧
      (dispatcherAddress is : Int) + offset.toInt = address is n + 2
  increasing : ∀ {j k : Nat} {a b : Int32}, table[j]? = some a → table[k]? = some b → j < k → a < b

/-- The code is laid out from these instructions. -/
structure LaidOut (is : List Instruction) (code : Code) : Prop where
  size : code.ops.size = dispatcherAddress is + if dispatches is then 1 else 0
  lowered : ∀ {n i}, is[n]? = some i → code.LoweredAt is n i
  halt : code.ops[address is is.length]? = some .halt
  dispatcher : code.dispatcher.map UInt64.toNat =
    if dispatches is then some (dispatcherAddress is) else none
  dispatch : dispatches is = true →
    ∃ table, code.ops[dispatcherAddress is]? = some (.dispatch table) ∧ Dispatches is table
  returnSites : code.returnSites.toNat = calls is
  sourceInstructions : code.sourceInstructions = is.length.toUInt64

end Code

theorem Code.branchAt {code : Code} (hsize : code.ops.size < 2 ^ 31) {a b : Nat}
    {kind : BranchKind} (hop : code.ops[a]? = some (kind.op (Lowering.relative a b)))
    (hb : b ≤ code.ops.size) : code.BranchAt a kind b := by
  have ha := (Array.getElem?_eq_some_iff.mp hop).1
  refine ⟨_, hop, ?_⟩
  rw [toInt_relative (by omega) (by omega)]
  omega

namespace Compiled

variable {is : List Instruction} {code : Code}

theorem dispatcherAddress_le (hc : Compiled is code) : dispatcherAddress is ≤ code.ops.size := by
  rw [hc.size_ops]
  exact Nat.le_add_right _ _

theorem plain_at (hc : Compiled is code) {n : Nat} {i : Instruction} {op : Op}
    (hi : is[n]? = some i) (hop : i.op? = some op) : code.ops[address is n]? = some op := by
  have hdraft : (draft (calls (is.take n)) i)[0]? = some (.op op) := by rw [draft_of_op? hop]; rfl
  exact hc.op_at hi hdraft

section Placed

variable (hc : Compiled is code) (hsize : code.ops.size < 2 ^ 31)
include hc hsize

theorem markBranchAt (hsingle : SingleMarks is) {n j : Nat} {i : Instruction} {kind : BranchKind}
    {l : BitString} (hi : is[n]? = some i)
    (hd : (draft (calls (is.take n)) i)[j]? = some (.branch kind (.label l))) :
    code.MarkBranchAt is (address is n + j) kind (some l) := by
  obtain ⟨m, hm⟩ := hc.mark_of_branch hi (List.mem_of_getElem? hd)
  have hop := hc.op_at hi hd
  have hlands : lands is (.label l) = address is m := by simp [lands, place?, hm]
  rw [Draft.resolve, hlands] at hop
  have hle := Nat.le_of_lt (hc.address_lt_size (Nat.le_of_lt (markIndex?_lt hm)))
  exact ⟨l, m, rfl, hsingle.onlyMark hm, Code.branchAt hsize hop hle⟩

theorem retBranchAt {n : Nat} {i : Instruction} (hi : is[n]? = some i) (hop : i.opcode = .ret) :
    code.BranchAt (address is n) .always (dispatcherAddress is) := by
  have hjump := hc.op_at (j := 0) (d := .branch .always .dispatcher) hi (by simp [draft, hop])
  exact Code.branchAt hsize hjump hc.dispatcherAddress_le

theorem loweredAt (hsingle : SingleMarks is) {n : Nat} {i : Instruction} (hi : is[n]? = some i) :
    code.LoweredAt is n i := by
  have hcomplete := hc.complete i (List.mem_of_getElem? hi)
  unfold Code.LoweredAt
  cases hop : i.opcode with
  | mark => trivial
  | call =>
    rw [Instruction.Complete, hop] at hcomplete
    obtain ⟨l, hparam⟩ := hcomplete
    have hpush := hc.op_at (j := 0) (d := .op (.pushReturn (calls (is.take n)).toUInt32)) hi
      (by simp [draft, hop])
    rw [hparam]
    refine ⟨⟨_, hpush, hc.toNat_calls_take hsize n⟩, ?_⟩
    exact hc.markBranchAt hsize hsingle hi (by simp [draft, hop, Instruction.label, hparam])
  | jump | jumpIfZero | jumpIfNegative =>
    rw [Instruction.Complete, hop] at hcomplete
    obtain ⟨l, hparam⟩ := hcomplete
    rw [hparam]
    exact hc.markBranchAt (j := 0) hsize hsingle hi
      (by simp [draft, hop, Instruction.label, hparam])
  | ret => exact hc.retBranchAt hsize hi hop
  | _ =>
    cases hcomplete.form with
    | plain hop' => exact ⟨_, hop', hc.plain_at hi hop'⟩
    | mark hop' | call hop' | ret hop' => cases hop.symm.trans hop'
    | branch hop' => rw [hop] at hop'; cases hop'

/-- The entries of the table, in terms of the calls they belong to. -/
theorem entry_of_table {k : Nat} {offset : Int32} (h : (table is)[k]? = some offset) :
    ∃ n i, is[n]? = some i ∧ i.opcode = .call ∧ calls (is.take n) = k ∧
      (dispatcherAddress is : Int) + offset.toInt = address is n + 2 := by
  obtain ⟨r, hr, rfl⟩ : ∃ r, (returnIndices is)[k]? = some r ∧
      Lowering.relative (dispatcherAddress is) (address is r) = offset := by
    simpa [table] using h
  obtain ⟨n, i, rfl, hi, hop, hcalls⟩ := call_of_returnIndices hr
  have hnext := address_after_call hi hop
  have hlt : address is (n + 1) < code.ops.size :=
    hc.address_lt_size (List.getElem?_eq_some_iff.mp hi).1
  have hle := hc.dispatcherAddress_le
  refine ⟨n, i, hi, hop, hcalls, ?_⟩
  rw [toInt_relative (by omega) (by omega), hnext]
  omega

theorem dispatches_table : Code.Dispatches is (table is).toArray := by
  have hentry : ∀ {k offset}, (table is).toArray[k]? = some offset → _ :=
    fun h => hc.entry_of_table hsize (by rwa [List.getElem?_toArray] at h)
  refine ⟨by simp [table, length_returnIndices], hentry, fun {j k a b} ha hb hjk => ?_⟩
  obtain ⟨m, i, hi, hop, hm, hma⟩ := hentry ha
  obtain ⟨n, i', hi', _, hn, hnb⟩ := hentry hb
  -- The later call has more calls before it, so it stands behind the earlier one.
  have hmn : m < n := by
    by_contra hle
    have hmono : calls (is.take n) ≤ calls (is.take m) := calls_take_mono (Nat.le_of_not_lt hle)
    omega
  have hnext := address_after_call hi hop
  have hbehind : address is (m + 1) ≤ address is n := address_mono hmn
  rw [Int32.lt_iff_toInt_lt]
  omega

theorem laidOut (hsingle : SingleMarks is) : code.LaidOut is := by
  have hle := hc.dispatcherAddress_le
  have hcalls := hc.toNat_calls_take hsize is.length
  rw [List.take_length] at hcalls
  refine ⟨hc.size_ops, fun hi => hc.loweredAt hsize hsingle hi, hc.halt_at_end, ?_, ?_, ?_,
    hc.sourceInstructions⟩
  · rw [hc.dispatcher]
    split
    · have hsmall : dispatcherAddress is < UInt64.size := by
        simp only [UInt64.size]
        omega
      simp [Nat.mod_eq_of_lt hsmall]
    · rfl
  · intro hd
    exact ⟨_, hc.dispatch_at hd, hc.dispatches_table hsize⟩
  · rw [hc.returnSites, hcalls]

end Placed

end Compiled

/-- Code of fewer than 2³¹ ops has all of its ops where the widths of the instructions put them,
and all branches lead where their labels, returns and return sites are. -/
theorem compile_lays_out {p : Program} {code : Code} (hcompile : p.compile = .ok code)
    (hsize : code.ops.size ≤ 2 ^ 31 - 1) : code.LaidOut p.instructions.toList := by
  have hlt : code.ops.size < 2 ^ 31 := by omega
  exact (compiled_of_compile hcompile).laidOut hlt (singleMarks_of_compile hcompile)

/-- Two calls of a subroutine that stands behind a conditional branch back to the start. -/
def twoCalls : Program where
  instructions := #[⟨.mark, some [.space], 1⟩, ⟨.call, some [.tab], 1⟩, ⟨.call, some [.tab], 1⟩,
    ⟨.jumpIfZero, some [.space], 1⟩, ⟨.mark, some [.tab], 1⟩, ⟨.ret, none, 1⟩]
  labels := ∅

def twoCallsCode : Code where
  ops := #[.pushReturn 0, .jump 4, .pushReturn 1, .jump 2, .jumpIfZero (-4), .jump 2, .halt,
    .dispatch #[-5, -3]]
  returnSites := 2
  dispatcher := some 7
  sourceInstructions := 6

theorem twoCalls_laid_out :
    twoCalls.compile = .ok twoCallsCode ∧ twoCallsCode.ops.size ≤ 2 ^ 31 - 1 ∧
      twoCallsCode.LaidOut twoCalls.instructions.toList := by
  have hcompile : twoCalls.compile = .ok twoCallsCode := by cbv
  exact ⟨hcompile, by decide, compile_lays_out hcompile (by decide)⟩

end Whitespace
