import Whitespace.Code.Census
import Whitespace.Proofs.Confinement

/-!
The census of compiled code counts the instructions it was compiled from. An instruction becomes ops
of its own family, as many as it is wide, and what comes after the instructions is control flow. The
jumps that lead to the dispatcher are the returns, for no label lies behind the final halt.
-/
namespace Whitespace

open Layout

def Opcode.family : Opcode → Family
  | .push | .dup | .swap | .pop => .stack
  | .add | .sub | .mul | .div | .mod => .arithmetic
  | .store | .load => .heap
  | .mark | .call | .jump | .jumpIfZero | .jumpIfNegative | .ret | .halt => .flow
  | .writeChar | .writeNumber | .readChar | .readNumber => .io

namespace Instruction

/-- How many of the instructions have this opcode. -/
def countOf (op : Opcode) (is : List Instruction) : Nat := is.countP (·.opcode == op)

/-- How many of the instructions belong to this family. -/
def countIn (f : Family) (is : List Instruction) : Nat := is.countP (·.opcode.family == f)

theorem family_of_op? {i : Instruction} {op : Op} (h : i.op? = some op) :
    op.family = i.opcode.family := by
  cases hop : i.opcode with
  | push =>
    simp only [op?, hop, Option.bind_eq_some_iff, Option.map_eq_some_iff] at h
    obtain ⟨_, _, n, _, rfl⟩ := h
    rfl
  | mark | call | jump | jumpIfZero | jumpIfNegative | ret => simp [op?, hop] at h
  | _ =>
    rw [op?, hop] at h
    obtain rfl := Option.some.inj h
    rfl

end Instruction

open Instruction (countOf countIn)

namespace Layout

def Draft.family : Draft → Family
  | .op o => o.family
  | .branch _ _ => .flow

variable {is : List Instruction} {i : Instruction} {site : Nat} {d : Draft}

theorem Draft.family_resolve (is : List Instruction) (a : Nat) (d : Draft) :
    (d.resolve is a).family = d.family := by
  cases d with
  | op o => rfl
  | branch kind d => cases kind <;> rfl

/-- What an instruction can be drafted as. -/
inductive Drafted (site : Nat) (i : Instruction) : Draft → Prop where
  | plain {op : Op} (h : i.op? = some op) : Drafted site i (.op op)
  | site (h : i.opcode = .call) : Drafted site i (.op (.pushReturn site.toUInt32))
  | branch (h : i.opcode.family = .flow) (hret : i.opcode ≠ .ret) (kind : BranchKind)
      (l : BitString) : Drafted site i (.branch kind (.label l))
  | ret (h : i.opcode = .ret) : Drafted site i (.branch .always .dispatcher)

theorem drafted_of_mem (h : d ∈ draft site i) : Drafted site i d := by
  cases hop : i.opcode with
  | mark => simp [draft, hop] at h
  | call =>
    have hd : d = .op (.pushReturn site.toUInt32) ∨ d = .branch .always (.label i.label) := by
      simpa [draft, hop] using h
    rcases hd with rfl | rfl
    · exact .site hop
    · exact .branch (hop ▸ rfl) (by simp [hop]) .always i.label
  | jump | jumpIfZero | jumpIfNegative =>
    obtain rfl : d = .branch _ (.label i.label) := by simpa [draft, hop] using h
    exact .branch (hop ▸ rfl) (by simp [hop]) _ i.label
  | ret =>
    obtain rfl : d = .branch .always .dispatcher := by simpa [draft, hop] using h
    exact .ret hop
  | _ =>
    obtain ⟨op, hplain, rfl⟩ : ∃ op, i.op? = some op ∧ Draft.op op = d := by
      simpa [draft, hop] using h
    exact .plain hplain

theorem Drafted.family_eq (h : Drafted site i d) : d.family = i.opcode.family := by
  cases h with
  | plain h => exact Instruction.family_of_op? h
  | site h => rw [h]; rfl
  | branch h => exact h.symm
  | ret h => rw [h]; rfl

theorem mem_drafts (h : d ∈ drafts site is) : ∃ i ∈ is, ∃ k, Drafted k i d := by
  induction is generalizing site with
  | nil => cases h
  | cons i is ih =>
    rcases List.mem_append.mp h with hhead | htail
    · exact ⟨i, List.mem_cons_self, site, drafted_of_mem hhead⟩
    · obtain ⟨j, hj, k, hd⟩ := ih htail
      exact ⟨j, List.mem_cons_of_mem i hj, k, hd⟩

/-- Counting drafts instruction by instruction. -/
theorem countP_drafts {q : Draft → Bool} {weight : Instruction → Nat}
    (h : ∀ i ∈ is, ∀ site, (draft site i).countP q = weight i) (site : Nat) :
    (drafts site is).countP q = (is.map weight).sum := by
  induction is generalizing site with
  | nil => rfl
  | cons i is ih =>
    rw [drafts, List.countP_append, h i List.mem_cons_self,
      ih (fun j hj => h j (List.mem_cons_of_mem i hj)), List.map_cons, List.sum_cons]

theorem sum_indicator (p : Instruction → Bool) (is : List Instruction) :
    (is.map fun i => if p i then 1 else 0).sum = is.countP p := by
  induction is with
  | nil => rfl
  | cons i is ih => rw [List.map_cons, List.sum_cons, ih, List.countP_cons, Nat.add_comm]

/-- How many ops of a family the instructions take up. -/
def widthIn (f : Family) (is : List Instruction) : Nat :=
  (is.map fun i => if i.opcode.family == f then i.opcode.width else 0).sum

theorem countP_family_draft (h : i.Complete) (f : Family) (site : Nat) :
    (draft site i).countP (·.family == f) =
      if i.opcode.family == f then i.opcode.width else 0 := by
  have hfamily : ∀ d ∈ draft site i, d.family = i.opcode.family :=
    fun d hd => (drafted_of_mem hd).family_eq
  split
  · next hf =>
    rw [← length_draft h site, List.countP_eq_length]
    intro d hd
    rw [hfamily d hd]
    exact hf
  · next hf =>
    rw [List.countP_eq_zero]
    intro d hd
    rw [hfamily d hd]
    exact hf

theorem countP_family_drafts (h : ∀ i ∈ is, i.Complete) (f : Family) :
    (drafts 0 is).countP (·.family == f) = widthIn f is :=
  countP_drafts (fun i hi => countP_family_draft (h i hi) f) 0

theorem widthIn_of_ne_flow {f : Family} (hf : f ≠ .flow) : widthIn f is = countIn f is := by
  rw [countIn, ← sum_indicator, widthIn]
  congr 2
  funext i
  split
  · next hi =>
    -- Only control flow is wider or narrower than one op.
    cases hop : i.opcode with
    | mark | call =>
      rw [hop] at hi
      exact absurd (beq_iff_eq.mp hi).symm hf
    | _ => rfl
  · rfl

theorem widthIn_flow (is : List Instruction) :
    widthIn .flow is = 2 * countOf .call is + (countOf .jump is + countOf .jumpIfZero is +
      countOf .jumpIfNegative is + countOf .ret is + countOf .halt is) := by
  induction is with
  | nil => rfl
  | cons i is ih =>
    simp only [widthIn, countOf, List.map_cons, List.sum_cons, List.countP_cons] at ih ⊢
    rw [ih]
    cases i.opcode <;> simp [Opcode.family, Opcode.width] <;> omega

/-- Counting ops, with their addresses, by what they were drafted as. -/
theorem countP_zipIdx_ops {p : Op × Nat → Bool} {q : Draft → Bool}
    (h : ∀ d a, (d, a) ∈ (drafts 0 is).zipIdx → p (d.resolve is a, a) = q d) :
    (ops is).zipIdx.countP p =
      (drafts 0 is).countP q + ((ending is).zipIdx (drafts 0 is).length).countP p := by
  have hdrafts : ((drafts 0 is).mapIdx (Draft.resolve is)).zipIdx =
      (drafts 0 is).zipIdx.map fun x => (x.1.resolve is x.2, x.2) := by
    apply List.ext_getElem?
    intro a
    simp only [List.getElem?_zipIdx, List.getElem?_mapIdx, List.getElem?_map]
    cases (drafts 0 is)[a]? <;> simp
  have hfst : (drafts 0 is).countP q = (drafts 0 is).zipIdx.countP fun x => q x.1 := by
    conv_lhs => rw [← List.zipIdx_map_fst 0 (drafts 0 is), List.countP_map]
    rfl
  rw [ops, List.zipIdx_append, List.countP_append, List.length_mapIdx, Nat.zero_add, hdrafts,
    List.countP_map, hfst]
  congr 1
  apply List.countP_congr
  rintro ⟨d, a⟩ hmem
  rw [Function.comp_apply, h d a hmem]

theorem countP_ops {p : Op → Bool} {q : Draft → Bool}
    (h : ∀ d a, d ∈ drafts 0 is → p (d.resolve is a) = q d) :
    (ops is).countP p = (drafts 0 is).countP q + (ending is).countP p := by
  have hcount := countP_zipIdx_ops (p := fun x => p x.1) (q := q)
    fun d a (hmem : (d, a) ∈ (drafts 0 is).zipIdx) => h d a (List.fst_mem_of_mem_zipIdx hmem)
  have hfst : ∀ (l : List Op) (n : Nat), (l.zipIdx n).countP (fun x => p x.1) = l.countP p := by
    intro l n
    conv_rhs => rw [← List.zipIdx_map_fst n l, List.countP_map]
    rfl
  rwa [hfst, hfst] at hcount

theorem mem_ending {op : Op} (h : op ∈ ending is) : op = .halt ∨ ∃ t, op = .dispatch t := by
  rcases List.mem_cons.mp h with rfl | h
  · exact .inl rfl
  · split at h
    · exact .inr ⟨_, List.mem_singleton.mp h⟩
    · cases h

/-- No label lies behind the final halt. -/
theorem lands_label_lt (is : List Instruction) (l : BitString) :
    lands is (.label l) < dispatcherAddress is := by
  change ((Instruction.markIndex? is l).map (address is)).getD 0 < address is is.length + 1
  cases hm : Instruction.markIndex? is l with
  | none => exact Nat.succ_pos _
  | some m => exact Nat.lt_succ_of_le (address_mono (Nat.le_of_lt (markIndex?_lt hm)))

/-- Whether the draft will be a jump to the dispatcher. -/
def Draft.isReturn : Draft → Bool
  | .branch .always .dispatcher => true
  | _ => false

/-- Whether the draft will push the number of a return site. -/
def Draft.isCall : Draft → Bool
  | .op (.pushReturn _) => true
  | _ => false

theorem countP_isReturn_drafts (is : List Instruction) :
    (drafts 0 is).countP Draft.isReturn = countOf .ret is := by
  rw [countOf, ← sum_indicator]
  refine countP_drafts (fun i _ site => ?_) 0
  split
  · next hret =>
    have hdraft : draft site i = [.branch .always .dispatcher] := by simp [draft, beq_iff_eq.mp hret]
    rw [hdraft]
    rfl
  · next hret =>
    rw [List.countP_eq_zero]
    intro d hd
    cases drafted_of_mem hd with
    | ret h => exact absurd (beq_iff_eq.mpr h) hret
    | branch h hret kind l => cases kind <;> exact Bool.false_ne_true
    | _ => exact Bool.false_ne_true

theorem countP_isCall_drafts (is : List Instruction) :
    (drafts 0 is).countP Draft.isCall = countOf .call is := by
  rw [countOf, ← sum_indicator]
  refine countP_drafts (fun i _ site => ?_) 0
  split
  · next hcall =>
    have hdraft : draft site i =
        [.op (.pushReturn site.toUInt32), .branch .always (.label i.label)] := by
      simp [draft, beq_iff_eq.mp hcall]
    rw [hdraft]
    rfl
  · next hcall =>
    rw [List.countP_eq_zero]
    intro d hd
    cases drafted_of_mem hd with
    | @plain op h =>
      cases op with
      | pushReturn site => cases Instruction.op?_of_flow h rfl
      | _ => exact Bool.false_ne_true
    | site h => exact absurd (beq_iff_eq.mpr h) hcall
    | _ => exact Bool.false_ne_true

end Layout

namespace Census

variable {is : List Instruction} {code : Code} {d : Draft} {a : Nat}

theorem isCall_resolve (is : List Instruction) (a : Nat) (d : Draft) :
    isCall (d.resolve is a) = d.isCall := by
  cases d with
  | op o => cases o <;> rfl
  | branch kind d => cases kind <;> rfl

theorem isReturn_none (op : Op) (a : Nat) : isReturn none op a = false := by
  cases op <;> rfl

theorem isReturn_jump {D : UInt64} {b : Nat} (ha : a < 2 ^ 31) (hb : b < 2 ^ 31) :
    isReturn (some D) (.jump (Lowering.relative a b)) a = decide (b = D.toNat) := by
  have htarget : Op.target a (Lowering.relative a b) % 18446744073709551616 = b := by
    rw [Op.target, toInt_relative ha hb]
    omega
  rw [isReturn, htarget, Bool.eq_iff_iff, beq_iff_eq, decide_eq_true_iff]
  exact Int.ofNat_inj

theorem isReturn_resolve {D : UInt64} (hD : D.toNat = dispatcherAddress is)
    (hsize : dispatcherAddress is < 2 ^ 31) (ha : a < 2 ^ 31) (hd : d ∈ drafts 0 is) :
    isReturn (some D) (d.resolve is a) a = d.isReturn := by
  obtain ⟨i, _, k, hdrafted⟩ := mem_drafts hd
  cases hdrafted with
  | @plain op h =>
    cases op with
    | jump offset => cases Instruction.op?_of_flow h rfl
    | _ => rfl
  | site h => rfl
  | branch h hret kind l =>
    cases kind with
    | always =>
      have hlt := lands_label_lt is l
      rw [Draft.resolve, BranchKind.op, isReturn_jump ha (by omega), hD,
        decide_eq_false (Nat.ne_of_lt hlt)]
      rfl
    | ifZero | ifNegative => rfl
  | ret h =>
    change isReturn (some D) (.jump (Lowering.relative a (dispatcherAddress is))) a = true
    rw [isReturn_jump ha hsize, hD, decide_eq_true rfl]

/-- Every op is counted in one family. -/
theorem total_ofCode (code : Code) :
    (ofCode code).stack + (ofCode code).arithmetic + (ofCode code).heap + (ofCode code).flow +
      (ofCode code).io = code.ops.size := by
  rw [← Array.length_toList]
  simp only [ofCode]
  induction code.ops.toList with
  | nil => rfl
  | cons op ops ih =>
    simp only [List.countP_cons, List.length_cons] at ih ⊢
    cases op.family <;> simp <;> omega

/-- The census counts what the instructions say: which calls and returns there are, each family as
often as the program has it, and in control flow two ops for a call, none for a mark, the final halt
and the dispatcher, if there is one. -/
structure Reflects (is : List Instruction) (code : Code) (c : Census) : Prop where
  calls : c.calls = countOf .call is
  returnSites : code.returnSites.toNat = c.calls
  returns : c.returns = countOf .ret is
  stack : c.stack = countIn .stack is
  arithmetic : c.arithmetic = countIn .arithmetic is
  heap : c.heap = countIn .heap is
  io : c.io = countIn .io is
  flow : c.flow = 2 * c.calls + (countOf .jump is + countOf .jumpIfZero is +
    countOf .jumpIfNegative is + countOf .ret is + countOf .halt is) + 1 +
      if code.dispatcher.isSome then 1 else 0
  total : c.stack + c.arithmetic + c.heap + c.flow + c.io = code.ops.size

end Census

namespace Compiled

variable {is : List Instruction} {code : Code} (hc : Compiled is code)
include hc

theorem isSome_dispatcher : code.dispatcher.isSome = dispatches is := by
  rw [hc.dispatcher]
  cases dispatches is <;> rfl

theorem countP_isCall : code.ops.toList.countP Census.isCall = countOf .call is := by
  have hending : (ending is).countP Census.isCall = 0 := by
    rw [ending]
    split <;> rfl
  rw [hc.ops, countP_ops fun d a _ => Census.isCall_resolve is a d, hending,
    countP_isCall_drafts, Nat.add_zero]

theorem countP_family (f : Family) :
    code.ops.toList.countP (·.family == f) =
      widthIn f is + (ending is).countP (·.family == f) := by
  rw [hc.ops, countP_ops fun d a _ => congrArg (· == f) (d.family_resolve is a),
    countP_family_drafts hc.complete]

theorem countP_family_of_ne {f : Family} (hf : f ≠ .flow) :
    code.ops.toList.countP (·.family == f) = countIn f is := by
  have hending : (ending is).countP (·.family == f) = 0 := by
    rw [List.countP_eq_zero]
    intro op hop
    have hflow : op.family = .flow := by
      rcases mem_ending hop with rfl | ⟨t, rfl⟩ <;> rfl
    rw [hflow, beq_iff_eq]
    exact hf.symm
  rw [hc.countP_family, hending, widthIn_of_ne_flow hf, Nat.add_zero]

theorem countP_flow :
    code.ops.toList.countP (·.family == .flow) =
      widthIn .flow is + 1 + if code.dispatcher.isSome then 1 else 0 := by
  have hending : (ending is).countP (·.family == .flow) = 1 + if dispatches is then 1 else 0 := by
    rw [ending]
    split <;> rfl
  rw [hc.countP_family, hending, hc.isSome_dispatcher, Nat.add_assoc]

theorem countP_isReturn (hsize : code.ops.size < 2 ^ 31) :
    (code.ops.toList.zipIdx.countP fun x => Census.isReturn code.dispatcher x.1 x.2) =
      countOf .ret is := by
  have hle := hc.dispatcherAddress_le
  cases hd : dispatches is with
  | false =>
    have hnone : code.dispatcher = none := by rw [hc.dispatcher, hd]; rfl
    have hnoRet : countOf .ret is = 0 := by
      rw [countOf, List.countP_eq_zero]
      intro i hi hret
      have hquiet := List.any_eq_false.mp hd i hi
      exact hquiet (by rw [hret, Bool.or_true])
    rw [hnone, hnoRet, List.countP_eq_zero]
    intro x _
    rw [Census.isReturn_none]
    exact Bool.false_ne_true
  | true =>
    have hD : (dispatcherAddress is).toUInt64.toNat = dispatcherAddress is :=
      UInt64.toNat_ofNat_of_lt' (by simp only [UInt64.size]; omega)
    have hdrafts : ∀ d a, (d, a) ∈ (drafts 0 is).zipIdx →
        Census.isReturn (some (dispatcherAddress is).toUInt64) (d.resolve is a) a = d.isReturn := by
      intro d a hmem
      have ha := List.snd_lt_of_mem_zipIdx hmem
      rw [length_drafts hc.complete] at ha
      have hend := hc.address_lt_size (Nat.le_refl is.length)
      exact Census.isReturn_resolve hD (by omega) (by omega) (List.fst_mem_of_mem_zipIdx hmem)
    have hending : ((ending is).zipIdx (drafts 0 is).length).countP (fun x =>
        Census.isReturn (some (dispatcherAddress is).toUInt64) x.1 x.2) = 0 := by
      rw [List.countP_eq_zero]
      rintro ⟨op, a⟩ hmem
      rcases mem_ending (List.fst_mem_of_mem_zipIdx hmem) with rfl | ⟨t, rfl⟩ <;>
        exact Bool.false_ne_true
    rw [hc.dispatcher, hd, if_pos rfl, hc.ops, countP_zipIdx_ops hdrafts, hending,
      countP_isReturn_drafts, Nat.add_zero]

theorem reflects (hsize : code.ops.size < 2 ^ 31) : (Census.ofCode code).Reflects is code := by
  have hcalls : (Census.ofCode code).calls = countOf .call is := hc.countP_isCall
  refine ⟨hcalls, ?_, hc.countP_isReturn hsize, hc.countP_family_of_ne nofun,
    hc.countP_family_of_ne nofun, hc.countP_family_of_ne nofun, hc.countP_family_of_ne nofun, ?_,
    Census.total_ofCode code⟩
  · have hnat := hc.toNat_calls_take hsize is.length
    rw [List.take_length, ← hc.returnSites] at hnat
    rw [hnat, hcalls]
    rfl
  · rw [hcalls, ← widthIn_flow]
    exact hc.countP_flow

end Compiled

/-- The census of compiled code of fewer than 2³¹ ops counts the instructions of the program. -/
theorem compile_keeps_census {p : Program} {code : Code} (hcompile : p.compile = .ok code)
    (hsize : code.ops.size ≤ 2 ^ 31 - 1) :
    (Census.ofCode code).Reflects p.instructions.toList code :=
  (compiled_of_compile hcompile).reflects (by omega)

/-- A call and a jump to a label at the very end, which is the op before the dispatcher, and two
returns that nothing leads to. -/
def lastLabel : Program where
  instructions := #[⟨.push, some [.space, .tab], 1⟩, ⟨.writeNumber, none, 1⟩,
    ⟨.call, some [.tab], 1⟩, ⟨.jump, some [.tab], 1⟩, ⟨.ret, none, 1⟩, ⟨.ret, none, 1⟩,
    ⟨.mark, some [.tab], 1⟩]
  labels := ∅

def lastLabelCode : Code where
  ops := #[.push 1, .writeNumber, .pushReturn 0, .jump 4, .jump 3, .jump 3, .jump 2, .halt,
    .dispatch #[-4]]
  returnSites := 1
  dispatcher := some 8
  sourceInstructions := 7

theorem lastLabel_census :
    lastLabel.compile = .ok lastLabelCode ∧ lastLabelCode.ops.size ≤ 2 ^ 31 - 1 ∧
      Census.ofCode lastLabelCode = ⟨1, 0, 0, 7, 1, 1, 2⟩ ∧
      (Census.ofCode lastLabelCode).Reflects lastLabel.instructions.toList lastLabelCode := by
  have hcompile : lastLabel.compile = .ok lastLabelCode := by cbv
  exact ⟨hcompile, by decide, by decide +kernel, compile_keeps_census hcompile (by decide)⟩

end Whitespace
