import Whitespace.Code.Lowering
import Whitespace.Proofs.Interpreter

/-!
The layout of compiled code, said directly and without targets or fixups. Each instruction takes up
a fixed number of ops, so the address of an instruction is a sum over those before it, and a
destination lies where its instruction does. `Layout.ops` is the code of a program in these terms.
-/
namespace Whitespace

/-- How many ops an instruction takes up. -/
def Opcode.width : Opcode → Nat
  | .mark => 0
  | .call => 2
  | _ => 1

/-- The branch of a jump to a label. -/
def Opcode.branchKind? : Opcode → Option BranchKind
  | .jump => some .always
  | .jumpIfZero => some .ifZero
  | .jumpIfNegative => some .ifNegative
  | _ => none

theorem Opcode.branchKind?_ne {op : Opcode} {kind : BranchKind} (h : op.branchKind? = some kind) :
    op.paramKind = .label ∧ op ≠ .mark ∧ op ≠ .call ∧ op ≠ .ret := by
  cases op with
  | jump | jumpIfZero | jumpIfNegative => simp [paramKind]
  | _ => cases h

namespace Instruction

/-- The label of a mark, a call or a branch. -/
def label (i : Instruction) : BitString := i.param.getD []

/-- Whether the instruction has the literal it needs, and that literal is no number too wide. -/
def Complete (i : Instruction) : Prop :=
  match i.opcode.paramKind with
  | .none => True
  | .number => ∃ bits n, i.param = some bits ∧ bits.toNumber = .ok n
  | .label => ∃ label, i.param = some label

def isCall (i : Instruction) : Bool := i.opcode == .call

theorem op?_ne {i : Instruction} {op : Op} (h : i.op? = some op) :
    i.opcode ≠ .mark ∧ i.opcode ≠ .call ∧ i.opcode ≠ .ret := by
  refine ⟨?_, ?_, ?_⟩
  · intro hop; simp [op?, hop] at h
  · intro hop; simp [op?, hop] at h
  · intro hop; simp [op?, hop] at h

theorem complete_of_op? {i : Instruction} {op : Op} (h : i.op? = some op) :
    i.Complete := by
  unfold Complete
  cases hop : i.opcode with
  | push =>
    simp only [op?, hop, Option.bind_eq_some_iff, Option.map_eq_some_iff] at h
    obtain ⟨bits, hparam, n, hnumber, _⟩ := h
    cases hn : bits.toNumber with
    | error e => rw [hn] at hnumber; cases hnumber
    | ok m => exact ⟨bits, m, hparam, hn⟩
  | mark => simp [op?, hop] at h
  | call => simp [op?, hop] at h
  | jump => simp [op?, hop] at h
  | jumpIfZero => simp [op?, hop] at h
  | jumpIfNegative => simp [op?, hop] at h
  | _ => trivial

theorem width_of_op? {i : Instruction} {op : Op} (h : i.op? = some op) : i.opcode.width = 1 := by
  obtain ⟨hmark, hcall, _⟩ := op?_ne h
  cases hop : i.opcode with
  | mark => exact absurd hop hmark
  | call => exact absurd hop hcall
  | _ => rfl

end Instruction

namespace Layout

open Instruction (markIndex?)

/-- Where a branch or a return may lead. -/
inductive Destination where
  | label (label : BitString)
  | site (number : Nat)
  | dispatcher
  deriving DecidableEq, Repr

/-- An op whose destination has no address yet. -/
inductive Draft where
  | op (op : Op)
  | branch (kind : BranchKind) (destination : Destination)
  deriving DecidableEq, Repr

/-- The address of the instruction with this index; one beyond the last is the end. -/
def address (is : List Instruction) (index : Nat) : Nat :=
  ((is.take index).map (·.opcode.width)).sum

def calls (is : List Instruction) : Nat := is.countP Instruction.isCall

/-- The indices of the instructions to which the calls return, in the order of the calls. -/
def returnIndices (is : List Instruction) : List Nat :=
  (is.zipIdx.filter (·.1.isCall)).map (·.2 + 1)

/-- Where a destination lies, as far as these instructions tell. -/
def place? (is : List Instruction) : Destination → Option Nat
  | .label label => (markIndex? is label).map (address is)
  | .site number => (returnIndices is)[number]?.map (address is)
  | .dispatcher => none

/-- The ops of one instruction; `site` is the number of calls before it. -/
def draft (site : Nat) (i : Instruction) : List Draft :=
  match i.opcode with
  | .mark => []
  | .call => [.op (.pushReturn site.toUInt32), .branch .always (.label i.label)]
  | .jump => [.branch .always (.label i.label)]
  | .jumpIfZero => [.branch .ifZero (.label i.label)]
  | .jumpIfNegative => [.branch .ifNegative (.label i.label)]
  | .ret => [.branch .always .dispatcher]
  | _ => i.op?.toList.map .op

/-- The ops of all instructions, the first call being number `site`. -/
def drafts (site : Nat) : List Instruction → List Draft
  | [] => []
  | i :: is => draft site i ++ drafts (site + calls [i]) is

/-- The address of the dispatcher, after the final halt. -/
def dispatcherAddress (is : List Instruction) : Nat := address is is.length + 1

/-- The address of a destination in the whole code. -/
def lands (is : List Instruction) : Destination → Nat
  | .dispatcher => dispatcherAddress is
  | d => (place? is d).getD 0

def Draft.resolve (is : List Instruction) (address : Nat) : Draft → Op
  | .op o => o
  | .branch kind d => kind.op (Lowering.relative address (lands is d))

/-- Whether the code has a dispatcher. -/
def dispatches (is : List Instruction) : Bool :=
  is.any fun i => i.opcode == .call || i.opcode == .ret

def table (is : List Instruction) : List Int32 :=
  (returnIndices is).map fun n => Lowering.relative (dispatcherAddress is) (address is n)

/-- What comes after the ops of the instructions. -/
def ending (is : List Instruction) : List Op :=
  .halt :: if dispatches is then [.dispatch (table is).toArray] else []

def ops (is : List Instruction) : List Op :=
  (drafts 0 is).mapIdx (Draft.resolve is) ++ ending is

theorem address_succ {is : List Instruction} {n : Nat} {i : Instruction} (h : is[n]? = some i) :
    address is (n + 1) = address is n + i.opcode.width := by
  simp [address, List.take_add_one, h]

/-- What comes later does not move what is there. -/
theorem address_append {is : List Instruction} {n : Nat} (h : n ≤ is.length)
    (later : List Instruction) : address (is ++ later) n = address is n := by
  simp [address, List.take_append_of_le_length h]

theorem address_mono {is : List Instruction} {m n : Nat} (h : m ≤ n) :
    address is m ≤ address is n := by
  obtain ⟨k, rfl⟩ := Nat.exists_eq_add_of_le h
  simp only [address, List.take_add, List.map_append, List.sum_append]
  omega

theorem calls_append (is later : List Instruction) :
    calls (is ++ later) = calls is + calls later := List.countP_append

theorem calls_take_le (is : List Instruction) (n : Nat) : calls (is.take n) ≤ calls is := by
  conv_rhs => rw [← List.take_append_drop n is, calls_append]
  exact Nat.le_add_right _ _

theorem calls_le_address (is : List Instruction) : calls is ≤ address is is.length := by
  induction is with
  | nil => exact Nat.le_refl 0
  | cons i is ih =>
    have hi : calls [i] ≤ i.opcode.width := by
      cases hop : i.opcode <;> simp [calls, Instruction.isCall, hop, Opcode.width]
    have hcons : address (i :: is) (i :: is).length = i.opcode.width + address is is.length := by
      simp [address]
    rw [hcons, ← List.singleton_append, calls_append]
    exact Nat.add_le_add hi ih

theorem markIndex?_lt {is : List Instruction} {label : BitString} {n : Nat}
    (h : markIndex? is label = some n) : n < is.length :=
  (List.findIdx?_eq_some_iff_getElem.mp h).1

theorem markIndex?_concat (is : List Instruction) (i : Instruction) (label : BitString) :
    markIndex? (is ++ [i]) label =
      (markIndex? is label).or (if i.marks label then some is.length else none) := by
  unfold markIndex?
  rw [List.findIdx?_append]
  cases h : i.marks label <;> simp [List.findIdx?_cons, h]

theorem returnIndices_concat (is : List Instruction) (i : Instruction) :
    returnIndices (is ++ [i]) =
      returnIndices is ++ if i.isCall then [is.length + 1] else [] := by
  unfold returnIndices
  rw [List.zipIdx_append, List.filter_append, List.map_append]
  cases h : i.isCall <;> simp [h]

theorem length_returnIndices (is : List Instruction) : (returnIndices is).length = calls is := by
  induction is using List.reverseRecOn with
  | nil => rfl
  | append_singleton is i ih =>
    rw [returnIndices_concat, List.length_append, ih, calls_append]
    cases h : i.isCall <;> simp [calls, h]

theorem le_of_mem_returnIndices {is : List Instruction} {n : Nat} (h : n ∈ returnIndices is) :
    n ≤ is.length := by
  obtain ⟨⟨i, k⟩, hmem, rfl⟩ := List.mem_map.mp h
  have hlt := List.snd_lt_of_mem_zipIdx (List.mem_filter.mp hmem).1
  exact Nat.succ_le_of_lt (by simpa using hlt)

/-- The return site of a call has as its number the count of the calls before it. -/
theorem returnIndices_of_call {is : List Instruction} {n : Nat} {i : Instruction}
    (h : is[n]? = some i) (hcall : i.isCall = true) :
    (returnIndices is)[calls (is.take n)]? = some (n + 1) := by
  induction is using List.reverseRecOn with
  | nil => simp at h
  | append_singleton is j ih =>
    rw [returnIndices_concat]
    rcases Nat.lt_or_ge n is.length with hlt | hge
    · rw [List.getElem?_append_left hlt] at h
      have hsite := ih h
      rw [List.take_append_of_le_length (Nat.le_of_lt hlt),
        List.getElem?_append_left (List.getElem?_eq_some_iff.mp hsite).1]
      exact hsite
    · rw [List.getElem?_append_right hge] at h
      obtain ⟨hn, rfl⟩ : n - is.length = 0 ∧ j = i := by
        cases hk : n - is.length with
        | zero => rw [hk] at h; exact ⟨rfl, Option.some.inj h⟩
        | succ k => rw [hk] at h; simp at h
      obtain rfl : n = is.length := by omega
      rw [List.take_left, ← length_returnIndices, List.getElem?_append_right (Nat.le_refl _)]
      simp [hcall]

theorem drafts_append (site : Nat) (is later : List Instruction) :
    drafts site (is ++ later) = drafts site is ++ drafts (site + calls is) later := by
  induction is generalizing site with
  | nil => simp [drafts, calls]
  | cons i is ih =>
    rw [List.cons_append, drafts, drafts, ih, List.append_assoc, Nat.add_assoc, ← calls_append]
    rfl

theorem draft_of_op? {i : Instruction} {op : Op} (h : i.op? = some op) (site : Nat) :
    draft site i = [.op op] := by
  cases hop : i.opcode with
  | mark => simp [Instruction.op?, hop] at h
  | call => simp [Instruction.op?, hop] at h
  | jump => simp [Instruction.op?, hop] at h
  | jumpIfZero => simp [Instruction.op?, hop] at h
  | jumpIfNegative => simp [Instruction.op?, hop] at h
  | ret => simp [Instruction.op?, hop] at h
  | _ => simp [draft, hop, h]

theorem draft_of_branchKind? {i : Instruction} {kind : BranchKind}
    (h : i.opcode.branchKind? = some kind) (site : Nat) :
    draft site i = [.branch kind (.label i.label)] := by
  cases hop : i.opcode with
  | jump => rw [hop] at h; cases h; simp [draft, hop]
  | jumpIfZero => rw [hop] at h; cases h; simp [draft, hop]
  | jumpIfNegative => rw [hop] at h; cases h; simp [draft, hop]
  | _ => rw [hop] at h; cases h

theorem length_draft {i : Instruction} (h : i.Complete) (site : Nat) :
    (draft site i).length = i.opcode.width := by
  unfold Instruction.Complete at h
  cases hop : i.opcode with
  | push =>
    rw [hop] at h
    obtain ⟨bits, n, hparam, hnumber⟩ := h
    simp [draft, hop, Instruction.op?, hparam, hnumber, Except.toOption, Opcode.width]
  | _ => simp [draft, hop, Instruction.op?, Opcode.width]

theorem length_drafts {is : List Instruction} (h : ∀ i ∈ is, i.Complete) (site : Nat) :
    (drafts site is).length = address is is.length := by
  induction is generalizing site with
  | nil => rfl
  | cons i is ih =>
    have his := ih (fun j hj => h j (List.mem_cons_of_mem i hj)) (site + calls [i])
    rw [drafts, List.length_append, length_draft (h i List.mem_cons_self), his]
    simp [address]

theorem drafts_split {is : List Instruction} {n : Nat} {i : Instruction} (h : is[n]? = some i) :
    ∃ later, drafts 0 is = drafts 0 (is.take n) ++ (draft (calls (is.take n)) i ++ later) := by
  obtain ⟨hlt, rfl⟩ := List.getElem?_eq_some_iff.mp h
  refine ⟨drafts (calls (is.take n) + calls [is[n]]) (is.drop (n + 1)), ?_⟩
  conv_lhs => rw [← List.take_append_drop n is, List.drop_eq_getElem_cons hlt]
  rw [drafts_append, drafts, Nat.zero_add]

section Complete

variable {is : List Instruction} (hcomplete : ∀ i ∈ is, i.Complete)
include hcomplete

theorem length_drafts_take {n : Nat} (h : n ≤ is.length) :
    (drafts 0 (is.take n)).length = address is n := by
  rw [length_drafts fun i hi => hcomplete i (List.mem_of_mem_take hi), List.length_take_of_le h,
    address, address, List.take_take, Nat.min_self]

theorem getElem?_ops {n j : Nat} {i : Instruction} {d : Draft} (h : is[n]? = some i)
    (hd : (draft (calls (is.take n)) i)[j]? = some d) :
    (ops is)[address is n + j]? = some (d.resolve is (address is n + j)) := by
  obtain ⟨later, hsplit⟩ := drafts_split h
  have hlen := length_drafts_take hcomplete (Nat.le_of_lt (List.getElem?_eq_some_iff.mp h).1)
  have hdraft : (drafts 0 is)[address is n + j]? = some d := by
    rw [hsplit, ← hlen, List.getElem?_append_right (Nat.le_add_right _ _), Nat.add_sub_cancel_left,
      List.getElem?_append_left (List.getElem?_eq_some_iff.mp hd).1]
    exact hd
  have hlt := (List.getElem?_eq_some_iff.mp hdraft).1
  rw [ops, List.getElem?_append_left (by simpa using hlt), List.getElem?_mapIdx, hdraft]
  rfl

theorem getElem?_ops_ending (j : Nat) :
    (ops is)[address is is.length + j]? = (ending is)[j]? := by
  have hlen : ((drafts 0 is).mapIdx (Draft.resolve is)).length = address is is.length := by
    rw [List.length_mapIdx, length_drafts hcomplete]
  rw [ops, ← hlen, List.getElem?_append_right (Nat.le_add_right _ _), Nat.add_sub_cancel_left]

theorem length_ops :
    (ops is).length = dispatcherAddress is + if dispatches is then 1 else 0 := by
  rw [ops, List.length_append, List.length_mapIdx, length_drafts hcomplete, ending,
    dispatcherAddress]
  split
  · rfl
  · rfl

end Complete

theorem place?_concat_label (is : List Instruction) (i : Instruction) (l : BitString) :
    place? (is ++ [i]) (.label l) =
      (place? is (.label l)).or (if i.marks l then some (address is is.length) else none) := by
  simp only [place?, markIndex?_concat]
  cases h : markIndex? is l with
  | some n => simp [address_append (Nat.le_of_lt (markIndex?_lt h))]
  | none =>
    cases hm : i.marks l with
    | true => simp [address_append (Nat.le_refl _)]
    | false => simp

theorem place?_concat_site (is : List Instruction) (i : Instruction) (k : Nat) :
    place? (is ++ [i]) (.site k) =
      (place? is (.site k)).or
        (if i.isCall ∧ k = calls is then some (address (is ++ [i]) (is.length + 1)) else none) := by
  simp only [place?, returnIndices_concat]
  cases h : (returnIndices is)[k]? with
  | some n =>
    have hlt := (List.getElem?_eq_some_iff.mp h).1
    have hle := le_of_mem_returnIndices (List.mem_of_getElem? h)
    simp [List.getElem?_append_left hlt, h, address_append hle]
  | none =>
    have hge := List.getElem?_eq_none_iff.mp h
    rw [List.getElem?_append_right hge, length_returnIndices] at *
    cases hc : i.isCall with
    | false => simp
    | true =>
      by_cases hk : k = calls is
      · simp [hk]
      · have hpos : k - calls is ≠ 0 := by omega
        simp [hk, hpos]

/-- Only marks and calls place something. -/
theorem place?_concat_of_ne {is : List Instruction} {i : Instruction} (hmark : i.opcode ≠ .mark)
    (hcall : i.opcode ≠ .call) : place? (is ++ [i]) = place? is := by
  funext d
  cases d with
  | label l => simp [place?_concat_label, Instruction.marks, hmark]
  | site k => simp [place?_concat_site, Instruction.isCall, hcall]
  | dispatcher => rfl

theorem place?_concat_mark {is : List Instruction} {i : Instruction} {l : BitString}
    (hop : i.opcode = .mark) (hparam : i.param = some l) (hnew : place? is (.label l) = none) :
    place? (is ++ [i]) =
      Function.update (place? is) (.label l) (some (address is is.length)) := by
  funext d
  cases d with
  | label l' =>
    by_cases heq : l = l'
    · subst heq
      simp [place?_concat_label, Instruction.marks, hop, hparam, hnew]
    · have hne : Destination.label l' ≠ .label l := fun h => heq (Destination.label.inj h).symm
      simp [place?_concat_label, Instruction.marks, hparam, heq, Function.update_of_ne hne]
  | site k => simp [place?_concat_site, Instruction.isCall, hop]
  | dispatcher => rfl

theorem place?_concat_call {is : List Instruction} {i : Instruction} (hop : i.opcode = .call) :
    place? (is ++ [i]) =
      Function.update (place? is) (.site (calls is)) (some (address is is.length + 2)) := by
  have hend : address (is ++ [i]) (is.length + 1) = address is is.length + 2 := by
    rw [address_succ (i := i) (by simp), address_append (Nat.le_refl _), hop]
    rfl
  funext d
  cases d with
  | label l => simp [place?_concat_label, Instruction.marks, hop]
  | site k =>
    by_cases heq : k = calls is
    · subst heq
      have hnone : place? is (.site (calls is)) = none := by
        simp [place?, ← length_returnIndices]
      simp [place?_concat_site, Instruction.isCall, hop, hend, hnone]
    · simp [place?_concat_site, heq]
  | dispatcher => rfl

end Layout

end Whitespace
