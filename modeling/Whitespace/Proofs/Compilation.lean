import Whitespace.Proofs.Lowering

/-!
Code that comes out of the compiler is the code of the layout: closing adds the final halt and the
dispatcher, and resolving turns each target into the address of what it stands for.
-/
namespace Whitespace

open Layout
open Instruction (markIndex?)

namespace Lowering

variable {is : List Instruction} {s : Lowering}

theorem lands_of_place? {d : Destination} {a : Nat} (h : place? is d = some a) :
    lands is d = a := by
  cases d with
  | label l => simp [lands, h]
  | site k => simp [lands, h]
  | dispatcher => cases h

/-- The targets after the dispatcher has been placed behind the final halt. -/
def finalTargets (s : Lowering) : Targets :=
  match s.dispatcher with
  | some t => s.targets.place t (s.slots.size + 1)
  | none => s.targets

theorem close_eq (s : Lowering) :
    s.close =
      if s.returnSites.isEmpty && s.dispatcher.isNone then
        ({ s with slots := s.slots.push (.op .halt) }, none)
      else
        ({ s with
            slots := (s.slots.push (.op .halt)).push
              (.op (.dispatch (s.dispatchTable (s.slots.size + 1))))
            targets := s.finalTargets },
          some (s.slots.size + 1)) := by
  simp only [close, finalTargets, Array.size_push]
  rfl

theorem labels_close (s : Lowering) : s.close.1.labels = s.labels := by
  rw [close_eq]
  split <;> rfl

theorem returnSites_close (s : Lowering) : s.close.1.returnSites = s.returnSites := by
  rw [close_eq]
  split <;> rfl

theorem Laid.placeDispatcher {place : Destination → Option Nat} {ds : List Draft}
    (h : Laid place ds s) {t : Target} (ht : s.dispatcher = some t) (a : Nat) :
    Laid (Function.update place .dispatcher (some a)) ds
      { s with targets := s.targets.place t a } := by
  refine ⟨h.consistent, h.assigned.place_target (d := .dispatcher) ht a, ?_, h.slots⟩
  intro l e he
  rw [Function.update_of_ne (by simp)]
  exact h.defined he

namespace Lays

theorem dispatches_eq (h : Lays is s) :
    dispatches is = !(s.returnSites.isEmpty && s.dispatcher.isNone) := by
  have hcalls : (is.any fun i => i.opcode == .call) = !s.returnSites.isEmpty := by
    have hsize : s.returnSites.isEmpty = (calls is == 0) := by
      rw [Array.isEmpty, h.sites]
      rfl
    rw [hsize, Bool.eq_iff_iff]
    simp [calls, Instruction.isCall]
  have hreturns : s.dispatcher.isNone = !is.any fun i => i.opcode == .ret := by
    rw [← h.returns]
    simp
  have hany : dispatches is =
      ((is.any fun i => i.opcode == .call) || is.any fun i => i.opcode == .ret) := by
    rw [dispatches, Bool.eq_iff_iff]
    simp only [List.any_eq_true, Bool.or_eq_true]
    grind
  rw [hany, hcalls, hreturns]
  simp

/-- Entry `k` of the dispatcher leads to where call `k` returns. -/
theorem dispatchTable_eq (h : Lays is s) :
    (s.dispatchTable (dispatcherAddress is)).toList = table is := by
  have hlen : s.returnSites.size = (returnIndices is).length := by
    rw [h.sites, length_returnIndices]
  apply List.ext_getElem?
  intro k
  simp only [dispatchTable, table, Array.toList_map, List.getElem?_map, Array.getElem?_toList]
  cases hk : s.returnSites[k]? with
  | none =>
    have hnone : (returnIndices is)[k]? = none := by
      rw [List.getElem?_eq_none_iff, ← hlen]
      exact Array.getElem?_eq_none_iff.mp hk
    rw [hnone]
    rfl
  | some t =>
    have hlt : k < (returnIndices is).length := by
      rw [← hlen]
      exact (Array.getElem?_eq_some_iff.mp hk).1
    have hplaced := h.laid.assigned.placed (d := .site k) hk
    simp [hplaced, place?, List.getElem?_eq_getElem hlt]

theorem close_snd (h : Lays is s) :
    s.close.2 = if dispatches is then some (dispatcherAddress is) else none := by
  rw [h.dispatches_eq, close_eq, h.size_slots]
  cases s.returnSites.isEmpty && s.dispatcher.isNone <;> rfl

theorem laid_finalTargets (h : Lays is s) :
    ∃ place, Laid place (drafts 0 is) { s with targets := s.finalTargets } ∧
      ∀ d a, place d = some a → lands is d = a := by
  rcases Option.eq_none_or_eq_some s.dispatcher with hd | ⟨t, hd⟩
  · have hfinal : s.finalTargets = s.targets := by rw [finalTargets, hd]
    rw [hfinal]
    exact ⟨place? is, h.laid, fun d a hp => lands_of_place? hp⟩
  · have hfinal : s.finalTargets = s.targets.place t (dispatcherAddress is) := by
      rw [finalTargets, hd, h.size_slots]
      rfl
    rw [hfinal]
    refine ⟨_, h.laid.placeDispatcher hd (dispatcherAddress is), ?_⟩
    intro d a hp
    by_cases heq : d = .dispatcher
    · subst heq
      rw [Function.update_self] at hp
      exact Option.some.inj hp
    · rw [Function.update_of_ne heq] at hp
      exact lands_of_place? hp

/-- Closing lays the ending after the instructions. -/
theorem close (h : Lays is s) :
    ∃ place, Laid place (drafts 0 is ++ (ending is).map .op) s.close.1 ∧
      ∀ d a, place d = some a → lands is d = a := by
  have hdispatches := h.dispatches_eq
  rw [close_eq, ending]
  cases hd : s.returnSites.isEmpty && s.dispatcher.isNone with
  | true =>
    rw [hd] at hdispatches
    rw [hdispatches]
    exact ⟨place? is, h.laid.emit .halt s.height, fun d a hp => lands_of_place? hp⟩
  | false =>
    rw [hd] at hdispatches
    have htable : s.dispatchTable (s.slots.size + 1) = (table is).toArray := by
      rw [← h.dispatchTable_eq, h.size_slots]
      rfl
    obtain ⟨place, hlaid, hlands⟩ := h.laid_finalTargets
    have hclosed := (hlaid.emit .halt s.height).emit (.dispatch (table is).toArray) s.height
    rw [List.append_assoc] at hclosed
    rw [hdispatches, htable]
    exact ⟨place, hclosed, hlands⟩

end Lays

/-- Resolving a slot gives the op that its draft stands for. -/
theorem resolve_of_sketches {stands : Target → Destination → Prop} {ts : Targets}
    (hstands : ∀ t d a, stands t d → ts.address? t = some a → lands is d = a) {slot : Slot}
    {d : Draft} {a : Nat} {op : Op} (hd : Sketches stands slot d)
    (h : resolve ts a slot = .ok op) : op = d.resolve is a := by
  cases hd with
  | op o => cases h; rfl
  | @branch t d kind ht =>
    cases hb : ts.address? t with
    | none => simp [resolve, hb] at h
    | some b =>
      simp only [resolve, hb, BranchKind.withBranchOffset_op, Except.ok.injEq] at h
      rw [← h, Draft.resolve, hstands t d b ht hb]

theorem mapM_resolve {stands : Target → Destination → Prop} {ts : Targets}
    (hstands : ∀ t d a, stands t d → ts.address? t = some a → lands is d = a) {slots : List Slot}
    {ds : List Draft} {ops : List Op} (k : Nat) (hds : List.Forall₂ (Sketches stands) slots ds)
    (h : (slots.zipIdx k).mapM (fun x => resolve ts x.2 x.1) = .ok ops) :
    ops = ds.mapIdx fun a d => d.resolve is (a + k) := by
  induction hds generalizing k ops with
  | nil => cases h; rfl
  | @cons slot d slots ds hd _ ih =>
    rw [List.zipIdx_cons, List.mapM_cons] at h
    cases hop : resolve ts k slot with
    | error e => rw [hop] at h; cases h
    | ok op =>
      rw [hop] at h
      change ((slots.zipIdx (k + 1)).mapM fun x => resolve ts x.2 x.1).bind _ = _ at h
      cases hops : ((slots.zipIdx (k + 1)).mapM fun x => resolve ts x.2 x.1 :
          Except CompileError (List Op)) with
      | error e => rw [hops] at h; cases h
      | ok rest =>
        rw [hops] at h
        cases h
        rw [List.mapIdx_cons, ih (k + 1) hops, resolve_of_sketches hstands hd hop]
        simp [Nat.add_comm, Nat.add_left_comm]

theorem mapIdx_op (is : List Instruction) (k : Nat) (ops : List Op) :
    ((ops.map Draft.op).mapIdx fun a d => d.resolve is (a + k)) = ops := by
  induction ops generalizing k with
  | nil => rfl
  | cons op ops ih =>
    rw [List.map_cons, List.mapIdx_cons]
    simpa [Draft.resolve, Nat.add_assoc] using ih (1 + k)

theorem Lays.resolveAll_close (h : Lays is s) {ops : List Op}
    (hops : s.close.1.resolveAll = .ok ops) : ops = Layout.ops is := by
  obtain ⟨place, hlaid, hlands⟩ := h.close
  have hstands : ∀ t d a, s.close.1.Stands t d → s.close.1.targets.address? t = some a →
      lands is d = a := by
    intro t d a ht ha
    rw [hlaid.assigned.placed ht] at ha
    exact hlands d a ha
  rw [mapM_resolve hstands 0 hlaid.slots hops, List.mapIdx_append, Layout.ops]
  simp only [Nat.add_zero]
  congr 1
  exact mapIdx_op is _ _

/-- When no label is left undefined, every label that is named has a mark. -/
theorem Lays.marked (h : Lays is s) (hundefined : s.labels.undefined? = none) {kind : BranchKind}
    {l : BitString} (hmem : .branch kind (.label l) ∈ drafts 0 is) :
    ∃ n, markIndex? is l = some n := by
  obtain ⟨n, hn⟩ := List.mem_iff_get.mp hmem
  have hlt : n.1 < s.slots.toList.length := by rw [h.laid.slots.length_eq]; exact n.2
  have hsketch := h.laid.slots.get hlt n.2
  have hdefined := (LabelTable.undefined?_eq_none_iff h.laid.consistent).mp hundefined
  rw [hn] at hsketch
  generalize s.slots.toList.get ⟨n.1, hlt⟩ = slot at hsketch
  cases hsketch with
  | branch kind ht =>
    obtain ⟨e, he, _⟩ := ht
    have hplaced := (h.laid.defined he).mp (hdefined l e he)
    simpa [place?, Option.isSome_iff_exists] using hplaced

end Lowering

/-- What is known of code that was compiled from these instructions. -/
structure Compiled (is : List Instruction) (code : Code) : Prop where
  complete : ∀ i ∈ is, i.Complete
  marked : ∀ {kind l}, .branch kind (.label l) ∈ drafts 0 is → ∃ n, markIndex? is l = some n
  ops : code.ops.toList = Layout.ops is
  returnSites : code.returnSites = (calls is).toUInt32
  dispatcher : code.dispatcher =
    if dispatches is then some (dispatcherAddress is).toUInt64 else none
  sourceInstructions : code.sourceInstructions = is.length.toUInt64

theorem compiled_of_compile {p : Program} {code : Code} (h : p.compile = .ok code) :
    Compiled p.instructions.toList code := by
  unfold Program.compile at h
  split at h
  · cases h
  · next s hs =>
    have hlays : Lowering.Lays p.instructions.toList s :=
      Lowering.lays_of_lowerAll Lowering.lays_empty hs
    simp only [Lowering.finish, Lowering.labels_close, Lowering.returnSites_close] at h
    split at h
    · cases h
    · next hundefined =>
      cases hops : s.close.1.resolveAll with
      | error e => rw [hops] at h; cases h
      | ok ops =>
        rw [hops] at h
        cases h
        refine ⟨hlays.complete, hlays.marked hundefined, hlays.resolveAll_close hops, ?_, ?_, ?_⟩
        · rw [hlays.sites]
        · rw [hlays.close_snd]
          split <;> rfl
        · simp [Program.size]

namespace Compiled

variable {is : List Instruction} {code : Code}

theorem getElem?_ops (hc : Compiled is code) (k : Nat) : code.ops[k]? = (Layout.ops is)[k]? := by
  rw [← hc.ops, Array.getElem?_toList]

theorem size_ops (hc : Compiled is code) :
    code.ops.size = dispatcherAddress is + if dispatches is then 1 else 0 := by
  rw [← length_ops hc.complete, ← hc.ops, Array.length_toList]

theorem address_lt_size (hc : Compiled is code) {n : Nat} (hn : n ≤ is.length) :
    address is n < code.ops.size := by
  have hle : address is n ≤ address is is.length := address_mono hn
  rw [hc.size_ops, dispatcherAddress]
  omega

theorem op_at (hc : Compiled is code) {n j : Nat} {i : Instruction} {d : Draft}
    (hi : is[n]? = some i) (hd : (draft (calls (is.take n)) i)[j]? = some d) :
    code.ops[address is n + j]? = some (d.resolve is (address is n + j)) := by
  rw [hc.getElem?_ops, Layout.getElem?_ops hc.complete hi hd]

theorem halt_at_end (hc : Compiled is code) : code.ops[address is is.length]? = some .halt := by
  rw [hc.getElem?_ops, ← Nat.add_zero (address is is.length), getElem?_ops_ending hc.complete]
  rfl

theorem dispatch_at (hc : Compiled is code) (hd : dispatches is = true) :
    code.ops[dispatcherAddress is]? = some (.dispatch (table is).toArray) := by
  rw [hc.getElem?_ops, dispatcherAddress, getElem?_ops_ending hc.complete, ending, hd]
  rfl

/-- Every label that an instruction branches to has its mark. -/
theorem mark_of_branch (hc : Compiled is code) {n : Nat} {i : Instruction} {kind : BranchKind}
    {l : BitString} (hi : is[n]? = some i)
    (hmem : .branch kind (.label l) ∈ draft (calls (is.take n)) i) :
    ∃ k, markIndex? is l = some k := by
  obtain ⟨later, hsplit⟩ := drafts_split hi
  have hall : Draft.branch kind (.label l) ∈ drafts 0 is := by
    rw [hsplit]
    exact List.mem_append_right _ (List.mem_append_left _ hmem)
  exact hc.marked hall

end Compiled

end Whitespace
