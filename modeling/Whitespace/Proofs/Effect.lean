import Whitespace.Proofs.Run

/-!
All that an op can do to the data, said once. It replaces the values that its effect takes off the
stack by those that it puts there, and below them nothing changes; it can also store one value, read
input or write output. It underflows the stack exactly if it finds fewer values than it takes, and
however it fails, these values are gone. Control goes only to the addresses that are given as its
successors.
-/
namespace Whitespace

/-- Whether the op reads from the input. -/
def Op.reads : Op → Bool
  | .readChar | .readNumber => true
  | _ => false

/-- Whether the fault is about an op's operands or the input. -/
def Fault.ofOperands : Fault → Bool
  | .stackUnderflow | .divisionByZero | .overflow | .undefinedHeapAddress _ => true
  | .invalidNumber _ | .unexpectedEndOfInput | .inputNotText => true
  | _ => false

namespace Effect

/-- A stack before and after: what is taken off the one lies where the other has what is put on. -/
def Relates (effect : Effect) (before after : List Word) : Prop :=
  effect.pops ≤ before.length ∧
    ∃ top : List Word, top.length = effect.pushes ∧ after = top ++ before.drop effect.pops

/-- A stack before and after a fault: nothing is put on, and the fault is an underflow exactly if
there was too little to take off. -/
structure Fails (effect : Effect) (f : Fault) (before after : List Word) : Prop where
  underflow : f = .stackUnderflow ↔ before.length < effect.pops
  left : after = before.drop effect.pops

variable {effect : Effect} {pops pushes : Nat} {f : Fault} {before after : List Word}

theorem Relates.length (h : effect.Relates before after) :
    after.length = before.length - effect.pops + effect.pushes := by
  obtain ⟨_, top, htop, rfl⟩ := h
  rw [List.length_append, List.length_drop, htop, Nat.add_comm]

theorem relates_push (top before : List Word) :
    Effect.Relates ⟨0, top.length⟩ before (top ++ before) :=
  ⟨Nat.zero_le _, top, rfl, rfl⟩

theorem Relates.cons (h : Effect.Relates ⟨pops, pushes⟩ before after) (w : Word) :
    Effect.Relates ⟨pops + 1, pushes⟩ (w :: before) after :=
  ⟨Nat.succ_le_succ h.1, h.2⟩

/-- Where nothing is put on, what is left can also be left by a fault. -/
theorem Relates.fails (h : effect.Relates before after) (hpushes : effect.pushes = 0)
    (hf : f ≠ .stackUnderflow) : effect.Fails f before after := by
  obtain ⟨hpops, top, htop, rfl⟩ := h
  rw [hpushes, List.length_eq_zero_iff] at htop
  subst htop
  exact ⟨⟨fun h => absurd h hf, fun h => absurd h (Nat.not_lt.mpr hpops)⟩, rfl⟩

theorem fails_rest (before : List Word) (hf : f ≠ .stackUnderflow) :
    Effect.Fails ⟨0, pushes⟩ f before before :=
  ⟨⟨fun h => absurd h hf, fun h => absurd h (Nat.not_lt_zero _)⟩, rfl⟩

theorem fails_underflow : Effect.Fails ⟨pops + 1, pushes⟩ .stackUnderflow [] [] :=
  ⟨⟨fun _ => Nat.succ_pos pops, fun _ => rfl⟩, rfl⟩

theorem Fails.cons (h : Effect.Fails ⟨pops, pushes⟩ f before after) (w : Word) :
    Effect.Fails ⟨pops + 1, pushes⟩ f (w :: before) after :=
  ⟨h.underflow.trans Nat.add_lt_add_iff_right.symm, h.left⟩

end Effect

namespace Data

/-- What can come of the data when an op has this effect. The input changes only if the op reads. -/
inductive Outcome (effect : Effect) (reads : Bool) (d : Data) : DataStep → Prop where
  | done {stack : Stack Word} (hstack : effect.Relates d.stack.items stack.items) :
      Outcome effect reads d (.done { d with stack })
  | stored {stack : Stack Word} {input : List UInt8} (address value : Word)
      (hstack : effect.Relates d.stack.items stack.items)
      (hinput : reads = false → input = d.input) :
      Outcome effect reads d (.done ({ d with stack, input }.set address value))
  | wrote {stack : Stack Word} (bytes : List UInt8)
      (hstack : effect.Relates d.stack.items stack.items) :
      Outcome effect reads d (.done { d with stack, output := (d.output.write bytes).1 })
  | overfull {stack : Stack Word} (bytes : List UInt8)
      (hstack : effect.Fails .outputFull d.stack.items stack.items) :
      Outcome effect reads d
        (.fault .outputFull { d with stack, output := (d.output.write bytes).1 })
  | failed {f : Fault} {stack : Stack Word} {input : List UInt8} (hf : f.ofOperands = true)
      (hstack : effect.Fails f d.stack.items stack.items)
      (hinput : reads = false → input = d.input) :
      Outcome effect reads d (.fault f { d with stack, input })

variable {effect : Effect} {pops pushes : Nat} {reads : Bool} {d : Data} {s : DataStep}

/-- An op that has taken `w` off the stack still has its other values to take. -/
theorem Outcome.of_popped {w : Word} {stack : Stack Word} (hitems : d.stack.items = w :: stack.items)
    (h : Outcome ⟨pops, pushes⟩ reads { d with stack } s) :
    Outcome ⟨pops + 1, pushes⟩ reads d s := by
  cases h with
  | done hstack => exact .done (hitems ▸ hstack.cons w)
  | stored address value hstack hinput =>
    exact .stored address value (hitems ▸ hstack.cons w) hinput
  | wrote bytes hstack => exact .wrote bytes (hitems ▸ hstack.cons w)
  | overfull bytes hstack => exact .overfull bytes (hitems ▸ hstack.cons w)
  | failed hf hstack hinput => exact .failed hf (hitems ▸ hstack.cons w) hinput

theorem outcome_fault (f : Fault) (hf : f.ofOperands = true) (hne : f ≠ .stackUnderflow)
    (d : Data) : Outcome ⟨0, pushes⟩ reads d (.fault f d) :=
  .failed hf (Effect.fails_rest _ hne) fun _ => rfl

theorem outcome_pop {k : Word → Data → DataStep}
    (hk : ∀ w d, Outcome ⟨pops, pushes⟩ reads d (k w d)) (d : Data) :
    Outcome ⟨pops + 1, pushes⟩ reads d (d.pop k) := by
  rw [pop]
  split
  · next hpop =>
    rw [Stack.pop?_eq_none_iff, d.stack.depth_eq, List.length_eq_zero_iff] at hpop
    exact .failed rfl (hpop ▸ Effect.fails_underflow) fun _ => rfl
  · next w stack hpop =>
    have hitems : d.stack.items = w :: stack.items := by
      rw [Stack.pop?_eq_some_iff.mp hpop]
      rfl
    exact (hk w { d with stack }).of_popped hitems

theorem outcome_pop2 {k : Word → Word → Data → DataStep}
    (hk : ∀ a b d, Outcome ⟨pops, pushes⟩ reads d (k a b d)) (d : Data) :
    Outcome ⟨pops + 2, pushes⟩ reads d (d.pop2 k) :=
  outcome_pop (fun b => outcome_pop fun a => hk a b) d

theorem outcome_divide (a b result : Word) (d : Data) :
    Outcome ⟨0, 1⟩ reads d (d.divide a b result) := by
  rw [divide]
  split
  · exact outcome_fault .divisionByZero rfl nofun d
  · split
    · exact outcome_fault .overflow rfl nofun d
    · exact .done (Effect.relates_push [result] _)

theorem outcome_get (address : Word) (d : Data) : Outcome ⟨0, 1⟩ reads d (d.get address) := by
  rw [get]
  split
  · exact outcome_fault (.undefinedHeapAddress address) rfl nofun d
  · next value _ => exact .done (Effect.relates_push [value] _)

theorem outcome_write (bytes : List UInt8) (d : Data) :
    Outcome ⟨0, 0⟩ reads d (d.write bytes) := by
  rw [write]
  dsimp only
  split
  · exact .wrote bytes (Effect.relates_push [] _)
  · exact .overfull bytes (Effect.fails_rest _ nofun)

theorem outcome_readChar (address : Word) (d : Data) :
    Outcome ⟨0, 0⟩ true d (d.readChar address) := by
  rw [readChar]
  split
  · exact .stored address _ (Effect.relates_push [] _) nofun
  · exact .stored address _ (Effect.relates_push [] _) nofun

theorem outcome_readNumber (address : Word) (d : Data) :
    Outcome ⟨0, 0⟩ true d (d.readNumber address) := by
  rw [readNumber]
  split
  · exact outcome_fault .unexpectedEndOfInput rfl nofun d
  · dsimp only
    split
    · exact .failed rfl (Effect.fails_rest _ nofun) nofun
    · split
      · exact .failed rfl (Effect.fails_rest _ nofun) nofun
      · next value _ => exact .stored address value (Effect.relates_push [] _) nofun

theorem outcome_apply (d : Data) {op : Op} (h : op.family ≠ .flow) :
    Outcome op.effect op.reads d (d.apply op) := by
  cases op with
  | push value => exact .done (Effect.relates_push [value] _)
  | dup =>
    rw [apply]
    exact outcome_pop (fun a d => .done (Effect.relates_push [a, a] _)) d
  | swap => exact outcome_pop2 (fun a b d => .done (Effect.relates_push [a, b] _)) d
  | drop => exact outcome_pop (fun _ d => .done (Effect.relates_push [] _)) d
  | add => exact outcome_pop2 (fun a b d => .done (Effect.relates_push [a + b] _)) d
  | sub => exact outcome_pop2 (fun a b d => .done (Effect.relates_push [a - b] _)) d
  | mul => exact outcome_pop2 (fun a b d => .done (Effect.relates_push [a * b] _)) d
  | div | mod => exact outcome_pop2 (fun a b => outcome_divide a b _) d
  | store =>
    exact outcome_pop2 (fun address value d =>
      .stored address value (Effect.relates_push [] _) fun _ => rfl) d
  | load => exact outcome_pop outcome_get d
  | writeChar | writeNumber => exact outcome_pop (fun _ => outcome_write _) d
  | readChar => exact outcome_pop outcome_readChar d
  | readNumber => exact outcome_pop outcome_readNumber d
  | jump _ | jumpIfZero _ | jumpIfNegative _ | pushReturn _ | dispatch _ | halt =>
    exact absurd rfl h

end Data

namespace Op

variable {op : Op} {offset : Int32}

theorem pushes_le (op : Op) : op.effect.pushes ≤ op.effect.pops + 1 := by
  cases op <;> simp [effect]

theorem next_mem_successors (h : op.fallsThrough = true) (address : Nat) :
    ((address + 1 : Nat) : Int) ∈ op.successors address := by
  cases op <;> simp_all [successors, fallsThrough]

theorem target_mem_successors (h : op.branchOffset? = some offset) (address : Nat) :
    target address offset ∈ op.successors address := by
  cases op <;> simp_all [successors, branchOffset?]

theorem entry_mem_successors {table : Array Int32} (h : offset ∈ table) (address : Nat) :
    target address offset ∈ (Op.dispatch table).successors address := by
  simp only [successors, List.mem_append, List.mem_map]
  exact .inr ⟨offset, Array.mem_toList_iff.mpr h, rfl⟩

end Op

/-- The machine goes from `m` to where `op` leads and leaves the stack that its effect says, also
if it faults. -/
def Progress.Obeys (op : Op) (m : Machine) : Progress → Prop
  | .running m' => op.effect.Relates m.data.stack.items m'.data.stack.items ∧
      (m'.address : Int) ∈ op.successors m.address
  | .halted m' => op.effect.Relates m.data.stack.items m'.data.stack.items
  | .faulted f m' => op.effect.Fails f m.data.stack.items m'.data.stack.items

namespace Machine

variable {op : Op} {m m' : Machine}

theorem obeys_goto {offset : Int32} (hpushes : op.effect.pushes = 0)
    (hstack : op.effect.Relates m.data.stack.items m'.data.stack.items)
    (hmem : Op.target m'.address offset ∈ op.successors m.address) (size : Nat) :
    (m'.goto size offset).Obeys op m := by
  rw [goto]
  split
  · next hrange =>
    refine ⟨hstack, ?_⟩
    rw [Int.toNat_of_nonneg hrange.1]
    exact hmem
  · exact hstack.fails hpushes nofun

theorem obeys_branchIf {offset : Int32} (heffect : op.effect = ⟨1, 0⟩)
    (hfalls : op.fallsThrough = true) (hbranch : op.branchOffset? = some offset) (size : Nat)
    (test : Word → Bool) : (m.branchIf size test offset).Obeys op m := by
  rw [branchIf]
  split
  · next hpop =>
    rw [Stack.pop?_eq_none_iff, m.data.stack.depth_eq, List.length_eq_zero_iff] at hpop
    rw [Progress.Obeys, heffect, hpop]
    exact Effect.fails_underflow
  · next w stack hpop =>
    have hstack : op.effect.Relates m.data.stack.items stack.items := by
      rw [heffect, Stack.pop?_eq_some_iff.mp hpop]
      exact (Effect.relates_push [] stack.items).cons w
    dsimp only
    split
    · refine obeys_goto (by rw [heffect]) ?_ ?_ size
      · exact hstack
      · exact Op.target_mem_successors hbranch _
    · exact ⟨hstack, Op.next_mem_successors hfalls _⟩

theorem obeys_perform (h : op.family ≠ .flow) : (m.perform op).Obeys op m := by
  have hfalls : op.fallsThrough = true := by
    cases op <;> first | rfl | exact absurd rfl h
  have houtcome := m.data.outcome_apply h
  rw [perform]
  generalize m.data.apply op = s at houtcome
  cases houtcome with
  | done hstack => exact ⟨hstack, Op.next_mem_successors hfalls _⟩
  | stored address value hstack => exact ⟨hstack, Op.next_mem_successors hfalls _⟩
  | wrote bytes hstack => exact ⟨hstack, Op.next_mem_successors hfalls _⟩
  | overfull bytes hstack => exact hstack
  | failed hf hstack => exact hstack

theorem obeys_exec (limits : Limits) (size : Nat) (m : Machine) (op : Op) :
    (m.exec limits size op).Obeys op m := by
  have huntouched : Effect.Relates ⟨0, 0⟩ m.data.stack.items m.data.stack.items :=
    Effect.relates_push [] _
  by_cases hdata : op.family ≠ .flow
  · rw [exec_of_data hdata]
    exact obeys_perform hdata
  · cases op with
    | jump offset =>
      refine obeys_goto rfl ?_ ?_ size
      · exact huntouched
      · exact Op.target_mem_successors rfl _
    | jumpIfZero offset | jumpIfNegative offset => exact obeys_branchIf rfl rfl rfl size _
    | pushReturn site =>
      change (m.pushReturn limits site).Obeys _ m
      rw [pushReturn]
      split
      · exact huntouched.fails rfl nofun
      · exact ⟨huntouched, Op.next_mem_successors rfl _⟩
    | dispatch table =>
      change (m.dispatch size table).Obeys _ m
      rw [dispatch]
      split
      · exact huntouched.fails rfl nofun
      · dsimp only
        split
        · exact huntouched.fails rfl nofun
        · next offset hentry =>
          refine obeys_goto rfl ?_ ?_ size
          · exact huntouched
          · exact Op.entry_mem_successors (Array.mem_of_getElem? hentry) _
    | halt => exact huntouched
    | _ => exact absurd nofun hdata

end Machine

end Whitespace
