import Whitespace.Proofs.Reading
import Whitespace.Proofs.Run

/-!
Two machines side by side. All that an op does to the stack, the heap and the pending calls depends
on these alone; so two machines that have them in common take the same steps as long as reading and
writing goes alike. What "alike" means is open: how the inputs and outputs of the two may differ is
a parameter, and so is what is known once one of them has got lost.
-/
namespace Whitespace

/-- What a machine reads from and writes to. -/
structure Ports where
  input : List UInt8
  output : Output

def Data.ports (d : Data) : Ports := ⟨d.input, d.output⟩

/-- The data differ in their input and output only, and there as `like` says. -/
structure Data.Alike (like : Ports → Ports → Prop) (d d' : Data) : Prop where
  stack : d'.stack = d.stack
  heap : d'.heap = d.heap
  ports : like d.ports d'.ports

structure Machine.Alike (like : Ports → Ports → Prop) (m m' : Machine) : Prop where
  data : m.data.Alike like m'.data
  returns : m'.returns = m.returns
  address : m'.address = m.address
  steps : m'.steps = m.steps

def DataStep.data : DataStep → Data
  | .done d | .fault _ d => d

def DataStep.fault? : DataStep → Option Fault
  | .done _ => none
  | .fault f _ => some f

/-- Both have come to the same and are alike, or `lost` says how the first one has left the second
behind, which may have faulted. -/
inductive DataStep.Abreast (like : Ports → Ports → Prop)
    (lost : Ports → Option Fault → Ports → Prop) : DataStep → DataStep → Prop where
  | done {d d' : Data} (h : d.Alike like d') : Abreast like lost (.done d) (.done d')
  | fault (f : Fault) {d d' : Data} (h : d.Alike like d') :
      Abreast like lost (.fault f d) (.fault f d')
  | lost {s s' : DataStep} (h : lost s.data.ports s'.fault? s'.data.ports) :
      Abreast like lost s s'

namespace Progress

/-- Both have come to the same, with machines that are alike. -/
inductive Alike (like : Ports → Ports → Prop) : Progress → Progress → Prop where
  | running {m m' : Machine} (h : m.Alike like m') : Alike like (.running m) (.running m')
  | halted {m m' : Machine} (h : m.Alike like m') : Alike like (.halted m) (.halted m')
  | faulted (f : Fault) {m m' : Machine} (h : m.Alike like m') :
      Alike like (.faulted f m) (.faulted f m')

def Lost (lost : Ports → Option Fault → Ports → Prop) (p p' : Progress) : Prop :=
  lost p.machine.data.ports (p'.fault?.map Prod.fst) p'.machine.data.ports

def Abreast (like : Ports → Ports → Prop) (lost : Ports → Option Fault → Ports → Prop)
    (p p' : Progress) : Prop :=
  p.Alike like p' ∨ p.Lost lost p'

/-- Goes on for at most `n` steps. -/
def resume (limits : Limits) (ops : Array Op) (n : Nat) : Progress → Progress
  | .running m => m.runFor limits ops n
  | .halted m => .halted m
  | .faulted f m => .faulted f m

/-- The same with other data. -/
def mapData (g : Data → Data) : Progress → Progress
  | .running m => .running { m with data := g m.data }
  | .halted m => .halted { m with data := g m.data }
  | .faulted f m => .faulted f { m with data := g m.data }

end Progress

/-- No machine gets lost. -/
def NeverLost (_ : Ports) (_ : Option Fault) (_ : Ports) : Prop := False

/-- Reading and writing go alike, and what is known of a lost machine stays known. -/
structure Companions (like : Ports → Ports → Prop) (lost : Ports → Option Fault → Ports → Prop) :
    Prop where
  write : ∀ {d d' : Data} (bytes : List UInt8), d.Alike like d' →
    (d.write bytes).Abreast like lost (d'.write bytes)
  readChar : ∀ {d d' : Data} (address : Word), d.Alike like d' →
    (d.readChar address).Abreast like lost (d'.readChar address)
  readNumber : ∀ {d d' : Data} (address : Word), d.Alike like d' →
    (d.readNumber address).Abreast like lost (d'.readNumber address)
  stays : ∀ {p p' : Progress} (limits : Limits) (ops : Array Op) (n : Nat), p.Lost lost p' →
    (p.resume limits ops n).Lost lost (p'.resume limits ops n)

variable {like : Ports → Ports → Prop} {lost : Ports → Option Fault → Ports → Prop}

namespace Data.Alike

variable {d d' : Data}

theorem eq_of_ports (h : d.Alike like d') {input : List UInt8} {output : Output}
    (hports : d'.ports = ⟨input, output⟩) : d' = { d with input, output } := by
  obtain ⟨hstack, hheap, _⟩ := h
  cases d'
  cases hstack; cases hheap; cases hports
  rfl

theorem withStack (h : d.Alike like d') (stack : Stack Word) :
    Data.Alike like { d with stack } { d' with stack } :=
  ⟨rfl, h.heap, h.ports⟩

theorem push (h : d.Alike like d') (w : Word) : (d.push w).Alike like (d'.push w) := by
  rw [Data.push, Data.push, h.stack]
  exact h.withStack _

theorem set (h : d.Alike like d') (address value : Word) :
    (d.set address value).Alike like (d'.set address value) := by
  refine ⟨h.stack, ?_, h.ports⟩
  rw [Data.set, Data.set, h.heap]

theorem pop (h : d.Alike like d') {k : Word → Data → DataStep}
    (hk : ∀ {d d'} (w : Word), d.Alike like d' → (k w d).Abreast like lost (k w d')) :
    (d.pop k).Abreast like lost (d'.pop k) := by
  rw [Data.pop, Data.pop, h.stack]
  cases d.stack.pop? with
  | none => exact .fault .stackUnderflow h
  | some popped => exact hk popped.1 (h.withStack popped.2)

theorem pop2 (h : d.Alike like d') {k : Word → Word → Data → DataStep}
    (hk : ∀ {d d'} (a b : Word), d.Alike like d' → (k a b d).Abreast like lost (k a b d')) :
    (d.pop2 k).Abreast like lost (d'.pop2 k) :=
  h.pop fun b h => h.pop fun a h => hk a b h

theorem divide (h : d.Alike like d') (a b result : Word) :
    (d.divide a b result).Abreast like lost (d'.divide a b result) := by
  rw [Data.divide, Data.divide]
  split
  · exact .fault .divisionByZero h
  · split
    · exact .fault .overflow h
    · exact .done (h.push result)

theorem get (h : d.Alike like d') (address : Word) :
    (d.get address).Abreast like lost (d'.get address) := by
  rw [Data.get, Data.get, h.heap]
  cases d.heap[address]? with
  | none => exact .fault (.undefinedHeapAddress address) h
  | some value => exact .done (h.push value)

theorem apply (h : d.Alike like d') (hc : Companions like lost) (op : Op) :
    (d.apply op).Abreast like lost (d'.apply op) := by
  cases op with
  | push value => exact .done (h.push value)
  | dup => exact h.pop fun a h => .done ((h.push a).push a)
  | swap => exact h.pop2 fun a b h => .done ((h.push b).push a)
  | drop => exact h.pop fun _ h => .done h
  | add | sub | mul => exact h.pop2 fun a b h => .done (h.push _)
  | div | mod => exact h.pop2 fun a b h => h.divide a b _
  | store => exact h.pop2 fun address value h => .done (h.set address value)
  | load => exact h.pop fun address h => h.get address
  | writeChar => exact h.pop fun w h => hc.write (Utf8.encode (charOf w)) h
  | writeNumber => exact h.pop fun w h => hc.write (Utf8.encodeAll w.text) h
  | readChar => exact h.pop fun address h => hc.readChar address h
  | readNumber => exact h.pop fun address h => hc.readNumber address h
  | jump _ | jumpIfZero _ | jumpIfNegative _ | pushReturn _ | dispatch _ | halt => exact .done h

end Data.Alike

/-- The inputs are the same, and stay alike when the same is read from both. -/
def SharesInput (like : Ports → Ports → Prop) : Prop :=
  ∀ {a a' : Ports}, like a a' → a'.input = a.input ∧
    ∀ input, input <:+ a.input → like { a with input } { a' with input }

/-- The outputs are the same, and stay alike when the same is written to both. -/
def SharesOutput (like : Ports → Ports → Prop) : Prop :=
  ∀ {a a' : Ports}, like a a' → a'.output = a.output ∧
    ∀ output, like { a with output } { a' with output }

theorem Data.ports_storeLine (d : Data) (address : Word) (line : List UInt8) :
    (d.storeLine address line).data.ports = d.ports := by
  rw [storeLine]
  split
  · rfl
  · split <;> rfl

namespace Data.Alike

variable {d d' : Data}

theorem storeLine (h : d.Alike like d') (address : Word) (line : List UInt8) :
    (d.storeLine address line).Abreast like lost (d'.storeLine address line) := by
  rw [Data.storeLine, Data.storeLine]
  cases Utf8.decodeAll? line with
  | none => exact .fault .inputNotText h
  | some cs =>
    dsimp only
    cases Word.ofText? (Text.trim cs) with
    | none => exact .fault (.invalidNumber (Text.trim cs)) h
    | some value => exact .done (h.set address value)

theorem write (h : d.Alike like d') (hout : SharesOutput like) (bytes : List UInt8) :
    (d.write bytes).Abreast like lost (d'.write bytes) := by
  obtain ⟨houtput, hkept⟩ := hout h.ports
  have houtput : d'.output = d.output := houtput
  have hwritten := hkept (d.output.write bytes).1
  rw [Data.write, Data.write, houtput]
  dsimp only
  split
  · exact .done ⟨h.stack, h.heap, hwritten⟩
  · exact .fault .outputFull ⟨h.stack, h.heap, hwritten⟩

theorem readChar (h : d.Alike like d') (hin : SharesInput like) (address : Word) :
    (d.readChar address).Abreast like lost (d'.readChar address) := by
  obtain ⟨hinput, hkept⟩ := hin h.ports
  have hinput : d'.input = d.input := hinput
  by_cases hnil : d.input = []
  · rw [readChar_of_nil hnil, readChar_of_nil (hinput.trans hnil)]
    exact .done (h.set address (-1))
  · obtain ⟨ch, rest, hread, hsuffix, -⟩ := Utf8.exists_readChar hnil
    rw [readChar_of_some hread, readChar_of_some (hinput ▸ hread)]
    refine .done (set ?_ address _)
    exact ⟨h.stack, h.heap, hkept rest hsuffix⟩

theorem readNumber (h : d.Alike like d') (hin : SharesInput like) (address : Word) :
    (d.readNumber address).Abreast like lost (d'.readNumber address) := by
  obtain ⟨hinput, hkept⟩ := hin h.ports
  have hinput : d'.input = d.input := hinput
  by_cases hnil : d.input = []
  · rw [readNumber_of_nil hnil, readNumber_of_nil (hinput.trans hnil)]
    exact .fault .unexpectedEndOfInput h
  · rw [readNumber_of_ne_nil hnil, readNumber_of_ne_nil (hinput ▸ hnil), hinput]
    apply storeLine
    exact ⟨h.stack, h.heap, hkept _ (afterLine_suffix d.input)⟩

end Data.Alike

namespace Machine.Alike

variable {m m' : Machine}

theorem withData (h : m.Alike like m') {d d' : Data} (hd : d.Alike like d') :
    Machine.Alike like { m with data := d } { m' with data := d' } :=
  ⟨hd, h.returns, h.address, h.steps⟩

theorem withAddress (h : m.Alike like m') (address : Nat) :
    Machine.Alike like { m with address } { m' with address } :=
  ⟨h.data, h.returns, rfl, h.steps⟩

theorem next (h : m.Alike like m') : m.next.Alike like m'.next := by
  rw [Machine.next, Machine.next, h.address]
  exact h.withAddress (m.address + 1)

theorem goto (h : m.Alike like m') (size : Nat) (offset : Int32) :
    (m.goto size offset).Abreast like lost (m'.goto size offset) := by
  rw [Machine.goto, Machine.goto, h.address]
  split
  · exact .inl (.running (h.withAddress _))
  · exact .inl (.faulted _ h)

theorem branchIf (h : m.Alike like m') (size : Nat) (test : Word → Bool) (offset : Int32) :
    (m.branchIf size test offset).Abreast like lost (m'.branchIf size test offset) := by
  rw [Machine.branchIf, Machine.branchIf, h.data.stack]
  cases m.data.stack.pop? with
  | none => exact .inl (.faulted .stackUnderflow h)
  | some popped =>
    have hpopped := h.withData (h.data.withStack popped.2)
    dsimp only
    split
    · exact hpopped.goto size offset
    · exact .inl (.running hpopped.next)

theorem pushReturn (h : m.Alike like m') (limits : Limits) (site : UInt32) :
    (m.pushReturn limits site).Abreast like lost (m'.pushReturn limits site) := by
  rw [Machine.pushReturn, Machine.pushReturn, h.returns]
  split
  · exact .inl (.faulted _ h)
  · exact .inl (.running (next ⟨h.data, rfl, h.address, h.steps⟩))

theorem dispatch (h : m.Alike like m') (size : Nat) (table : Array Int32) :
    (m.dispatch size table).Abreast like lost (m'.dispatch size table) := by
  rw [Machine.dispatch, Machine.dispatch, h.returns]
  cases m.returns.pop? with
  | none => exact .inl (.faulted .returnStackUnderflow h)
  | some popped =>
    have hpopped : Machine.Alike like { m with returns := popped.2 }
        { m' with returns := popped.2 } :=
      ⟨h.data, rfl, h.address, h.steps⟩
    dsimp only
    cases table[popped.1.toNat]? with
    | none => exact .inl (.faulted _ hpopped)
    | some offset => exact hpopped.goto size offset

theorem perform (h : m.Alike like m') (hc : Companions like lost) (op : Op) :
    (m.perform op).Abreast like lost (m'.perform op) := by
  have happly := h.data.apply hc op
  rw [Machine.perform, Machine.perform]
  generalize m.data.apply op = s at happly
  generalize m'.data.apply op = s' at happly
  cases happly with
  | done hd => exact .inl (.running (h.withData hd).next)
  | fault f hd => exact .inl (.faulted f (h.withData hd))
  | lost hlost =>
    right
    cases s <;> cases s' <;> exact hlost

theorem exec (h : m.Alike like m') (hc : Companions like lost) (limits : Limits) (size : Nat)
    (op : Op) : (m.exec limits size op).Abreast like lost (m'.exec limits size op) := by
  by_cases hdata : op.family ≠ .flow
  · rw [exec_of_data hdata, exec_of_data hdata]
    exact h.perform hc op
  · cases op with
    | jump offset => exact h.goto size offset
    | jumpIfZero offset | jumpIfNegative offset => exact h.branchIf size _ offset
    | pushReturn site => exact h.pushReturn limits site
    | dispatch table => exact h.dispatch size table
    | halt => exact .inl (.halted h)
    | _ => exact absurd nofun hdata

theorem exceeded? (h : m.Alike like m') (limits : Limits) :
    m'.exceeded? limits = m.exceeded? limits := by
  rw [Machine.exceeded?, Machine.exceeded?, h.steps, h.data.stack]

theorem step (h : m.Alike like m') (hc : Companions like lost) (limits : Limits) (ops : Array Op) :
    (m.step limits ops).Abreast like lost (m'.step limits ops) := by
  have hfetch : ops[m'.address]? = ops[m.address]? := by rw [h.address]
  rw [Machine.step, Machine.step, hfetch]
  cases ops[m.address]? with
  | none => exact .inl (.halted h)
  | some op =>
    have hcounted : Machine.Alike like { m with steps := m.steps + 1 }
        { m' with steps := m'.steps + 1 } :=
      ⟨h.data, h.returns, h.address, congrArg (· + 1) h.steps⟩
    dsimp only
    rw [hcounted.exceeded? limits]
    cases { m with steps := m.steps + 1 }.exceeded? limits with
    | some f => exact .inl (.faulted f hcounted)
    | none => exact hcounted.exec hc limits ops.size op

end Machine.Alike

namespace Machine

theorem runFor_succ (limits : Limits) (ops : Array Op) (n : Nat) (m : Machine) :
    m.runFor limits ops (n + 1) = (m.step limits ops).resume limits ops n := by
  rw [runFor]
  cases m.step limits ops <;> rfl

/-- Machines that are alike stay so to the end of their runs, unless one gets lost. -/
theorem Alike.runFor {m m' : Machine} (h : m.Alike like m') (hc : Companions like lost)
    (limits : Limits) (ops : Array Op) (n : Nat) :
    (m.runFor limits ops n).Abreast like lost (m'.runFor limits ops n) := by
  induction n generalizing m m' with
  | zero => exact .inl (.running h)
  | succ n ih =>
    have hstep := h.step hc limits ops
    rw [runFor_succ, runFor_succ]
    generalize m.step limits ops = p at hstep
    generalize m'.step limits ops = p' at hstep
    rcases hstep with halike | hlost
    · cases halike with
      | running hnext => exact ih hnext
      | halted hend => exact .inl (.halted hend)
      | faulted f hend => exact .inl (.faulted f hend)
    · exact .inr (hc.stays limits ops n hlost)

end Machine

namespace Progress.Alike

variable {p p' : Progress}

theorem data (h : p.Alike like p') : p.machine.data.Alike like p'.machine.data := by
  cases h with
  | running h => exact h.data
  | halted h => exact h.data
  | faulted f h => exact h.data

/-- Only the data can tell the two apart. -/
theorem eq_mapData (h : p.Alike like p') {g : Data → Data}
    (hg : p'.machine.data = g p.machine.data) : p' = p.mapData g := by
  have hmachine : ∀ {m m' : Machine}, m.Alike like m' → m'.data = g m.data →
      m' = { m with data := g m.data } := by
    intro m m' halike hdata
    obtain ⟨_, hreturns, haddress, hsteps⟩ := halike
    cases m'
    cases hdata; cases hreturns; cases haddress; cases hsteps
    rfl
  cases h with
  | running h => exact congrArg Progress.running (hmachine h hg)
  | halted h => exact congrArg Progress.halted (hmachine h hg)
  | faulted f h => exact congrArg (Progress.faulted f) (hmachine h hg)

end Progress.Alike

theorem Progress.isSome_ending?_mapData (g : Data → Data) (p : Progress) :
    (p.mapData g).ending?.isSome = p.ending?.isSome := by
  cases p <;> rfl

end Whitespace
