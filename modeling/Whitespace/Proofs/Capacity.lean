import Whitespace.Proofs.Reuse

/-!
A full output only truncates. A machine whose output has a capacity runs beside one without, and
writes the same, up to the write that does not fit. There it stops with the output filled to its
capacity, whatever the other machine goes on to do.
-/
namespace Whitespace

/-- Nothing written, and room for so many bytes. -/
def Output.upTo (capacity : Nat) : Output := ⟨#[], some capacity⟩

namespace Ports

/-- The inputs are the same. The outputs hold the same bytes, which do not exceed the capacity that
only the second one has. -/
structure Capped (capacity : Nat) (a a' : Ports) : Prop where
  input : a'.input = a.input
  unlimited : a.output.capacity = none
  output : a'.output = ⟨a.output.written, some capacity⟩
  fits : a.output.written.size ≤ capacity

/-- The first machine has written more than the capacity, and the second one has stopped with what
fits of it. -/
structure Overrun (capacity : Nat) (a : Ports) (fault : Option Fault) (a' : Ports) : Prop where
  fault : fault = some .outputFull
  beyond : capacity < a.output.written.size
  cut : a'.output.written.toList = a.output.written.toList.take capacity

theorem sharesInput_capped (capacity : Nat) : SharesInput (Capped capacity) := by
  intro a a' h
  refine ⟨h.input, fun input _ => ?_⟩
  exact ⟨rfl, h.unlimited, h.output, h.fits⟩

end Ports

open Ports

namespace Data

variable {d d' : Data} {written : Array UInt8} {capacity : Nat} {bytes : List UInt8}

theorem write_of_room (h : d.output = ⟨written, some capacity⟩)
    (hroom : bytes.length ≤ capacity - written.size) :
    d.write bytes = .done { d with output := ⟨written ++ bytes, some capacity⟩ } := by
  simp [write, Output.write, Output.room, h, hroom, List.take_of_length_le hroom]

theorem write_of_overfull (h : d.output = ⟨written, some capacity⟩)
    (hroom : capacity - written.size < bytes.length) :
    d.write bytes = .fault .outputFull
      { d with output := ⟨written ++ bytes.take (capacity - written.size), some capacity⟩ } := by
  simp [write, Output.write, Output.room, h, hroom]

/-- What fits of one more write is what fits of all that is written. -/
theorem Alike.write_capped (h : d.Alike (Capped capacity) d') (bytes : List UInt8) :
    (d.write bytes).Abreast (Capped capacity) (Overrun capacity) (d'.write bytes) := by
  obtain ⟨hinput, hunlimited, houtput, hfits⟩ := h.ports
  have houtput : d'.output = ⟨d.output.written, some capacity⟩ := houtput
  have hfits : d.output.written.size ≤ capacity := hfits
  have hsize : (d.output.written ++ bytes).size = d.output.written.size + bytes.length := by
    rw [← Array.length_toList, Array.toList_appendList, List.length_append, Array.length_toList]
  rw [write_of_unlimited hunlimited]
  by_cases hroom : bytes.length ≤ capacity - d.output.written.size
  · rw [write_of_room houtput hroom]
    refine .done ⟨h.stack, h.heap, hinput, rfl, rfl, ?_⟩
    change (d.output.written ++ bytes).size ≤ capacity
    rw [hsize]
    omega
  · have hroom := Nat.lt_of_not_le hroom
    rw [write_of_overfull houtput hroom]
    refine .lost ⟨rfl, ?_, ?_⟩
    · change capacity < (d.output.written ++ bytes).size
      rw [hsize]
      omega
    · change (d.output.written ++ bytes.take (capacity - d.output.written.size)).toList =
        (d.output.written ++ bytes).toList.take capacity
      rw [Array.toList_appendList, Array.toList_appendList, List.take_append, Array.length_toList,
        List.take_of_length_le hfits]

end Data

namespace Progress

/-- What is written stays written. -/
theorem prefix_resume (limits : Limits) (ops : Array Op) (n : Nat) (p : Progress) :
    p.written <+: (p.resume limits ops n).written := by
  cases p with
  | running m => exact m.prefix_runFor limits ops n
  | halted m => exact List.prefix_refl _
  | faulted f m => exact List.prefix_refl _

theorem resume_of_fault {p : Progress} {f : Fault} (h : p.fault?.map Prod.fst = some f)
    (limits : Limits) (ops : Array Op) (n : Nat) : p.resume limits ops n = p := by
  cases p with
  | running m => cases h
  | halted m => cases h
  | faulted g m => rfl

theorem isSome_ending?_of_fault {p : Progress} {f : Fault}
    (h : p.fault?.map Prod.fst = some f) : p.ending?.isSome = true := by
  cases p with
  | running m => cases h
  | halted m => rfl
  | faulted g m => rfl

theorem Lost.resume_overrun {p p' : Progress} {capacity : Nat} (h : p.Lost (Overrun capacity) p')
    (limits : Limits) (ops : Array Op) (n : Nat) :
    (p.resume limits ops n).Lost (Overrun capacity) (p'.resume limits ops n) := by
  obtain ⟨hfault, hbeyond, hcut⟩ := h
  obtain ⟨more, hmore⟩ : p.machine.data.output.written.toList <+:
      (p.resume limits ops n).machine.data.output.written.toList :=
    p.prefix_resume limits ops n
  rw [resume_of_fault hfault limits ops n]
  have hlength : capacity < p.machine.data.output.written.toList.length := hbeyond
  refine ⟨hfault, ?_, ?_⟩
  · change capacity < (p.resume limits ops n).machine.data.output.written.size
    rw [← Array.length_toList, ← hmore, List.length_append]
    omega
  · change p'.machine.data.output.written.toList =
      (p.resume limits ops n).machine.data.output.written.toList.take capacity
    rw [← hmore, List.take_append_of_le_length hlength.le]
    exact hcut

/-- The same with a capacity to its output. -/
def withCapacity (p : Progress) (capacity : Nat) : Progress :=
  p.mapData fun d => { d with output := { d.output with capacity := some capacity } }

end Progress

theorem companions_capped (capacity : Nat) : Companions (Capped capacity) (Overrun capacity) where
  write bytes h := h.write_capped bytes
  readChar address h := h.readChar (sharesInput_capped capacity) address
  readNumber address h := h.readNumber (sharesInput_capped capacity) address
  stays limits ops n h := h.resume_overrun limits ops n

namespace Machine

variable {limits : Limits} {code : Code} {input : List UInt8}

/-- After any number of steps, either both machines are at the same point with the same output, or
the one with the capacity has stopped. -/
theorem runFor_upTo (limits : Limits) (ops : Array Op) (input : List UInt8) (capacity n : Nat) :
    ((fresh input .unlimited).runFor limits ops n).Abreast (Capped capacity) (Overrun capacity)
      ((fresh input (.upTo capacity)).runFor limits ops n) := by
  have hstart : (fresh input .unlimited).Alike (Capped capacity) (fresh input (.upTo capacity)) :=
    ⟨⟨rfl, rfl, rfl, rfl, rfl, Nat.zero_le _⟩, rfl, rfl, rfl⟩
  exact hstart.runFor (companions_capped capacity) limits ops n

/-- A run whose output fits into the capacity is the same with it, to the fault and its address,
the stack, the heap and what is left to read. A run that writes more stops, with a full output, at
exactly as many of its bytes as the capacity allows. -/
theorem capacity_only_truncates {p : Progress} (hp : (fresh input .unlimited).Runs limits code p)
    (capacity : Nat) :
    (p.written.length ≤ capacity →
      (fresh input (.upTo capacity)).Runs limits code (p.withCapacity capacity)) ∧
    (capacity < p.written.length →
      ∃ q, (fresh input (.upTo capacity)).Runs limits code q ∧
        q.fault?.map Prod.fst = some .outputFull ∧ q.written = p.written.take capacity) := by
  obtain ⟨n, hrun, hended⟩ := hp
  have hrun : (fresh input .unlimited).runFor limits code.ops n = p := hrun
  have habreast := runFor_upTo limits code.ops input capacity n
  rw [hrun] at habreast
  rcases habreast with halike | ⟨hfault, hbeyond, hcut⟩
  · obtain ⟨hinput, hunlimited, houtput, hfits⟩ := halike.data.ports
    have hfits : p.written.length ≤ capacity := hfits
    refine ⟨fun _ => ⟨n, ?_, ?_⟩, fun hlt => absurd hfits (Nat.not_le_of_lt hlt)⟩
    · apply halike.eq_mapData
      exact halike.data.eq_of_ports (congrArg₂ Ports.mk hinput houtput)
    · rw [Progress.withCapacity, Progress.isSome_ending?_mapData]
      exact hended
  · have hbeyond : capacity < p.written.length := hbeyond
    refine ⟨fun hle => absurd hle (Nat.not_le_of_lt hbeyond), fun _ => ?_⟩
    exact ⟨_, ⟨n, rfl, Progress.isSome_ending?_of_fault hfault⟩, hfault, hcut⟩

/-- Writes -5 and the euro sign, three bytes long, and then divides by zero. -/
def priceAndFail : Code :=
  .ofOps #[.push (-5), .writeNumber, .push 8364, .writeChar, .push 1, .push 0, .div]

/-- The output is cut between the sign and the digit, in the middle of the character, or not at
all; only then does the division fault. -/
theorem priceAndFail_truncated :
    ∃ p, (fresh [] .unlimited).Runs .standard priceAndFail p ∧
      p.written = [45, 53, 0xE2, 0x82, 0xAC] ∧ p.fault? = some (.divisionByZero, 6) ∧
      (fresh [] (.upTo 5)).Runs .standard priceAndFail (p.withCapacity 5) ∧
      (∃ q, (fresh [] (.upTo 1)).Runs .standard priceAndFail q ∧
        q.fault?.map Prod.fst = some .outputFull ∧ q.written = [45]) ∧
      ∃ q, (fresh [] (.upTo 4)).Runs .standard priceAndFail q ∧
        q.fault?.map Prod.fst = some .outputFull ∧ q.written = [45, 53, 0xE2, 0x82] := by
  have hp : (fresh [] .unlimited).Runs .standard priceAndFail
      ((fresh [] .unlimited).runFor .standard priceAndFail.ops 7) := ⟨7, rfl, by decide +kernel⟩
  have hwritten : ((fresh [] .unlimited).runFor .standard priceAndFail.ops 7).written =
      [45, 53, 0xE2, 0x82, 0xAC] := by decide +kernel
  have hcut := capacity_only_truncates hp
  rw [hwritten] at hcut
  exact ⟨_, hp, hwritten, by decide +kernel, (hcut 5).1 (by decide), (hcut 1).2 (by decide),
    (hcut 4).2 (by decide)⟩

end Machine

end Whitespace
