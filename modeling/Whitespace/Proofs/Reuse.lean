import Whitespace.Proofs.Limits
import Whitespace.Proofs.Lockstep

/-!
A machine can be used again. A run starts from a machine that has been reset, and while it goes on,
nothing that was written before is looked at; so whatever was done with a machine before, the next
run is that of a fresh machine on the input that is left, and its output comes after what was there.
-/
namespace Whitespace

/-- The inputs are the same, and the second machine, which has no capacity either, has written what
the first one has after the bytes `earlier`. -/
structure Ports.Appended (earlier : Array UInt8) (a a' : Ports) : Prop where
  input : a'.input = a.input
  unlimited : a.output.capacity = none
  output : a'.output = ⟨earlier ++ a.output.written, none⟩

theorem Ports.sharesInput_appended (earlier : Array UInt8) : SharesInput (Appended earlier) := by
  intro a a' h
  refine ⟨h.input, fun input _ => ?_⟩
  exact ⟨rfl, h.unlimited, h.output⟩

open Ports

namespace Data

variable {d d' : Data} {earlier : Array UInt8}

theorem write_of_unlimited (h : d.output.capacity = none) (bytes : List UInt8) :
    d.write bytes = .done { d with output := ⟨d.output.written ++ bytes, none⟩ } := by
  simp [write, Output.write, Output.room, h]

theorem Alike.write_appended (h : d.Alike (Appended earlier) d') (bytes : List UInt8) :
    (d.write bytes).Abreast (Appended earlier) NeverLost (d'.write bytes) := by
  obtain ⟨hinput, hunlimited, houtput⟩ := h.ports
  have houtput : d'.output = ⟨earlier ++ d.output.written, none⟩ := houtput
  have hunlimited' : d'.output.capacity = none := by rw [houtput]
  rw [write_of_unlimited hunlimited, write_of_unlimited hunlimited', houtput]
  refine .done ⟨h.stack, h.heap, hinput, rfl, ?_⟩
  have happend : earlier ++ d.output.written ++ bytes = earlier ++ (d.output.written ++ bytes) := by
    apply Array.ext'
    simp
  exact congrArg (Output.mk · none) happend

end Data

theorem companions_appended (earlier : Array UInt8) : Companions (Appended earlier) NeverLost where
  write bytes h := h.write_appended bytes
  readChar address h := h.readChar (sharesInput_appended earlier) address
  readNumber address h := h.readNumber (sharesInput_appended earlier) address
  stays _ _ _ h := h

/-- The same with its output after other bytes. -/
def Progress.writtenAfter (p : Progress) (earlier : Array UInt8) : Progress :=
  p.mapData fun d => { d with output := { d.output with written := earlier ++ d.output.written } }

namespace Machine

variable {limits : Limits} {m m' : Machine}

/-- Code is run from the start, and ends where `p` says. -/
def Runs (limits : Limits) (code : Code) (m : Machine) (p : Progress) : Prop :=
  Finishes limits code.ops m.reset p

/-- One turn with a machine: it is reset, or it runs some code to its end, good or bad. -/
inductive Turn (limits : Limits) (m : Machine) : Machine → Prop where
  | reset : Turn limits m m.reset
  | run {code : Code} {p : Progress} (h : m.Runs limits code p) : Turn limits m p.machine

theorem runFor_appended (limits : Limits) (ops : Array Op) (n : Nat)
    (h : m.data.output.capacity = none) :
    ((fresh m.data.input .unlimited).runFor limits ops n).Alike (Appended m.data.output.written)
      (m.reset.runFor limits ops n) := by
  have houtput : m.data.output = ⟨m.data.output.written ++ #[], none⟩ := by
    rw [Array.append_empty, ← h]
  have hstart : (fresh m.data.input .unlimited).Alike (Appended m.data.output.written) m.reset :=
    ⟨⟨rfl, rfl, rfl, rfl, houtput⟩, rfl, rfl, rfl⟩
  rcases hstart.runFor (companions_appended _) limits ops n with halike | hlost
  · exact halike
  · exact hlost.elim

theorem runFor_reset (limits : Limits) (ops : Array Op) (n : Nat)
    (h : m.data.output.capacity = none) :
    m.reset.runFor limits ops n =
      ((fresh m.data.input .unlimited).runFor limits ops n).writtenAfter m.data.output.written := by
  have halike := runFor_appended limits ops n h
  obtain ⟨hinput, hunlimited, houtput⟩ := halike.data.ports
  apply halike.eq_mapData
  rw [halike.data.eq_of_ports (congrArg₂ Ports.mk hinput houtput), ← hunlimited]
  rfl

/-- No turn gives a machine without a capacity one. -/
theorem Turn.unlimited (h : Turn limits m m') (hm : m.data.output.capacity = none) :
    m'.data.output.capacity = none := by
  cases h with
  | reset => exact hm
  | @run code p hrun =>
    obtain ⟨n, rfl, _⟩ := hrun
    have hports := (runFor_appended limits code.ops n hm).data.ports
    exact congrArg Output.capacity hports.output

theorem unlimited_of_turns {input : List UInt8}
    (h : Relation.ReflTransGen (Turn limits) (fresh input .unlimited) m) :
    m.data.output.capacity = none := by
  induction h with
  | refl => rfl
  | tail _ hturn ih => exact hturn.unlimited ih

/-- Whatever was done with a machine, code runs on it as on a fresh machine that is given the input
still unread: it ends if it does there, at the same point, with the same stack, heap and unread
input, and what it writes comes after what was written before. -/
theorem used_machine_runs_as_fresh {input : List UInt8}
    (h : Relation.ReflTransGen (Turn limits) (fresh input .unlimited) m) (code : Code)
    (q : Progress) :
    m.Runs limits code q ↔
      ∃ p, (fresh m.data.input .unlimited).Runs limits code p ∧
        q = p.writtenAfter m.data.output.written := by
  have hruns := fun n => runFor_reset limits code.ops n (unlimited_of_turns h)
  constructor
  · rintro ⟨n, rfl, hended⟩
    refine ⟨_, ⟨n, rfl, ?_⟩, hruns n⟩
    rw [hruns n, Progress.writtenAfter, Progress.isSome_ending?_mapData] at hended
    exact hended
  · rintro ⟨p, ⟨n, rfl, hended⟩, rfl⟩
    refine ⟨n, hruns n, ?_⟩
    rw [Progress.writtenAfter, Progress.isSome_ending?_mapData]
    exact hended

/-- Copies a character and then swaps the only value on the stack with one that is not there. -/
def copyAndFail : Code :=
  .ofOps #[.push 0, .readChar, .push 0, .load, .writeChar, .push 1, .swap]

/-- After a run that stopped in the middle of an op, and a reset, the next run is as good as new. -/
theorem copyAndFail_reused :
    ∃ m p q, Relation.ReflTransGen (Turn .standard) (fresh [65, 66] .unlimited) m ∧
      m.data.output.written = #[65] ∧ (fresh [66] .unlimited).Runs .standard copyAndFail p ∧
      p.written = [66] ∧ p.fault? = some (.stackUnderflow, 6) ∧
      m.Runs .standard copyAndFail q ∧ q = p.writtenAfter #[65] := by
  have hfirst : (fresh [65, 66] .unlimited).Runs .standard copyAndFail
      ((fresh [65, 66] .unlimited).runFor .standard copyAndFail.ops 7) :=
    ⟨7, rfl, by decide +kernel⟩
  have hp : (fresh [66] .unlimited).Runs .standard copyAndFail
      ((fresh [66] .unlimited).runFor .standard copyAndFail.ops 7) :=
    ⟨7, rfl, by decide +kernel⟩
  obtain ⟨m, hturns, hinput, hwritten⟩ : ∃ m,
      Relation.ReflTransGen (Turn .standard) (fresh [65, 66] .unlimited) m ∧
        m.data.input = [66] ∧ m.data.output.written = #[65] := by
    refine ⟨_, (Relation.ReflTransGen.single (.run hfirst)).tail .reset, ?_, ?_⟩
    · decide +kernel
    · decide +kernel
  have hruns := used_machine_runs_as_fresh hturns copyAndFail
  rw [hinput, hwritten] at hruns
  refine ⟨m, _, _, hturns, hwritten, hp, ?_, ?_, (hruns _).mpr ⟨_, hp, rfl⟩, rfl⟩
  · decide +kernel
  · decide +kernel

end Machine

end Whitespace
