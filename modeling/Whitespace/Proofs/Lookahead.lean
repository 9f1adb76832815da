import Whitespace.Proofs.Limits
import Whitespace.Proofs.Lockstep

/-!
A run looks one byte ahead of what it consumes and no further: of two inputs that agree up to the
byte after those consumed, it cannot tell one from the other.
-/
namespace Whitespace

namespace Ports

/-- The same ports, with nothing to read but an end of `input`. -/
def EndOf (input : List UInt8) (a a' : Ports) : Prop := a' = a ∧ a.input <:+ input

/-- The inputs are the same up to the byte `c`, after which the one goes on with `s` and the other
with `s'`. -/
structure Forked (c : UInt8) (s s' : List UInt8) (a a' : Ports) : Prop where
  output : a'.output = a.output
  input : ∃ q, a.input = q ++ c :: s ∧ a'.input = q ++ c :: s'

/-- The byte before `s` has been consumed, and nothing is known of the other machine. -/
def Beyond (s : List UInt8) (a : Ports) (_ : Option Fault) (_ : Ports) : Prop :=
  a.input.length ≤ s.length

theorem sharesInput_endOf (input : List UInt8) : SharesInput (EndOf input) := by
  rintro a _ ⟨rfl, hsuffix⟩
  refine ⟨rfl, fun rest hrest => ?_⟩
  exact ⟨rfl, hrest.trans hsuffix⟩

theorem sharesOutput_endOf (input : List UInt8) : SharesOutput (EndOf input) := by
  rintro a _ ⟨rfl, hsuffix⟩
  exact ⟨rfl, fun output => ⟨rfl, hsuffix⟩⟩

theorem sharesOutput_forked (c : UInt8) (s s' : List UInt8) : SharesOutput (Forked c s s') := by
  intro a a' h
  exact ⟨h.output, fun output => ⟨rfl, h.input⟩⟩

end Ports

open Ports

/-- A machine beside itself. -/
theorem companions_endOf (input : List UInt8) : Companions (EndOf input) NeverLost where
  write bytes h := h.write (sharesOutput_endOf input) bytes
  readChar address h := h.readChar (sharesInput_endOf input) address
  readNumber address h := h.readNumber (sharesInput_endOf input) address
  stays _ _ _ h := h

/-- Input is consumed from the front. -/
theorem Machine.suffix_runFor (limits : Limits) (ops : Array Op) (n : Nat) (m : Machine) :
    (m.runFor limits ops n).machine.data.input <:+ m.data.input := by
  have hself : m.Alike (EndOf m.data.input) m :=
    ⟨⟨rfl, rfl, rfl, List.suffix_refl _⟩, rfl, rfl, rfl⟩
  rcases hself.runFor (companions_endOf m.data.input) limits ops n with halike | hlost
  · exact halike.data.ports.2
  · exact hlost.elim

theorem Progress.suffix_resume (limits : Limits) (ops : Array Op) (n : Nat) (p : Progress) :
    (p.resume limits ops n).machine.data.input <:+ p.machine.data.input := by
  cases p with
  | running m => exact m.suffix_runFor limits ops n
  | halted m => exact List.suffix_refl _
  | faulted f m => exact List.suffix_refl _

namespace Data.Alike

variable {c : UInt8} {s s' : List UInt8} {d d' : Data}

theorem readChar_forked (h : d.Alike (Forked c s s') d') (address : Word) :
    (d.readChar address).Abreast (Forked c s s') (Beyond s) (d'.readChar address) := by
  obtain ⟨q, hinput, hinput'⟩ := h.ports.input
  have hinput : d.input = q ++ c :: s := hinput
  have hinput' : d'.input = q ++ c :: s' := hinput'
  have hsome : d.input ≠ [] := by simp [hinput]
  obtain ⟨ch, rest, hread, -, -⟩ := Utf8.exists_readChar hsome
  rw [readChar_of_some hread]
  by_cases hleft : s.length < rest.length
  · rw [hinput] at hread
    obtain ⟨q', rfl, hread'⟩ := Utf8.readChar_swap hread hleft s'
    rw [readChar_of_some (hinput' ▸ hread')]
    refine .done (set ?_ address _)
    exact ⟨h.stack, h.heap, h.ports.output, q', rfl, rfl⟩
  · exact .lost (Nat.le_of_not_lt hleft)

theorem readNumber_forked (h : d.Alike (Forked c s s') d') (address : Word) :
    (d.readNumber address).Abreast (Forked c s s') (Beyond s) (d'.readNumber address) := by
  obtain ⟨q, hinput, hinput'⟩ := h.ports.input
  have hinput : d.input = q ++ c :: s := hinput
  have hinput' : d'.input = q ++ c :: s' := hinput'
  have hsome : d.input ≠ [] := by simp [hinput]
  have hsome' : d'.input ≠ [] := by simp [hinput']
  rw [readNumber_of_ne_nil hsome, readNumber_of_ne_nil hsome', hinput, hinput']
  by_cases hleft : s.length < (afterLine (q ++ c :: s)).length
  · obtain ⟨q', hq'⟩ := line_swap hleft
    rw [(hq' _).1, (hq' _).1, (hq' _).2, (hq' _).2]
    apply storeLine
    exact ⟨h.stack, h.heap, h.ports.output, q', rfl, rfl⟩
  · apply DataStep.Abreast.lost
    rw [ports_storeLine]
    exact Nat.le_of_not_lt hleft

end Data.Alike

theorem companions_forked (c : UInt8) (s s' : List UInt8) :
    Companions (Forked c s s') (Beyond s) where
  write bytes h := h.write (sharesOutput_forked c s s') bytes
  readChar address h := h.readChar_forked address
  readNumber address h := h.readNumber_forked address
  stays limits ops n h := (Progress.suffix_resume limits ops n _).length_le.trans h

namespace Progress

/-- The same with other input left to read. -/
def withInput (p : Progress) (input : List UInt8) : Progress := p.mapData ({ · with input })

/-- How many bytes of `input` have been read. -/
def consumed (p : Progress) (input : List UInt8) : Nat :=
  input.length - p.machine.data.input.length

theorem withInput_self (p : Progress) : p.withInput p.machine.data.input = p := by
  cases p <;> rfl

theorem consumed_withInput {front : List UInt8} (p : Progress) (rest : List UInt8) :
    (p.withInput rest).consumed (front ++ rest) = front.length := by
  have hinput : (p.withInput rest).machine.data.input = rest := by cases p <;> rfl
  rw [consumed, hinput, List.length_append, Nat.add_sub_cancel]

end Progress

/-- What is cut off behind its end is all there is. -/
theorem eq_of_take_length_succ {a b : List UInt8} (h : b.take (a.length + 1) = a) : b = a := by
  have hlength := congrArg List.length h
  rw [List.length_take] at hlength
  rw [List.take_of_length_le (by omega)] at h
  exact h

theorem exists_fork {front b : List UInt8} {c : UInt8} {s : List UInt8}
    (h : b.take (front.length + 1) = (front ++ c :: s).take (front.length + 1)) :
    ∃ s', b = front ++ c :: s' := by
  refine ⟨b.drop (front.length + 1), ?_⟩
  have htake : (front ++ c :: s).take (front.length + 1) = front ++ [c] := by
    simp [List.take_append]
  calc b = b.take (front.length + 1) ++ b.drop (front.length + 1) :=
        (List.take_append_drop _ b).symm
    _ = front ++ c :: b.drop (front.length + 1) := by
        rw [h, htake, List.append_assoc]
        rfl

namespace Machine

variable {limits : Limits} {ops : Array Op}

/-- As long as the byte `c` is left, a run is the same whatever comes after that byte. -/
theorem runFor_fork {front s : List UInt8} {c : UInt8} {output : Output} {n : Nat}
    (h : ((fresh (front ++ c :: s) output).runFor limits ops n).machine.data.input = c :: s)
    (s' : List UInt8) :
    (fresh (front ++ c :: s') output).runFor limits ops n =
      ((fresh (front ++ c :: s) output).runFor limits ops n).withInput (c :: s') := by
  have hstart : (fresh (front ++ c :: s) output).Alike (Forked c s s')
      (fresh (front ++ c :: s') output) :=
    ⟨⟨rfl, rfl, rfl, front, rfl, rfl⟩, rfl, rfl, rfl⟩
  rcases hstart.runFor (companions_forked c s s') limits ops n with halike | hlost
  · obtain ⟨houtput, q, hq, hq'⟩ := halike.data.ports
    have hnil : q = [] := List.append_left_eq_self.mp (hq.symm.trans h)
    rw [hnil] at hq'
    apply halike.eq_mapData
    exact halike.data.eq_of_ports (congrArg₂ Ports.mk hq' houtput)
  · have hle : (c :: s).length ≤ s.length := h ▸ hlost
    exact absurd hle (Nat.not_succ_le_self s.length)

/-- A run takes its input from the front. On any other input that agrees with it up to the byte
after those that were consumed, the run takes as many and comes to the same end. -/
theorem run_looks_one_byte_ahead {input : List UInt8} {output : Output} {p : Progress}
    (hp : Finishes limits ops (fresh input output) p) :
    p.machine.data.input = input.drop (p.consumed input) ∧
      ∀ other : List UInt8,
        other.take (p.consumed input + 1) = input.take (p.consumed input + 1) →
        ∃ p', Finishes limits ops (fresh other output) p' ∧
          p'.consumed other = p.consumed input ∧
          p' = p.withInput (other.drop (p.consumed input)) := by
  obtain ⟨n, hrun, hended⟩ := hp
  obtain ⟨front, hfront⟩ : p.machine.data.input <:+ input :=
    hrun ▸ suffix_runFor limits ops n (fresh input output)
  have hconsumed : p.consumed input = front.length := by
    rw [← hfront, Progress.consumed, List.length_append, Nat.add_sub_cancel]
  rw [hconsumed]
  refine ⟨by rw [← hfront, List.drop_left], fun other hother => ?_⟩
  -- either all was consumed, and the other input is the same, or the next byte is the same
  suffices h : ∃ rest, other = front ++ rest ∧
      (fresh other output).runFor limits ops n = p.withInput rest by
    obtain ⟨rest, rfl, hother⟩ := h
    refine ⟨_, ⟨n, hother, ?_⟩, p.consumed_withInput rest, by rw [List.drop_left]⟩
    rw [Progress.withInput, Progress.isSome_ending?_mapData]
    exact hended
  cases hleft : p.machine.data.input with
  | nil =>
    rw [hleft, List.append_nil] at hfront
    subst hfront
    rw [List.take_of_length_le (Nat.le_succ _)] at hother
    rw [eq_of_take_length_succ hother, hrun]
    refine ⟨[], (List.append_nil _).symm, ?_⟩
    rw [← hleft, p.withInput_self]
  | cons c s =>
    rw [hleft] at hfront
    subst hfront
    obtain ⟨s', rfl⟩ := exists_fork hother
    have hfork := runFor_fork (n := n) (by rw [hrun, hleft]) s'
    rw [hrun] at hfork
    exact ⟨c :: s', rfl, hfork⟩

/-- Writes the code point of the character it reads. -/
def echoCode : Array Op := #[.push 0, .readChar, .push 0, .load, .writeNumber, .halt]

/-- The first byte asks for one more, but the letter after it does not continue it. -/
theorem echoCode_looks_ahead :
    ∃ p, Finishes .standard echoCode (fresh [0xC3, 65, 66, 67] .unlimited) p ∧
      p.consumed [0xC3, 65, 66, 67] = 1 ∧ p.written = [54, 53, 53, 51, 51] ∧
      ∃ p', Finishes .standard echoCode (fresh [0xC3, 65] .unlimited) p' ∧
        p'.consumed [0xC3, 65] = 1 ∧ p' = p.withInput [65] := by
  have hp : Finishes .standard echoCode (fresh [0xC3, 65, 66, 67] .unlimited)
      ((fresh [0xC3, 65, 66, 67] .unlimited).runFor .standard echoCode 6) :=
    ⟨6, rfl, by decide +kernel⟩
  have hconsumed : ((fresh [0xC3, 65, 66, 67] .unlimited).runFor .standard echoCode 6).consumed
      [0xC3, 65, 66, 67] = 1 := by decide +kernel
  have hahead := (run_looks_one_byte_ahead hp).2 [0xC3, 65] (by rw [hconsumed]; rfl)
  rw [hconsumed] at hahead
  exact ⟨_, hp, hconsumed, by decide +kernel, hahead⟩

end Machine

end Whitespace
