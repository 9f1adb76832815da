import Whitespace.Machine

/-!
Traces: the states of a run after each op, seen by running from the start with ever larger step
limits.
-/
namespace Whitespace

structure Trace where
  /-- The machine after one op, after two ops, and so on. -/
  states : List Machine
  /-- How the run ended, unless it went on beyond the last state. -/
  ending : Option Progress

namespace Trace

/-- A run from the start that is stopped after `n` ops. -/
def stoppedAfter (limits : Limits) (ops : Array Op) (start : Machine) (n : Nat) : Progress :=
  start.runFor { limits with maxSteps := some n } ops (n + 1)

/-- Adds up to `count` states to those after `n` ops and less. -/
def extend (limits : Limits) (ops : Array Op) (start : Machine) (states : Array Machine) (n : Nat) :
    Nat → Trace
  | 0 => ⟨states.toList, none⟩
  | count + 1 =>
    match stoppedAfter limits ops start (n + 1) with
    | .faulted (.stepLimit _) m => extend limits ops start (states.push m) (n + 1) count
    | ending => ⟨states.toList, some ending⟩

/-- At most `count` states. -/
def ofRun (limits : Limits) (ops : Array Op) (start : Machine) (count : Nat) : Trace :=
  extend limits ops start #[] 0 count

end Trace

end Whitespace
