import Whitespace.Code

/-!
Landings: how control can arrive at an address other than from the op before it. Branches and
dispatcher entries whose target lies outside the code land nowhere.
-/
namespace Whitespace

/-- `site` is the last dispatcher entry that leads here. -/
structure Landing where
  branch : Bool
  site : Option Nat
  deriving DecidableEq, Repr

namespace Landing

def none : Landing := ⟨false, Option.none⟩

def isLanding (l : Landing) : Bool := l.branch || l.site.isSome

def describe : Landing → String
  | ⟨true, some site⟩ => s!"branch target, return site {site}"
  | ⟨false, some site⟩ => s!"return site {site}"
  | _ => "branch target"

def marker (l : Landing) : String :=
  if l.branch then "►" else if l.site.isSome then "↩" else " "

/-- Changes the landing at a target inside the code. -/
def update (landings : Array Landing) (target : Int) (change : Landing → Landing) : Array Landing :=
  if 0 ≤ target then landings.modify target.toNat change else landings

/-- Notes the landings that an op at `address` makes. -/
def note (landings : Array Landing) (op : Op) (address : Nat) : Array Landing :=
  match op with
  | .dispatch table =>
    table.toList.zipIdx.foldl (fun landings (offset, k) =>
      update landings (Op.target address offset) fun l => { l with site := some k }) landings
  | op =>
    match op.branchOffset? with
    | some offset => update landings (Op.target address offset) fun l => { l with branch := true }
    | Option.none => landings

/-- The landing at each address. -/
def all (ops : Array Op) : Array Landing :=
  ops.toList.zipIdx.foldl (fun landings (op, address) => note landings op address)
    (Array.replicate ops.size none)

end Landing

end Whitespace
