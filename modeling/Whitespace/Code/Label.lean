import Std.Data.HashMap
import Whitespace.BitString

/-!
Branch targets and labels while code is being laid out. A target is a destination whose address
may not be known yet; it gets one when it is placed. The label table gives every label that is
mentioned a target of its own, in the order of first mention, and knows which labels are marked.
-/
namespace Whitespace

structure Target where
  id : Nat
  deriving DecidableEq, Repr

/-- The targets handed out so far, each with the address it was last placed at. -/
structure Targets where
  addresses : Array (Option Nat)
  deriving Repr

namespace Targets

def empty : Targets := ⟨#[]⟩

def allocate (ts : Targets) : Target × Targets :=
  (⟨ts.addresses.size⟩, ⟨ts.addresses.push none⟩)

def place (ts : Targets) (t : Target) (address : Nat) : Targets :=
  ⟨ts.addresses.setIfInBounds t.id (some address)⟩

def address? (ts : Targets) (t : Target) : Option Nat :=
  ts.addresses[t.id]?.join

end Targets

structure LabelEntry where
  target : Target
  defined : Bool
  deriving DecidableEq, Repr

structure LabelTable where
  entries : Array (BitString × LabelEntry)
  /-- The position of each label among the entries. -/
  index : Std.HashMap BitString Nat

namespace LabelTable

def empty : LabelTable := ⟨#[], ∅⟩

def size (t : LabelTable) : Nat := t.entries.size

def find? (t : LabelTable) (label : BitString) : Option LabelEntry :=
  t.index[label]?.bind fun slot => t.entries[slot]?.map Prod.snd

/-- The entry of a label, which is made now, with a fresh target, if there is none. -/
def entry (t : LabelTable) (targets : Targets) (label : BitString) :
    LabelEntry × LabelTable × Targets :=
  match t.find? label with
  | some entry => (entry, t, targets)
  | none =>
    let (target, targets) := targets.allocate
    let entry := ⟨target, false⟩
    let slot := t.entries.size
    (entry, ⟨t.entries.push (label, entry), t.index.insert label slot⟩, targets)

/-- Sets the flag of a label that has an entry. -/
def setDefined (t : LabelTable) (label : BitString) : LabelTable :=
  match t.index[label]? with
  | none => t
  | some slot =>
    { t with
      entries := t.entries.modify slot fun (l, entry) => (l, { entry with defined := true }) }

/-- Marks a label as defined, with an entry made now if there is none. -/
def define (t : LabelTable) (targets : Targets) (label : BitString) : LabelTable × Targets :=
  let (_, t, targets) := t.entry targets label
  (t.setDefined label, targets)

/-- The first label, in order of first mention, that is not defined. -/
def undefined? (t : LabelTable) : Option BitString :=
  (t.entries.find? fun (_, entry) => !entry.defined).map Prod.fst

end LabelTable

end Whitespace
