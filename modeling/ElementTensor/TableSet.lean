import ElementTensor.ModifiedTerminal
import ElementTensor.SortedMap
import ElementTensor.Table

/-!
Tables by name, and the part of a table that belongs to a modified terminal.
-/
namespace ElementTensor

/-- The dofs from `start` up to, but without, `stop`. -/
structure DofRange where
  start : Nat
  stop : Nat
  deriving DecidableEq

namespace DofRange

def size (r : DofRange) : Nat := r.stop - r.start

def cmp : DofRange → DofRange → Ordering := compareLex (compareOn start) (compareOn stop)

instance : Ord DofRange := ⟨cmp⟩

instance : Std.TransOrd DofRange := by
  show Std.TransCmp cmp
  unfold cmp
  infer_instance

end DofRange

/-- A range of dofs in a named table. -/
structure TableRange where
  name : String
  dofs : DofRange
  deriving DecidableEq

/-- A range together with the kind of the table. -/
structure TableData where
  name : String
  dofs : DofRange
  kind : TableKind
  deriving DecidableEq

def TableData.isPiecewise (d : TableData) : Bool := d.kind.isPiecewise
def TableData.isUniform (d : TableData) : Bool := d.kind.isUniform

def TableRange.withKind (r : TableRange) (kind : TableKind) : TableData := ⟨r.name, r.dofs, kind⟩

abbrev TableKinds := SortedMap String TableKind

/-- The tables for the terminals of one integrand. Terminals without a table have no range. -/
structure TableSet (α : Type) [Hashable α] where
  tables : SortedMap String (Table α) := ∅
  kinds : TableKinds := ∅
  ranges : SortedMap (ModifiedTerminal α) TableRange := ∅
  /-- Number of dofs in the range of each table. -/
  dofCounts : SortedMap String Nat := ∅

/-- The kind registered for a table. -/
def TableKinds.find {α : Type} [Hashable α] (kinds : TableKinds) (name : String) : Except (Failure α) TableKind :=
  match kinds.get? name with
  | some k => .ok k
  | none => .error (.inconsistent (.unregisteredTable name))

/-- The range and the kind of a terminal's table, if it has one. -/
def TableSet.data? {α : Type} [Hashable α] (set : TableSet α) (t : ModifiedTerminal α) :
    Except (Failure α) (Option TableData) :=
  match set.ranges.get? t with
  | none => .ok none
  | some range =>
    match set.kinds.find range.name with
    | .ok kind => .ok (some (range.withKind kind))
    | .error e => .error e

end ElementTensor
