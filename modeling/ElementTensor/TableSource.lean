import ElementTensor.Domain
import ElementTensor.Expr.Balance
import ElementTensor.Quadrature
import ElementTensor.Table.Compaction
import ElementTensor.TableSet

/-!
Where tables come from: any function from requests to table sets, in particular tables tabulated
ahead of time.
-/
namespace ElementTensor

/-- Choices that the caller has. -/
structure Parameters (α : Type) where
  /-- Otherwise every block is integrated at runtime. -/
  enablePreintegration : Bool
  /-- How far two table values may be apart and still count as equal. -/
  tableTolerance : α
  deriving DecidableEq

/-- What tables are wanted for. -/
structure TableRequest (α : Type) where
  /-- Number of quadrature points, none outside of integrals. -/
  numPoints : Option Nat
  rules : QuadratureRules α
  cell : Cell
  integral : IntegralKind
  entity : EntityKind
  parameters : Parameters α

/-- A source answers a request for the tables of some terminals. -/
abbrev TableSource (α : Type) [Hashable α] :=
  TableRequest α → List (ModifiedTerminal α) → Except TableFault (TableSet α)

/-- Tables by number of points and terminal, each with its name. -/
abbrev TabulatedTables (α : Type) [Hashable α] :=
  SortedMap (Option Nat) (SortedMap (ModifiedTerminal α) (String × Table α))

namespace TabulatedTables
variable {α : Type} [Scalar α]

/-- Number of tables. -/
def count (ts : TabulatedTables α) : Nat := ts.values.foldr (fun m n => m.size + n) 0

/-- Registers the table of a terminal, whose modifiers may be in any order. -/
def register (ts : TabulatedTables α) (numPoints : Option Nat) (e : Expr α) (name : String)
    (table : Table α) : Except (Failure α) (TabulatedTables α) :=
  match e.balance with
  | .error fault => .error (.shapes fault)
  | .ok e => do
    let t ← ModifiedTerminal.ofExpr e
    return ts.update numPoints fun old => (old.getD ∅).insert t (name, table)

/-- A table made ready for use: what is kept of it, the dofs that are kept, and its kind. -/
structure Prepared (α : Type) where
  table : Table α
  dofs : DofRange
  kind : TableKind

/-- Takes away the vanishing dofs of a registered table, then the points and entities that it does
not vary over. -/
def prepare (t : ModifiedTerminal α) (table : Table α) (eps : α) : Prepared α :=
  let (start, stop) := table.support eps
  let stripped := table.columns start stop
  let kind := stripped.classify (t.terminal.element?.any (·.isQuadrature)) eps
  ⟨stripped.compact kind, ⟨start, stop⟩, kind⟩

/-- Adds the table of a terminal to an answer. Terminals may share a name only if their tables
agree. -/
def answer (eps : α) (set : TableSet α) (t : ModifiedTerminal α) (name : String) (table : Table α) :
    Except TableFault (TableSet α) :=
  let p := prepare t table eps
  if (set.tables.get? name).all fun old => old.close eps p.table then
    .ok {
      tables := set.tables.insert name p.table
      kinds := set.kinds.insert name p.kind
      dofCounts := set.dofCounts.insert name p.dofs.size
      ranges := set.ranges.insert t ⟨name, p.dofs⟩ }
  else .error (.conflictingValues name)

/-- Adds the table registered for a terminal, if there is one; it must have one row per point. -/
def extend (registered : SortedMap (ModifiedTerminal α) (String × Table α)) (numPoints : Option Nat) (eps : α)
    (set : TableSet α) (t : ModifiedTerminal α) : Except TableFault (TableSet α) :=
  match registered.get? t with
  | none => .ok set
  | some (name, table) =>
    match numPoints with
    | none => answer eps set t name table
    | some n =>
      if table.rows = n then answer eps set t name table else .error (.pointCount name table.rows n)

/-- Answers with the tables registered for the number of points. -/
def source (ts : TabulatedTables α) : TableSource α := fun request terminals =>
  match ts.get? request.numPoints with
  | none => .ok {}
  | some registered =>
    terminals.foldlM (extend registered request.numPoints request.parameters.tableTolerance) {}

end TabulatedTables
end ElementTensor
