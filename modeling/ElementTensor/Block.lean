import ElementTensor.TableSource

/-!
Contributions of monomials to the element tensor: how they are computed, and the tables that are
computed for them ahead of time.
-/
namespace ElementTensor

/-- How the contribution of a monomial is computed. -/
inductive BlockMode where
  /-- `A += f * P`, where `P` sums weights times products of argument tables ahead of time. -/
  | preintegrated
  /-- `A += (sum of w * f) * P`, where `P` is the product of the argument tables. -/
  | premultiplied
  /-- `A += (sum of w * f * u) * v` with the piecewise argument `v` outside of the sum. -/
  | partially
  /-- `A +=` the sum of `w * f` times the product of the argument tables. -/
  | full
  /-- As `full`, where nothing may be computed ahead of time. -/
  | safe
  deriving DecidableEq, Repr

namespace BlockMode

def all : List BlockMode := [preintegrated, premultiplied, partially, full, safe]

def name : BlockMode → String
  | preintegrated => "preintegrated"
  | premultiplied => "premultiplied"
  | partially => "partial"
  | full => "full"
  | safe => "safe"

def ofName? (s : String) : Option BlockMode := all.find? (·.name == s)

/-- The mode of a monomial with argument tables of the given kinds: the first that applies. -/
def choose (kinds : List TableKind) (factorIsPiecewise : Bool) (integral : IntegralKind)
    (enablePreintegration : Bool) : BlockMode :=
  if !enablePreintegration then safe
  else if factorIsPiecewise && !kinds.isEmpty && !kinds.contains .quadrature && !integral.skipsPreintegration then
    preintegrated
  else if !kinds.isEmpty && kinds.all (·.isPiecewise) && !integral.skipsPremultiplication then premultiplied
  else if kinds.length == 2 && kinds.any (·.isPiecewise) then partially
  else full

end BlockMode

/-- The block of the element tensor that a tuple of dof ranges, one per argument, addresses. -/
abbrev DofBlock := List DofRange

/-- A modified argument with its table. The argument is numbered among the shared ones if the table
is piecewise, otherwise among those of its integrand. -/
structure BlockArgument where
  argument : Nat
  data : TableData
  deriving DecidableEq

/-- What sets contributions apart by the way they are computed. -/
inductive BlockForm where
  | preintegrated (table : String)
  | premultiplied (table : String)
  /-- `outside` is the position of the argument outside of the sum. -/
  | partially (arguments : List BlockArgument) (outside : Nat)
  | full (arguments : List BlockArgument)
  deriving DecidableEq

structure BlockContribution where
  mode : BlockMode
  kinds : List TableKind
  /-- The vertex of the factor, numbered among the shared ones if the factor is piecewise. -/
  factor : Nat
  factorIsPiecewise : Bool
  /-- Tables that the sum over the points reads. -/
  tables : List String
  /-- Side of each argument; none where the table is the same for all entities. -/
  restrictions : List (Option Restriction)
  form : BlockForm
  deriving DecidableEq

/-- All tables that a contribution reads. -/
def BlockForm.referencedTables : BlockForm → List String
  | preintegrated table | premultiplied table => [table]
  | partially arguments _ | full arguments => arguments.map (·.data.name)

abbrev BlockContributions := SortedMap DofBlock (List BlockContribution)

namespace BlockContributions

def add (m : BlockContributions) (block : DofBlock) (c : BlockContribution) : BlockContributions :=
  m.update block fun old => old.getD [] ++ [c]

/-- All contributions, block by block. -/
def flatten (m : BlockContributions) : List BlockContribution := m.values.flatten

/-- The modes that occur with the number of their contributions. -/
def modeCounts (m : BlockContributions) : List (BlockMode × Nat) :=
  (BlockMode.all.map fun mode => (mode, m.flatten.countP (·.mode == mode))).filter (·.2 != 0)

end BlockContributions

/-- Named tables with their numbers of dofs. -/
structure NamedTables (α : Type) where
  tables : SortedMap String (Table α)
  dofCounts : SortedMap String Nat

variable {α : Type} [Scalar α]

/-- A factor of a block: a stored table, or ones if there is none. -/
structure BlockFactor (α : Type) where
  table? : Option (Table α)
  dofs : Nat

namespace BlockFactor

/-- The values for one entity and point. A table with a single entity or a single point has these
values everywhere. None if there is no such entity, point or dof. -/
def values? (f : BlockFactor α) (entity point : Nat) : Option (List α) :=
  match f.table? with
  | none => some (List.replicate f.dofs 1)
  | some t =>
    let e := if t.entities = 1 then 0 else entity
    let q := if t.rows = 1 then 0 else point
    if f.dofs ≤ t.cols then (List.range f.dofs).mapM fun dof => t.get? e q dof else none

end BlockFactor

/-- The tables and dof counts behind the names; a table may be missing only if it holds ones. -/
def NamedTables.factors (ts : NamedTables α) (names : List String) (kinds : List TableKind) :
    Except (Failure α) (List (BlockFactor α)) := do
  let counts ← names.mapM fun name =>
    match ts.dofCounts.get? name with
    | some n => .ok n
    | none => .error (.inconsistent (.unknownDofCount name))
  let tables ← names.zipIdx.mapM fun p =>
    match ts.tables.get? p.1 with
    | some t => .ok (some t)
    | none =>
      if kinds[p.2]? = some TableKind.ones then .ok none
      else .error (.inconsistent (.missingTable p.1 kinds[p.2]?))
  return (tables.zip counts).map fun p => ⟨p.1, p.2⟩

/-- The outer product of one or two vectors, a single vector as a column. -/
def outerProduct : List (List α) → Except (Failure α) (RowMatrix α)
  | [u] => .ok ⟨u.length, 1, u.toArray⟩
  | [u, v] => .ok ⟨u.length, v.length, (u.flatMap fun a => v.map fun b => a * b).toArray⟩
  | _ => .error (.inconsistent .nothingToMultiply)

/-- The outer product of the argument tables at a point, for every entity. -/
def NamedTables.multiply (ts : NamedTables α) (names : List String) (kinds : List TableKind) (point : Nat) :
    Except (Failure α) (Table α) := do
  if names.isEmpty || names.length > 2 then throw (.inconsistent (.blockRank names.length))
  let factors ← ts.factors names kinds
  let entities := ((factors.filterMap (·.table?)).map (·.entities)).max?.getD 1
  let matrices ← (List.range entities).mapM fun e =>
    match factors.mapM fun f => f.values? e point with
    | none => .error .outOfRange
    | some vectors => outerProduct vectors
  match Table.ofMatrices matrices with
  | .ok t => return t
  | .error _ => throw .outOfRange

/-- Values of two tables combined place by place, with the extents of the first. -/
def Table.zipWith (f : α → α → α) (s t : Table α) : Table α :=
  Table.ofFn s.entities s.rows s.cols s.entities_pos fun e r c => f (s.value e r c) (t.value e r c)

def Table.scale (t : Table α) (w : α) : Table α :=
  Table.ofFn t.entities t.rows t.cols t.entities_pos fun e r c => t.value e r c * w

/-- The sum over the points of weight times outer product, in the order of the points. -/
def NamedTables.integrate (ts : NamedTables α) (names : List String) (kinds : List TableKind) (weights : List α) :
    Except (Failure α) (Table α) := do
  let scaled ← weights.zipIdx.mapM fun p => do return (← ts.multiply names kinds p.2).scale p.1
  match scaled with
  | [] => throw (.inconsistent .noQuadraturePoints)
  | t :: rest => return rest.foldl (Table.zipWith (· + ·)) t

end ElementTensor
