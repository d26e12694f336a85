import ElementTensor.Block
import ElementTensor.Monomial

/-!
The element tensor of an integral as a program: per quadrature rule a graph of factors with the
contributions that are computed in the loop over its points, and shared by all rules the piecewise
constant vertices, the modified arguments and the contributions that need no loop.
-/
namespace ElementTensor

inductive Integrands (α : Type) [Hashable α] where
  /-- Expressions evaluated outside of an integral, all at once. -/
  | expressions (es : List (Expr α))
  /-- One integrand per number of quadrature points. -/
  | perRule (es : SortedMap Nat (Expr α))

structure Integral (α : Type) [Hashable α] where
  cell : Cell
  kind : IntegralKind
  entity : EntityKind
  integrands : Integrands α
  /-- Shape of the element tensor; it has one axis per argument. -/
  tensorShape : Shape
  /-- The number that a coefficient has in the form, by its count. -/
  coefficientNumbering : SortedMap Nat Nat

/-- What is computed for one quadrature rule. -/
structure RulePart (α : Type) [Hashable α] where
  vertices : Array (Vertex α)
  /-- The factors of the monomials. -/
  targets : List Nat
  /-- The table of each terminal vertex. -/
  tableData : List (Option TableData)
  arguments : List (ModifiedTerminal α)
  blocks : BlockContributions
  varying : Marks
  needPoints : Bool
  needWeights : Bool

/-- What all rules share, without repetition. -/
structure SharedPart (α : Type) [Hashable α] where
  arena : Arena α := {}
  /-- The table of each vertex. -/
  tableData : List (Option TableData) := []
  arguments : List (ModifiedTerminal α) := []
  /-- Where each argument stands among them. -/
  positions : SortedMap (ModifiedTerminal α) Nat := ∅
  /-- Names of tables integrated ahead of time, by the names of the tables they come from. -/
  preintegrated : SortedMap (List String) String := ∅
  /-- Names of tables multiplied ahead of time, by the names of the tables they come from. -/
  premultiplied : SortedMap (List String) String := ∅
  blocks : BlockContributions := ∅

namespace SharedPart

section
variable {α : Type} [Hashable α]

/-- Position of an argument among the shared ones. -/
def argument? (p : SharedPart α) (t : ModifiedTerminal α) : Option Nat := p.positions.get? t

/-- Adds an argument at the end, unless there is an equal one. -/
def addArgument (p : SharedPart α) (t : ModifiedTerminal α) : SharedPart α :=
  if (p.argument? t).isSome then p
  else { p with arguments := p.arguments ++ [t], positions := p.positions.insert t p.arguments.length }

end

variable {α : Type} [Scalar α]

/-- Adds a vertex on shared operands with its table. Renumbering may have changed the order of its
operands, which is put right first. -/
def addVertex (p : SharedPart α) (v : Vertex α) (data : Option TableData) : Nat × SharedPart α :=
  let (i, arena) := p.arena.insertCanonical v
  let tableData := if i = p.arena.size then p.tableData ++ [data] else p.tableData
  (i, { p with arena, tableData })

end SharedPart

structure ElementProgram (α : Type) [Hashable α] where
  coefficientNumbering : SortedMap Nat Nat
  /-- Tables that contributions or active terminals read. -/
  tables : SortedMap String (Table α) := ∅
  /-- Kinds of all tables that came up. -/
  kinds : TableKinds := ∅
  shared : SharedPart α := {}
  /-- By number of points, none for expressions. -/
  rules : SortedMap (Option Nat) (RulePart α) := ∅
  numPoints : List (Option Nat)
  expectsWeight : Bool

end ElementTensor
