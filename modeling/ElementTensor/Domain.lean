/-!
What is integrated over: cells, and the entities of cells that integrals run over.
-/
namespace ElementTensor

structure Cell where
  name : String
  topologicalDimension : Nat
  deriving DecidableEq

namespace Cell

def interval : Cell := ⟨"interval", 1⟩
def triangle : Cell := ⟨"triangle", 2⟩
def tetrahedron : Cell := ⟨"tetrahedron", 3⟩

def ofName? (name : String) : Option Cell := [interval, triangle, tetrahedron].find? (·.name == name)

end Cell

inductive EntityKind where
  | cell | facet
  deriving DecidableEq, Repr

def EntityKind.ofName? : String → Option EntityKind
  | "cell" => some .cell
  | "facet" => some .facet
  | _ => none

inductive IntegralKind where
  | cell
  | exteriorFacet
  | interiorFacet
  | vertex
  | custom
  /-- Values of expressions at points, outside of any integral. -/
  | expression
  deriving DecidableEq, Repr

namespace IntegralKind

def ofName? : String → Option IntegralKind
  | "cell" => some .cell
  | "exterior_facet" => some .exteriorFacet
  | "interior_facet" => some .interiorFacet
  | "vertex" => some .vertex
  | "custom" => some .custom
  | "expression" => some .expression
  | _ => none

def isCustom : IntegralKind → Bool
  | custom => true
  | _ => false

def isFacet : IntegralKind → Bool
  | exteriorFacet | interiorFacet => true
  | _ => false

/-- Tables are never integrated ahead of time. -/
def skipsPreintegration : IntegralKind → Bool
  | vertex | custom | interiorFacet | expression => true
  | _ => false

/-- Argument tables are never multiplied ahead of time. -/
def skipsPremultiplication : IntegralKind → Bool
  | vertex | custom | interiorFacet | expression => true
  | _ => false

/-- The integrand is scaled by the quadrature weight. Expressions and vertices have none, and on the
facets of an interval it is one. -/
def expectsWeight (kind : IntegralKind) (cell : Cell) (entity : EntityKind) : Bool :=
  !(kind == expression || kind == vertex) &&
    (entity == .cell || decide (cell.topologicalDimension > 1) || kind.isCustom)

end IntegralKind
end ElementTensor
