/-!
Kinds of tables, by what their values vary over.
-/
namespace ElementTensor

inductive TableKind where
  | zeros
  | ones
  /-- Constant over entities and points. -/
  | fixed
  /-- Constant over points, varying over entities. -/
  | piecewise
  /-- Constant over entities, varying over points. -/
  | uniform
  | varying
  /-- Values of a quadrature element. -/
  | quadrature
  /-- An element tensor block integrated ahead of time. -/
  | preintegrated
  /-- An element tensor block multiplied ahead of time. -/
  | premultiplied
  deriving DecidableEq, Repr

namespace TableKind

/-- Values are constant over the points. -/
def isPiecewise : TableKind → Bool
  | piecewise | fixed | ones | zeros => true
  | _ => false

/-- Values are constant over the entities. -/
def isUniform : TableKind → Bool
  | uniform | fixed | ones | zeros => true
  | _ => false

/-- Values depend on the quadrature point. -/
def isVarying : TableKind → Bool
  | varying | uniform | quadrature => true
  | _ => false

/-- Tables of this kind are known without being stored. -/
def isImplicit : TableKind → Bool
  | zeros | ones | quadrature => true
  | _ => false

def all : List TableKind :=
  [zeros, ones, fixed, piecewise, uniform, varying, quadrature, preintegrated, premultiplied]

def name : TableKind → String
  | zeros => "zeros"
  | ones => "ones"
  | fixed => "fixed"
  | piecewise => "piecewise"
  | uniform => "uniform"
  | varying => "varying"
  | quadrature => "quadrature"
  | preintegrated => "preintegrated"
  | premultiplied => "premultiplied"

def title : TableKind → String
  | zeros => "Zeros"
  | ones => "Ones"
  | fixed => "Fixed"
  | piecewise => "Piecewise"
  | uniform => "Uniform"
  | varying => "Varying"
  | quadrature => "Quadrature"
  | preintegrated => "Preintegrated"
  | premultiplied => "Premultiplied"

def ofName? (s : String) : Option TableKind := all.find? fun k => k.name == s

end TableKind
end ElementTensor
