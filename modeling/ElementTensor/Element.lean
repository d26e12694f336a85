import ElementTensor.Fingerprint
import ElementTensor.Shape
import ElementTensor.SortedMap

/-!
Finite elements, reduced to what the shape and the numbering of components need.
-/
namespace ElementTensor

/-- Sends a component to the component that it always equals. -/
abbrev Symmetry := SortedMap MultiIndex MultiIndex

structure FiniteElement where
  family : String
  degree : Nat
  /-- Shape of a value in the physical frame. -/
  valueShape : Shape
  /-- Shape of a value in the reference frame. -/
  referenceShape : Shape
  symmetry : Symmetry
  deriving DecidableEq

namespace FiniteElement

def ofShape (family : String) (degree : Nat) (shape : Shape) : FiniteElement :=
  ⟨family, degree, shape, shape, ∅⟩

def lagrange (degree : Nat) : FiniteElement := ofShape "Lagrange" degree []

/-- Values are given at quadrature points only. -/
def quadrature (degree : Nat) : FiniteElement := ofShape "Quadrature" degree []

def isQuadrature (e : FiniteElement) : Bool := e.family == "Quadrature"

def isCellwiseConstant (e : FiniteElement) : Bool := e.degree == 0 && !e.isQuadrature

def fingerprint (e : FiniteElement) : Fingerprint :=
  let start := ((Fingerprint.mixText 1 e.family).mix e.degree.toUInt64).mixNats e.valueShape
  e.symmetry.entries.foldl (fun h p => (h.mixNats p.1).mixNats p.2) (start.mixNats e.referenceShape)

section
attribute [local instance] lexOrd

/-- Field by field. -/
def cmp : FiniteElement → FiniteElement → Ordering :=
  compareLex (compareOn family) <| compareLex (compareOn degree) <|
    compareLex (compareOn valueShape) <| compareLex (compareOn referenceShape) <|
      compareOn fun e => e.symmetry.entries

instance : Ord FiniteElement := ⟨cmp⟩

instance : Std.TransOrd FiniteElement := by
  show Std.TransCmp cmp
  unfold cmp
  infer_instance

end

end FiniteElement

/-- Components that the symmetry leaves alone, in row-major order. -/
def Symmetry.independent (sym : Symmetry) (s : Shape) : List MultiIndex :=
  s.components.filter fun c => !sym.contains c

/-- Number of a component among the independent ones. A component that is mapped has the number of
the one it is mapped to. -/
def Symmetry.number (sym : Symmetry) (s : Shape) (c : MultiIndex) : Nat :=
  ((sym.independent s).idxOf? ((sym.get? c).getD c)).getD 0

end ElementTensor
