import ElementTensor.Element

/-!
Leaf symbols of integrands.
-/
namespace ElementTensor

inductive Terminal where
  /-- A test or trial function; `number` is its position in the form. -/
  | argument (number : Nat) (part : Option Nat) (element : FiniteElement)
  | coefficient (count : Nat) (element : FiniteElement)
  | spatialCoordinate (gdim : Nat)
  | cellCoordinate (tdim : Nat)
  | facetCoordinate (tdim : Nat)
  | quadratureWeight
  | jacobian (gdim tdim : Nat) (affine : Bool)
  | facetNormal (gdim : Nat) (affine : Bool)
  | cellVolume
  deriving DecidableEq

namespace Terminal

/-- Shape of the value in the physical frame. -/
def shape : Terminal → Shape
  | argument _ _ e | coefficient _ e => e.valueShape
  | spatialCoordinate g => [g]
  | cellCoordinate t => [t]
  | facetCoordinate t => [t - 1]
  | quadratureWeight | cellVolume => []
  | jacobian g t _ => [g, t]
  | facetNormal g _ => [g]

def element? : Terminal → Option FiniteElement
  | argument _ _ e | coefficient _ e => some e
  | _ => none

/-- Only arguments and coefficients have another value in the reference frame. -/
def referenceShape (t : Terminal) : Shape := (t.element?.map (·.referenceShape)).getD t.shape

def isFormArgument (t : Terminal) : Bool := t.element?.isSome

def isArgument : Terminal → Bool
  | argument .. => true
  | _ => false

def isCellwiseConstant : Terminal → Bool
  | argument _ _ e | coefficient _ e => e.isCellwiseConstant
  | spatialCoordinate _ | cellCoordinate _ | facetCoordinate _ | quadratureWeight => false
  | jacobian _ _ affine | facetNormal _ affine => affine
  | cellVolume => true

def text : Terminal → String
  | argument n none _ => "v_" ++ toString n
  | argument n (some p) _ => "v_" ++ toString n ++ "^" ++ toString p
  | coefficient c _ => "w_" ++ toString c
  | spatialCoordinate _ => "x"
  | cellCoordinate _ => "X"
  | facetCoordinate _ => "Xf"
  | quadratureWeight => "weight"
  | jacobian .. => "J"
  | facetNormal .. => "n"
  | cellVolume => "volume"

/-- Position of the kind of terminal in the order of terminals. -/
def rank : Terminal → Nat
  | argument .. => 0
  | coefficient .. => 1
  | spatialCoordinate _ => 2
  | cellCoordinate _ => 3
  | facetCoordinate _ => 4
  | quadratureWeight => 5
  | jacobian .. => 6
  | facetNormal .. => 7
  | cellVolume => 8

/-- The numbers a terminal carries, in the order in which they are compared. -/
def numbers : Terminal → List Nat
  | argument n none _ => [n, 0]
  | argument n (some p) _ => [n, p + 1]
  | coefficient c _ => [c]
  | spatialCoordinate g => [g]
  | cellCoordinate t | facetCoordinate t => [t]
  | quadratureWeight | cellVolume => []
  | jacobian g t affine => [g, t, affine.toNat]
  | facetNormal g affine => [g, affine.toNat]

/-- First the kind, then the numbers, then the element. -/
def cmp : Terminal → Terminal → Ordering :=
  compareLex (compareOn rank) <| compareLex (compareOn numbers) <| compareOn element?

instance : Ord Terminal := ⟨cmp⟩

instance : Std.TransOrd Terminal := by
  show Std.TransCmp cmp
  unfold cmp
  infer_instance

def fingerprint (t : Terminal) : Fingerprint :=
  let h := Fingerprint.mixNats t.rank.toUInt64 t.numbers
  match t.element? with
  | some e => h.mix e.fingerprint
  | none => h

end Terminal
end ElementTensor
