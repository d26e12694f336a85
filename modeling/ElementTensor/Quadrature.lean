import ElementTensor.SortedMap

/-!
Quadrature rules and collections with one rule per number of points.
-/
namespace ElementTensor

/-- A rule with one weight per point. -/
structure QuadratureRule (α : Type) where
  weights : List α
  points : List (List α)
  paired : weights.length = points.length

/-- The numbers of weights and points differ. -/
structure UnpairedWeights where

def UnpairedWeights.message (_ : UnpairedWeights) : String := "Number of weights and points must be the same."

namespace QuadratureRule
variable {α : Type}

def ofPoints (weights : List α) (points : List (List α)) : Except UnpairedWeights (QuadratureRule α) :=
  if h : weights.length = points.length then .ok ⟨weights, points, h⟩ else .error {}

def numPoints (r : QuadratureRule α) : Nat := r.weights.length

end QuadratureRule

/-- Rules by their number of points. -/
abbrev QuadratureRules (α : Type) := SortedMap Nat (QuadratureRule α)

namespace QuadratureRules
variable {α : Type}

/-- Adds a rule in place of the one with the same number of points. -/
def add (rules : QuadratureRules α) (r : QuadratureRule α) : QuadratureRules α := rules.insert r.numPoints r

end QuadratureRules
end ElementTensor
