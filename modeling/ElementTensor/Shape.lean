/-!
Tensor shapes and their multi-indices in row-major order.
-/
namespace ElementTensor

/-- Extents of the axes of a tensor, outermost first; a scalar has none. -/
abbrev Shape := List Nat

/-- One index per axis. -/
abbrev MultiIndex := List Nat

namespace Shape

/-- Number of scalar components. -/
def size (s : Shape) : Nat := s.foldr (· * ·) 1

@[simp] theorem size_nil : size [] = 1 := rfl
@[simp] theorem size_cons (d : Nat) (s : Shape) : size (d :: s) = d * size s := rfl

/-- All multi-indices, the last axis running fastest. -/
def components : Shape → List MultiIndex
  | [] => [[]]
  | d :: s => (List.range d).flatMap fun i => (components s).map (i :: ·)

/-- Row-major position of a multi-index. -/
def flatIndex (s : Shape) (c : MultiIndex) : Nat :=
  (c.zip s).foldl (fun flat p => flat * p.2 + p.1) 0

theorem length_components (s : Shape) : (components s).length = s.size := by
  induction s with
  | nil => rfl
  | cons d s ih => simp [components, ih, List.length_flatMap, List.map_const']

/-- Every index lies on its axis; axes without an index are free. -/
def admits (s : Shape) (c : MultiIndex) : Bool := (c.zip s).all fun p => decide (p.1 < p.2)

/-- The shape with one more row on its leading axis. -/
def grow : Shape → Shape
  | [] => []
  | n :: s => (n + 1) :: s

end Shape
end ElementTensor
