import ElementTensor.Arena

/-!
Lists of vertices with the vertices that are asked for.
-/
namespace ElementTensor

structure ScalarGraph (α : Type) [Hashable α] where
  vertices : Array (Vertex α)
  /-- The vertices asked for, in the order in which they were asked for. -/
  targets : List Nat

namespace ScalarGraph

section
variable {α : Type} [Hashable α]

def size (g : ScalarGraph α) : Nat := g.vertices.size

/-- Operands of each vertex. -/
def operandLists (g : ScalarGraph α) : List (List Nat) := g.vertices.toList.map (·.operands)

/-- The terminal vertices with their indices. -/
def terminals (g : ScalarGraph α) : List (Nat × Expr α) :=
  g.vertices.toList.zipIdx.filterMap fun p => p.1.terminal?.map fun e => (p.2, e)

instance [BEq α] [ReflBEq α] : BEq (ScalarGraph α) :=
  ⟨fun g h => g.vertices == h.vertices && g.targets == h.targets⟩

end

/-- The vertices put one by one into an arena as they are. -/
def ofVertices {α : Type} [Scalar α] (vertices : List (Vertex α)) (targets : List Nat) : ScalarGraph α :=
  ⟨(vertices.foldl (fun a v => (a.insert v).2) (Arena.empty : Arena α)).vertices, targets⟩

end ScalarGraph
end ElementTensor
