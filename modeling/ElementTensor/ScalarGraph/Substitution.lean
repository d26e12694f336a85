import ElementTensor.Failure
import ElementTensor.ScalarGraph
import ElementTensor.SortedMap

/-!
Replacing vertices by numbers. The vertices are first computed anew in their order, so that zeros
and ones fold away wherever the numbers reach; then only what the targets need is kept, numbered in
the order in which a walk from the targets, operands first and from left to right, comes upon it.
-/
namespace ElementTensor

/-- Numbers for some of the vertices. -/
abbrev Substitution (α : Type) := SortedMap Nat α

/-- The copy of a prefix of a graph, with the new index of each vertex copied. -/
structure Reconstruction (α : Type) [Hashable α] where
  arena : Arena α := {}
  renumbered : Array Nat := #[]

namespace Reconstruction
variable {α : Type} [Scalar α]

/-- Copies the next vertex, with index `i`; its operands must have been copied. -/
def step (σ : Substitution α) (r : Reconstruction α) (v : Vertex α) (i : Nat) : Option (Reconstruction α) :=
  let copy (p : Nat × Arena α) : Reconstruction α := ⟨p.2, r.renumbered.push p.1⟩
  match σ.get? i with
  | some value => some (copy (r.arena.literal value))
  | none =>
    if v.operands.all (· < r.renumbered.size) then
      some (copy (r.arena.reinsert (v.mapOperands fun j => r.renumbered.getD j 0)))
    else none

def ofGraph (σ : Substitution α) (g : ScalarGraph α) : Option (Reconstruction α) :=
  g.vertices.toList.zipIdx.foldlM (fun r p => r.step σ p.1 p.2) {}

end Reconstruction

/-- A walk over vertices: those come upon so far, and the new index of each. -/
structure Discovery (α : Type) [Hashable α] where
  arena : Arena α := {}
  found : Array (Option Nat)

namespace Discovery
variable {α : Type} [Scalar α]

/-- The new index of a vertex that was found. -/
def index (d : Discovery α) (i : Nat) : Nat := (d.found.getD i none).getD 0

/-- Comes upon vertex `i`, after its operands. Operands precede their vertex, so `bound`, which
exceeds every index still to be looked at, goes down. -/
def visit (source : Array (Vertex α)) (bound i : Nat) (d : Discovery α) : Discovery α :=
  match bound, source[i]? with
  | 0, _ | _, none => d
  | bound + 1, some v =>
    if (d.found.getD i none).isSome then d
    else
      let d := v.operands.foldl (fun d j => visit source bound j d) d
      let (k, arena) := d.arena.insert (v.mapOperands d.index)
      ⟨arena, d.found.setIfInBounds i (some k)⟩

end Discovery

namespace ScalarGraph
variable {α : Type} [Scalar α]

/-- What the targets are computed from, numbered in the order of discovery. -/
def compact (vertices : Array (Vertex α)) (targets : List Nat) : ScalarGraph α :=
  let start : Discovery α := { found := Array.replicate vertices.size none }
  let d := targets.foldl (fun d t => d.visit vertices vertices.size t) start
  ⟨d.arena.vertices, targets.map d.index⟩

/-- The graph with numbers in place of some vertices. Fails if a vertex that is kept comes before
one of its operands, or if a target is missing. -/
def substitute (g : ScalarGraph α) (σ : Substitution α) : Except (Failure α) (ScalarGraph α) :=
  match Reconstruction.ofGraph σ g with
  | none => .error .outOfRange
  | some r =>
    if g.targets.all (· < r.renumbered.size) then
      .ok (compact r.arena.vertices (g.targets.map fun t => r.renumbered.getD t 0))
    else .error .outOfRange

end ScalarGraph
end ElementTensor
