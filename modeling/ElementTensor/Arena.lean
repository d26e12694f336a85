import ElementTensor.Sorting
import ElementTensor.Vertex

/-!
Stores of vertices in which equal vertices share one index. Vertices are only ever added, so an
index keeps its meaning.
-/
namespace ElementTensor

structure Arena (α : Type) [Hashable α] where
  vertices : Array (Vertex α) := #[]

namespace Arena
variable {α : Type} [Scalar α]

def empty : Arena α := {}
def size (a : Arena α) : Nat := a.vertices.size
def vertex? (a : Arena α) (i : Nat) : Option (Vertex α) := a.vertices[i]?
def literal? (a : Arena α) (i : Nat) : Option α := (a.vertex? i).bind (·.literal?)

@[simp] theorem size_empty : (empty : Arena α).size = 0 := rfl

/-- Index of the first vertex equal to `v`. -/
def find? (a : Arena α) (v : Vertex α) : Option Nat := a.vertices.findIdx? (· == v)

/-- Adds a vertex as it is, unless there is an equal one. -/
def insert (a : Arena α) (v : Vertex α) : Nat × Arena α :=
  match a.find? v with
  | some i => (i, a)
  | none => (a.size, ⟨a.vertices.push v⟩)

theorem vertex?_find? {a : Arena α} {v : Vertex α} {i : Nat} (h : a.find? v = some i) :
    ∃ w, a.vertex? i = some w ∧ (w == v) = true := by
  obtain ⟨hi, hw, _⟩ := Array.findIdx?_eq_some_iff_getElem.1 h
  exact ⟨a.vertices[i], by simp [vertex?], hw⟩

/-- The index returned leads to a vertex equal to the one added. -/
theorem vertex?_insert (a : Arena α) (v : Vertex α) :
    ∃ w, (a.insert v).2.vertex? (a.insert v).1 = some w ∧ (w == v) = true := by
  unfold insert
  split
  · next h => exact vertex?_find? h
  · exact ⟨v, by simp [vertex?, size], BEq.rfl⟩

end Arena

/-- The vertex with the operands of a commutative operation in ascending order. -/
def Vertex.canonical {α : Type} [Hashable α] : Vertex α → Vertex α
  | operation op js => operation op (if op.commutes then ascending js else js)
  | v => v

/-- What an operation comes to without a vertex of its own. -/
inductive Folded (α : Type) where
  | value (v : α)
  | operand (i : Nat)

/-- An operand with its value, if that is known. -/
abbrev Operand (α : Type) := Nat × Option α

namespace Folded
variable {α : Type} [Scalar α]

/-- The rules that spare a vertex: known operands are computed with, zero and one act as they do in
exact arithmetic. Division by a known zero is kept, unless zero is divided. -/
def ofBinary? : BinaryOp → Operand α → Operand α → Option (Folded α)
  | .sum, (_, some a), (_, some b) => some (.value (a + b))
  | .sum, (_, some a), (j, none) => if a == 0 then some (.operand j) else none
  | .sum, (i, none), (_, some b) => if b == 0 then some (.operand i) else none
  | .product, (_, some a), (_, some b) => some (.value (a * b))
  | .product, (_, some a), (j, none) =>
    if a == 0 then some (.value 0) else if a == 1 then some (.operand j) else none
  | .product, (i, none), (_, some b) =>
    if b == 0 then some (.value 0) else if b == 1 then some (.operand i) else none
  | .division, (_, some a), (_, some b) =>
    if b == 0 then (if a == 0 then some (.value 0) else none) else some (.value (a / b))
  | .division, (_, some a), (_, none) => if a == 0 then some (.value 0) else none
  | .division, (i, none), (_, some b) => if b == 1 then some (.operand i) else none
  | .power, (_, some a), (_, some b) => some (.value (Scalar.pow a b))
  | .power, (i, none), (_, some b) =>
    if b == 0 then some (.value 1) else if b == 1 then some (.operand i) else none
  | _, _, _ => none

def ofOp? : Op → List (Operand α) → Option (Folded α)
  | .unary op, [(_, some a)] => some (.value (op.apply a))
  | .binary op, [x, y] => ofBinary? op x y
  | _, _ => none

end Folded

namespace Arena
variable {α : Type} [Scalar α]

/-- Adds a vertex with its operands in canonical order. -/
def insertCanonical (a : Arena α) (v : Vertex α) : Nat × Arena α := a.insert v.canonical

/-- Adds a literal. All zeros are stored as one and the same. -/
def literal (a : Arena α) (v : α) : Nat × Arena α := a.insert (.literal (if v == 0 then 0 else v))

def terminal (a : Arena α) (e : Expr α) : Nat × Arena α := a.insert (.terminal e)

/-- Adds an operation, or what it folds to. -/
def operation (a : Arena α) (op : Op) (operands : List Nat) : Nat × Arena α :=
  match Folded.ofOp? op (operands.map fun i => (i, a.literal? i)) with
  | some (.value v) => a.literal v
  | some (.operand i) => (i, a)
  | none => a.insertCanonical (.operation op operands)

/-- Adds a vertex whose operands are numbered as here, folding it like a new one. -/
def reinsert (a : Arena α) : Vertex α → Nat × Arena α
  | .literal v => a.literal v
  | .terminal e => a.terminal e
  | .operation op operands => a.operation op operands

/-- Every operand is in the arena. -/
def admits (a : Arena α) (operands : List Nat) : Bool := operands.all (· < a.size)

/-- Adds an operation on operands that are required to be there. -/
def operation? (a : Arena α) (op : Op) (operands : List Nat) : Option (Nat × Arena α) :=
  if a.admits operands then some (a.operation op operands) else none

/-- Adds a folded vertex whose operands are required to be there. -/
def reinsert? (a : Arena α) (v : Vertex α) : Option (Nat × Arena α) :=
  if a.admits v.operands then some (a.reinsert v) else none

end Arena
end ElementTensor
