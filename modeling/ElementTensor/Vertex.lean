import ElementTensor.Expr.Equality

/-!
Vertices of scalar computations. Each computes one number from the numbers of its operands.
-/
namespace ElementTensor

inductive Vertex (α : Type) [Hashable α] where
  | literal (value : α)
  /-- A scalar modified terminal. -/
  | terminal (e : Expr α)
  | operation (op : Op) (operands : List Nat)

namespace Vertex
variable {α : Type} [Hashable α]

def operands : Vertex α → List Nat
  | operation _ js => js
  | _ => []

def literal? : Vertex α → Option α
  | literal v => some v
  | _ => none

def terminal? : Vertex α → Option (Expr α)
  | terminal e => some e
  | _ => none

/-- The terminal inside a terminal vertex. -/
def core? (v : Vertex α) : Option Terminal := v.terminal?.bind (·.core?)

/-- The vertex with its operands renumbered. -/
def mapOperands (f : Nat → Nat) : Vertex α → Vertex α
  | operation op js => operation op (js.map f)
  | v => v

@[simp] theorem operands_mapOperands (f : Nat → Nat) (v : Vertex α) :
    (v.mapOperands f).operands = v.operands.map f := by cases v <;> rfl

/-- Equality of vertices; literals and terminals are compared by the equality of literals. -/
def beq [BEq α] [ReflBEq α] : Vertex α → Vertex α → Bool
  | literal a, literal b => a == b
  | terminal d, terminal e => d == e
  | operation f is, operation g js => f == g && is == js
  | _, _ => false

instance [BEq α] [ReflBEq α] : BEq (Vertex α) := ⟨beq⟩

instance [BEq α] [ReflBEq α] : ReflBEq (Vertex α) where
  rfl {v} := by
    show beq v v = true
    cases v <;> simp [beq]

instance [BEq α] [LawfulBEq α] : LawfulBEq (Vertex α) where
  eq_of_beq {v w} h := by
    replace h : beq v w = true := h
    cases v <;> cases w <;> simp_all [beq]
  rfl := BEq.rfl

end Vertex
end ElementTensor
