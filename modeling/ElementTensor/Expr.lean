import ElementTensor.Operation
import ElementTensor.Terminal

/-!
Symbolic expressions of integrands. Every node carries its shape and a fingerprint, so that reading
them costs nothing however large the expression is; shapes are meaningful for expressions made by
the checked constructors of `Expr.Construction`.
-/
namespace ElementTensor

/-- Side of an interior facet. -/
inductive Restriction where
  | plus | minus
  deriving DecidableEq, Ord, Repr

inductive Averaging where
  | cell | facet
  deriving DecidableEq, Ord, Repr

/-- What may be wrapped around a terminal without making it a computed quantity. -/
inductive Modifier where
  /-- Fixed indices for the leading axes, possibly for all of them. -/
  | indexed (indices : MultiIndex)
  /-- Gradient in reference coordinates of the given dimension. -/
  | referenceGrad (dim : Nat)
  /-- Gradient in physical coordinates of the given dimension. -/
  | grad (dim : Nat)
  | restricted (side : Restriction)
  | averaged (domain : Averaging)
  deriving DecidableEq

namespace Modifier

/-- Shape of an expression of shape `s` under the modifier: indexing takes axes away in front, a
gradient adds one behind. -/
def shape : Modifier → Shape → Shape
  | indexed is, s => s.drop is.length
  | referenceGrad d, s | grad d, s => s ++ [d]
  | restricted _, s | averaged _, s => s

def fingerprint : Modifier → Fingerprint
  | indexed is => Fingerprint.mixNats 61 is
  | referenceGrad d => Fingerprint.mix 67 d.toUInt64
  | grad d => Fingerprint.mix 71 d.toUInt64
  | restricted .plus => 73
  | restricted .minus => 79
  | averaged .cell => 83
  | averaged .facet => 89

end Modifier

section
-- `h` stands for the hash of literals in the types of the computed fields
variable (α : Type) (h : Hashable α)

/-- An expression over literals of type `α`. A list tensor is its last item, `single`, under the
items before it, each added in front by `stack`. -/
inductive Expr [Hashable α] where
  | literal (value : α)
  | terminal (t : Terminal)
  /-- The value of a form argument in the reference frame. -/
  | reference (t : Terminal)
  | modified (m : Modifier) (operand : Expr)
  | unary (op : UnaryOp) (operand : Expr)
  | binary (op : BinaryOp) (left right : Expr)
  /-- Full contraction of two tensors. -/
  | inner (left right : Expr)
  | single (item : Expr)
  | stack (item rest : Expr)
with
  @[computed_field] shape : Expr α → Shape
    | .literal _ => []
    | .terminal t => t.shape
    | .reference t => t.referenceShape
    | .modified m e => m.shape e.shape
    | .unary _ _ => []
    | .binary _ a b => if a.shape.isEmpty then b.shape else a.shape
    | .inner _ _ => []
    | .single e => 1 :: e.shape
    | .stack _ r => r.shape.grow
  /-- Made up of the node and the fingerprints of its operands. -/
  @[computed_field] fingerprint : Expr α → Fingerprint
    | .literal v => Fingerprint.mix 3 (hash v)
    | .terminal t => Fingerprint.mix 5 t.fingerprint
    | .reference t => Fingerprint.mix 7 t.fingerprint
    | .modified m e => (Fingerprint.mix 11 m.fingerprint).mix e.fingerprint
    | .unary op e => (Fingerprint.mix 13 op.tag).mix e.fingerprint
    | .binary op a b => ((Fingerprint.mix 17 op.tag).mix a.fingerprint).mix b.fingerprint
    | .inner a b => (Fingerprint.mix 19 a.fingerprint).mix b.fingerprint
    | .single e => Fingerprint.mix 23 e.fingerprint
    | .stack e r => (Fingerprint.mix 29 e.fingerprint).mix r.fingerprint
end

namespace Expr
variable {α : Type} [Hashable α]

def isScalar (e : Expr α) : Bool := e.shape.isEmpty

/-- Number of scalar components. -/
def valueSize (e : Expr α) : Nat := e.shape.size

/-- Number of nodes, shared ones counted as often as they occur. -/
def size : Expr α → Nat
  | literal _ | terminal _ | reference _ => 1
  | modified _ e | unary _ e | single e => e.size + 1
  | binary _ a b | inner a b | stack a b => a.size + b.size + 1

theorem size_pos (e : Expr α) : 0 < e.size := by cases e <;> simp [size]

/-- The terminal under a stack of modifiers. Literals carry no table and are none. -/
def core? : Expr α → Option Terminal
  | terminal t | reference t => some t
  | modified _ e => e.core?
  | _ => none

def isModifiedTerminal (e : Expr α) : Bool := e.core?.isSome

def literal? : Expr α → Option α
  | literal v => some v
  | _ => none

/-- Items of a list tensor. -/
def items : Expr α → List (Expr α)
  | single e => [e]
  | stack e r => e :: r.items
  | _ => []

/-- The expression is a list tensor. -/
def isList (e : Expr α) : Bool := !e.items.isEmpty

/-- Direct operands from left to right, of a list tensor its items. -/
def operands : Expr α → List (Expr α)
  | literal _ | terminal _ => []
  | reference t => [terminal t]
  | modified _ e | unary _ e => [e]
  | binary _ a b | inner a b => [a, b]
  | single e => [e]
  | stack e r => e :: r.items

/-- The list tensor of `item` and the items after it. -/
def ofItems (item : Expr α) : List (Expr α) → Expr α
  | [] => single item
  | next :: rest => stack item (ofItems next rest)

@[simp] theorem items_ofItems (item : Expr α) (rest : List (Expr α)) :
    (ofItems item rest).items = item :: rest := by
  induction rest generalizing item with
  | nil => rfl
  | cons next rest ih => simp [ofItems, items, ih]

/-- How a node computes its value. -/
inductive Kind where
  | terminal | modifier | operator
  deriving DecidableEq, Repr

def kind : Expr α → Kind
  | literal _ | terminal _ => .terminal
  | reference _ | modified .. => .modifier
  | unary .. | binary .. | inner .. | single _ | stack .. => .operator

end Expr
end ElementTensor
