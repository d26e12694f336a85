import ElementTensor.Expr
import ElementTensor.Text.Quoted

/-!
Checked constructors: an expression is made only out of operands whose shapes fit.
-/
namespace ElementTensor

/-- Why an expression cannot be made. -/
inductive ShapeFault where
  | tooManyIndices (shape : Shape) (count : Nat)
  | notFormArgument
  | unequalTerms
  | tensorFactors
  | tensorDivisor
  | tensorPower
  | tensorArgument (op : UnaryOp)
  | operandCount (count : Nat) (op : Op)
  | unequalContraction
  | noItems
  | unequalItems
  deriving DecidableEq

def ShapeFault.message : ShapeFault → String
  | tooManyIndices s n =>
    "Cannot index expression of shape " ++ listing s ++ " with " ++ toString n ++ " indices."
  | notFormArgument => "Reference value can only be taken of form arguments."
  | unequalTerms => "Sum of expressions with different shapes."
  | tensorFactors => "Product of two non-scalar expressions, use an inner product instead."
  | tensorDivisor => "Division by non-scalar expression."
  | tensorPower => "Power of non-scalar expressions."
  | tensorArgument op => op.title ++ " of non-scalar expression."
  | operandCount n op => "Wrong number of operands (" ++ toString n ++ ") for " ++ op.title ++ "."
  | unequalContraction => "Inner product of expressions with different shapes."
  | noItems => "List tensor must have at least one item."
  | unequalItems => "List tensor items must have equal shapes."

namespace Expr

section
variable {α : Type} [Hashable α]

def ensure (ok : Bool) (fault : ShapeFault) (e : Expr α) : Except ShapeFault (Expr α) :=
  if ok then .ok e else .error fault

/-- Wraps a modifier around the expression; there may not be more indices than axes. -/
def modify (m : Modifier) (e : Expr α) : Except ShapeFault (Expr α) :=
  match m with
  | .indexed is => ensure (is.length ≤ e.shape.length) (.tooManyIndices e.shape is.length) (modified m e)
  | _ => .ok (modified m e)

/-- The value in the reference frame, which form arguments alone have. -/
def referenceValue : Expr α → Except ShapeFault (Expr α)
  | terminal t => ensure t.isFormArgument .notFormArgument (reference t)
  | _ => .error .notFormArgument

def ofUnary (op : UnaryOp) (a : Expr α) : Except ShapeFault (Expr α) :=
  ensure a.isScalar (.tensorArgument op) (unary op a)

/-- Terms have one shape, at most one factor is a tensor, divisors and powers are scalar. -/
def ofBinary (op : BinaryOp) (a b : Expr α) : Except ShapeFault (Expr α) :=
  match op with
  | .sum => ensure (a.shape == b.shape) .unequalTerms (binary op a b)
  | .product => ensure (a.isScalar || b.isScalar) .tensorFactors (binary op a b)
  | .division => ensure b.isScalar .tensorDivisor (binary op a b)
  | .power => ensure (a.isScalar && b.isScalar) .tensorPower (binary op a b)

def ofOp (op : Op) (operands : List (Expr α)) : Except ShapeFault (Expr α) :=
  match op, operands with
  | .unary op, [a] => ofUnary op a
  | .binary op, [a, b] => ofBinary op a b
  | op, operands => .error (.operandCount operands.length op)

def contract (a b : Expr α) : Except ShapeFault (Expr α) :=
  ensure (a.shape == b.shape) .unequalContraction (inner a b)

def listTensor : List (Expr α) → Except ShapeFault (Expr α)
  | [] => .error .noItems
  | e :: rest => ensure (rest.all (·.shape == e.shape)) .unequalItems (ofItems e rest)

/-- Puts an item in front of a list tensor. -/
def push (item rest : Expr α) : Except ShapeFault (Expr α) :=
  ensure (rest.shape.drop 1 == item.shape) .unequalItems (stack item rest)

end

variable {α : Type} [Scalar α]

/-- The product with minus one. -/
def negate (a : Expr α) : Except ShapeFault (Expr α) := ofBinary .product (literal (-1)) a

/-- The sum with the negated subtrahend. -/
def subtract (a b : Expr α) : Except ShapeFault (Expr α) := do ofBinary .sum a (← negate b)

end Expr
end ElementTensor
