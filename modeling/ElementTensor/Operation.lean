import ElementTensor.Fingerprint
import ElementTensor.Scalar

/-!
Scalar operations and the names they have in messages.
-/
namespace ElementTensor

def MathFunction.name : MathFunction → String
  | .sqrt => "sqrt"
  | .exp => "exp"
  | .ln => "ln"
  | .sin => "sin"
  | .cos => "cos"

def MathFunction.title : MathFunction → String
  | .sqrt => "Sqrt"
  | .exp => "Exp"
  | .ln => "Ln"
  | .sin => "Sin"
  | .cos => "Cos"

inductive UnaryOp where
  | abs
  | math (f : MathFunction)
  deriving DecidableEq, Repr

inductive BinaryOp where
  | sum | product | division | power
  deriving DecidableEq, Repr

inductive Op where
  | unary (op : UnaryOp)
  | binary (op : BinaryOp)
  deriving DecidableEq, Repr

def UnaryOp.title : UnaryOp → String
  | .abs => "Abs"
  | .math f => "Math(" ++ f.title ++ ")"

def BinaryOp.title : BinaryOp → String
  | .sum => "Sum"
  | .product => "Product"
  | .division => "Division"
  | .power => "Power"

def Op.title : Op → String
  | .unary op => op.title
  | .binary op => op.title

/-- The order of the two operands does not matter. -/
def BinaryOp.commutes : BinaryOp → Bool
  | .sum | .product => true
  | .division | .power => false

def Op.commutes : Op → Bool
  | .unary _ => false
  | .binary op => op.commutes

namespace UnaryOp

def apply {α : Type} [Scalar α] : UnaryOp → α → α
  | .abs, a => Scalar.abs a
  | .math f, a => Scalar.apply f a

def tag : UnaryOp → Fingerprint
  | .abs => 41
  | .math .sqrt => 42
  | .math .exp => 43
  | .math .ln => 44
  | .math .sin => 45
  | .math .cos => 46

end UnaryOp

namespace BinaryOp

def apply {α : Type} [Scalar α] : BinaryOp → α → α → α
  | .sum, a, b => a + b
  | .product, a, b => a * b
  | .division, a, b => a / b
  | .power, a, b => Scalar.pow a b

def tag : BinaryOp → Fingerprint
  | .sum => 51
  | .product => 52
  | .division => 53
  | .power => 54

end BinaryOp
end ElementTensor
