import ElementTensor.Expr
import ElementTensor.Text.Quoted

/-!
Expressions as text.
-/
namespace ElementTensor

/-- A modifier as messages name it. -/
def Modifier.title : Modifier → String
  | indexed is => "Indexed(" ++ listing is ++ ")"
  | referenceGrad d => "ReferenceGrad(" ++ toString d ++ ")"
  | grad d => "Grad(" ++ toString d ++ ")"
  | restricted .plus => "Restricted(Plus)"
  | restricted .minus => "Restricted(Minus)"
  | averaged .cell => "CellAvg"
  | averaged .facet => "FacetAvg"

/-- A modifier around the text of its operand. -/
def Modifier.around : Modifier → String → String
  | indexed is, s => s ++ listing is
  | referenceGrad _, s => "reference_grad(" ++ s ++ ")"
  | grad _, s => "grad(" ++ s ++ ")"
  | restricted .plus, s => s ++ "('+')"
  | restricted .minus, s => s ++ "('-')"
  | averaged .cell, s => "cell_avg(" ++ s ++ ")"
  | averaged .facet, s => "facet_avg(" ++ s ++ ")"

def UnaryOp.around : UnaryOp → String → String
  | abs, s => "|" ++ s ++ "|"
  | math f, s => f.name ++ "(" ++ s ++ ")"

def BinaryOp.between : BinaryOp → String → String → String
  | sum, a, b => "(" ++ a ++ " + " ++ b ++ ")"
  | product, a, b => a ++ " * " ++ b
  | division, a, b => a ++ " / " ++ b
  | power, a, b => a ++ "**" ++ b

namespace Expr
variable {α : Type} [Hashable α] [ToString α]

/-- The text of an expression; `bare` leaves out the brackets of a list tensor. -/
def write : Expr α → (bare : Bool) → String
  | literal v, _ => toString v
  | terminal t, _ => t.text
  | reference t, _ => "reference_value(" ++ t.text ++ ")"
  | modified m e, _ => m.around (e.write false)
  | unary op e, _ => op.around (e.write false)
  | binary op a b, _ => op.between (a.write false) (b.write false)
  | inner a b, _ => "inner(" ++ a.write false ++ ", " ++ b.write false ++ ")"
  | single e, bare => if bare then e.write false else "[" ++ e.write false ++ "]"
  | stack e r, bare =>
    let s := e.write false ++ ", " ++ r.write true
    if bare then s else "[" ++ s ++ "]"

def text (e : Expr α) : String := e.write false

end Expr
end ElementTensor
