import ElementTensor.Expr.Construction
import ElementTensor.Sorting

/-!
The canonical order of the modifiers around a terminal. From the inside it is: gradients in
reference coordinates, gradients in physical coordinates, averages over cells, averages over facets,
restrictions, indices.
-/
namespace ElementTensor

/-- Place of a modifier in the canonical order, innermost first. -/
def Modifier.precedence : Modifier → Nat
  | referenceGrad _ => 1
  | grad _ => 2
  | averaged .cell => 3
  | averaged .facet => 4
  | restricted _ => 5
  | indexed _ => 6

namespace Expr
variable {α : Type} [Hashable α]

/-- The modifiers around an expression, innermost first, and the expression inside them. -/
def peel : Expr α → List Modifier × Expr α
  | modified m e => ((peel e).1 ++ [m], (peel e).2)
  | e => ([], e)

/-- Wraps modifiers around an expression, the first of them innermost. -/
def wrap (e : Expr α) (ms : List Modifier) : Except ShapeFault (Expr α) := ms.foldlM (fun e m => modify m e) e

/-- Puts the modifiers around a terminal into canonical order; equal places keep their order. -/
def balanceModifiers (e : Expr α) : Except ShapeFault (Expr α) :=
  let (ms, inside) := peel e
  inside.wrap (sortBy (fun m n => decide (m.precedence ≤ n.precedence)) ms)

/-- The expression with the modifiers of all its terminals in canonical order. -/
def balance : Expr α → Except ShapeFault (Expr α)
  | literal v => .ok (literal v)
  | terminal t => .ok (terminal t)
  | reference t => .ok (reference t)
  | modified m e =>
    if e.isModifiedTerminal then balanceModifiers (modified m e)
    else do modify m (← e.balance)
  | unary op e => do ofUnary op (← e.balance)
  | binary op a b => do
    let a ← a.balance
    let b ← b.balance
    ofBinary op a b
  | inner a b => do
    let a ← a.balance
    let b ← b.balance
    contract a b
  | single e => do return single (← e.balance)
  | stack e r => do
    let e ← e.balance
    let r ← r.balance
    push e r

end Expr
end ElementTensor
