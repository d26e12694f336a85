/-!
The numbers that literals and tables hold. Everything that computes with them is written over an
arbitrary `Scalar`, so that one definition serves floating-point and exact arithmetic.
-/
namespace ElementTensor

inductive MathFunction where
  | sqrt | exp | ln | sin | cos
  deriving DecidableEq, Repr

/-- Arithmetic with an equality of its own. The equality identifies values that no computation is
meant to tell apart, such as the two zeros of floating-point numbers; the hash agrees with it. -/
class Scalar (α : Type) extends Zero α, One α, Neg α, Add α, Sub α, Mul α, Div α, BEq α, EquivBEq α,
    Hashable α, LawfulHashable α where
  pow : α → α → α
  abs : α → α
  apply : MathFunction → α → α
  le : α → α → Bool
  lt : α → α → Bool

namespace Scalar
variable {α : Type} [Scalar α]

instance reflBEq : ReflBEq α := inferInstance

/-- The two values differ by at most `eps`. -/
def close (eps a b : α) : Bool := le (abs (a - b)) eps

/-- The value lies farther than `eps` from zero. -/
def exceeds (eps a : α) : Bool := lt eps (abs a)

end Scalar
end ElementTensor
