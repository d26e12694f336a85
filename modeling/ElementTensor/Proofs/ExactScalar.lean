import Mathlib.Algebra.Order.AbsoluteValue.Basic
import Mathlib.Algebra.Order.Field.Basic
import Mathlib.Algebra.Order.Field.Rat
import Mathlib.Tactic.Common
import ElementTensor.Scalar

/-! Exact arithmetic: the scalars of a field, and of an ordered field where sizes come in. Division by zero gives zero,
a power with exponent zero or one is what it should be, and nothing is said about the other functions. -/
namespace ElementTensor

/-- The operations are those of a field, and numbers are equal only if they are the same. -/
class FieldScalar (α : Type) extends Scalar α, Field α where
  eq_of_beq {a b : α} : (a == b) = true → a = b
  pow_zero_eq (a : α) : Scalar.pow a 0 = 1
  pow_one_eq (a : α) : Scalar.pow a 1 = a

namespace FieldScalar
variable {α : Type} [FieldScalar α]

instance : LawfulBEq α where
  eq_of_beq := eq_of_beq

end FieldScalar

def Scalar.IsExact (α : Type) [s : Scalar α] : Prop := ∃ e : FieldScalar α, e.toScalar = s

theorem FieldScalar.isExact {α : Type} [e : FieldScalar α] : Scalar.IsExact α := ⟨e, rfl⟩

/-- Sums and products come to the same in either order, and numbers are equal only if they are the same, except that
zero may have several forms. -/
structure Scalar.Commutes (α : Type) [Scalar α] : Prop where
  add_comm (x y : α) : x + y = y + x
  mul_comm (x y : α) : x * y = y * x
  eq_of_beq {x y : α} : (x == y) = true → (x == 0) = false → x = y
  one_ne_zero : ((1 : α) == 0) = false

theorem Scalar.IsExact.commutes {α : Type} [Scalar α] (h : Scalar.IsExact α) : Scalar.Commutes α := by
  obtain ⟨E, rfl⟩ := h
  exact ⟨add_comm, mul_comm, fun h _ => eq_of_beq h, beq_eq_false_iff_ne.2 one_ne_zero⟩

class ExactScalar (α : Type) extends FieldScalar α where
  linearOrder : LinearOrder α
  ordered : IsStrictOrderedRing α
  abs_eq (a : α) : Scalar.abs a = |a|
  le_iff (a b : α) : Scalar.le a b = true ↔ a ≤ b
  lt_iff (a b : α) : Scalar.lt a b = true ↔ a < b

namespace ExactScalar
variable {α : Type} [ExactScalar α]

instance : LinearOrder α := linearOrder
instance : IsStrictOrderedRing α := ordered

theorem close_iff (eps a b : α) : Scalar.close eps a b = true ↔ |a - b| ≤ eps := by
  rw [Scalar.close, le_iff, abs_eq]

theorem exceeds_iff (eps a : α) : Scalar.exceeds eps a = true ↔ eps < |a| := by
  rw [Scalar.exceeds, lt_iff, abs_eq]

theorem close_zero_iff (a b : α) : Scalar.close 0 a b = true ↔ a = b := by
  rw [close_iff, abs_nonpos_iff, sub_eq_zero]

end ExactScalar

/-- An interpretation of the functions that rational arithmetic leaves open. -/
class RationalFunctions where
  pow : ℚ → ℚ → ℚ
  apply : MathFunction → ℚ → ℚ
  pow_zero (a : ℚ) : pow a 0 = 1
  pow_one (a : ℚ) : pow a 1 = a

abbrev RationalFunctions.vanishing : RationalFunctions where
  pow a b := if b = 0 then 1 else if b = 1 then a else 0
  apply _ _ := 0
  pow_zero _ := if_pos rfl
  pow_one a := by simp

instance hashableRat : Hashable ℚ := ⟨fun q => hash (q.num, q.den)⟩

/-- Exact rational arithmetic. -/
instance exactScalarRat [RationalFunctions] : ExactScalar ℚ where
  pow := RationalFunctions.pow
  abs a := |a|
  apply := RationalFunctions.apply
  le a b := decide (a ≤ b)
  lt a b := decide (a < b)
  linearOrder := inferInstance
  ordered := inferInstance
  eq_of_beq := LawfulBEq.eq_of_beq
  pow_zero_eq := RationalFunctions.pow_zero
  pow_one_eq := RationalFunctions.pow_one
  abs_eq _ := rfl
  le_iff _ _ := decide_eq_true_iff
  lt_iff _ _ := decide_eq_true_iff

end ElementTensor
