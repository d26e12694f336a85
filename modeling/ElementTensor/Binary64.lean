import ElementTensor.Decimal.Shortest
import ElementTensor.Scalar

/-!
Double precision numbers as scalars. Both zeros are equal, and so are all values that are no numbers;
apart from that, numbers are equal if they have the same bits.
-/
namespace ElementTensor

structure Binary64 where
  toFloat : Float

namespace Binary64

def ofBits (b : UInt64) : Binary64 := ⟨Float.ofBits b⟩

/-- The value that an arithmetic without result gives. -/
def nanBits : UInt64 := 0x7ff8000000000000

/-- The bits; all values that are no numbers have the same. -/
def bits (x : Binary64) : UInt64 := if x.toFloat.isNaN then nanBits else x.toFloat.toBits

/-- The bits with the sign of zero left out. -/
def key (x : Binary64) : UInt64 := if x.bits == 0x8000000000000000 then 0 else x.bits

instance : BEq Binary64 := ⟨fun x y => x.key == y.key⟩

theorem beq_iff {x y : Binary64} : (x == y) = true ↔ x.key = y.key := by
  show (x.key == y.key) = true ↔ _
  exact beq_iff_eq

instance : EquivBEq Binary64 where
  rfl := beq_iff.2 rfl
  symm h := beq_iff.2 (beq_iff.1 h).symm
  trans h g := beq_iff.2 ((beq_iff.1 h).trans (beq_iff.1 g))

instance : Zero Binary64 := ⟨⟨0⟩⟩
instance : One Binary64 := ⟨⟨1⟩⟩

instance : Hashable Binary64 := ⟨key⟩

instance : LawfulHashable Binary64 := ⟨fun _ _ h => beq_iff.1 h⟩

instance : Scalar Binary64 where
  neg x := ⟨-x.toFloat⟩
  add x y := ⟨x.toFloat + y.toFloat⟩
  sub x y := ⟨x.toFloat - y.toFloat⟩
  mul x y := ⟨x.toFloat * y.toFloat⟩
  div x y := ⟨x.toFloat / y.toFloat⟩
  pow x y := ⟨x.toFloat.pow y.toFloat⟩
  abs x := ⟨x.toFloat.abs⟩
  apply
    | .sqrt, x => ⟨x.toFloat.sqrt⟩
    | .exp, x => ⟨x.toFloat.exp⟩
    | .ln, x => ⟨x.toFloat.log⟩
    | .sin, x => ⟨x.toFloat.sin⟩
    | .cos, x => ⟨x.toFloat.cos⟩
  le x y := decide (x.toFloat ≤ y.toFloat)
  lt x y := decide (x.toFloat < y.toFloat)

def isNegative (x : Binary64) : Bool := x.bits >>> 63 == 1

/-- The biased exponent. -/
def exponentField (x : Binary64) : Nat := ((x.bits >>> 52) &&& 0x7ff).toNat

/-- The stored part of the significand. -/
def fraction (x : Binary64) : Nat := (x.bits &&& 0xfffffffffffff).toNat

/-- The leading bit of the significand, which is not stored. -/
def hiddenBit : Nat := 0x10000000000000

/-- The text of the absolute value. -/
def magnitudeText (x : Binary64) : String :=
  if x.exponentField = 0x7ff then "inf"
  else if x.exponentField = 0 then
    if x.fraction = 0 then "0" else (Decimal.shortest x.fraction (-1074) false).text
  else
    (Decimal.shortest (x.fraction + hiddenBit) ((x.exponentField : Int) - 1075)
      (x.fraction == 0 && x.exponentField != 1)).text

def text (x : Binary64) : String :=
  if x.toFloat.isNaN then "NaN" else (if x.isNegative then "-" else "") ++ x.magnitudeText

instance : ToString Binary64 := ⟨text⟩

/-! The number nearest to a rational number. It is a multiple of a power of two, the unit of the binade that the rational
number lies in, so rounding is division by that unit. -/

/-- The exponent of the unit of the numbers next to a positive number. -/
def unitExponent (x : Ratio) : Int := max (x.log2 - 52) (-1074)

/-- The number of units nearest to a positive number, of two equally near ones the even one. -/
def significand (x : Ratio) : Nat := (x.div (.scaled 1 2 (unitExponent x))).round

/-- The bits of the nearest number; none if there is no finite one. Where the number of units comes
to a power of two, the sum carries it into the field of the exponent. -/
def nearestBits? (x : Ratio) : Option Nat :=
  let bits := (unitExponent x + 1074).toNat * hiddenBit + significand x
  if bits < 0x7ff * hiddenBit then some bits else none

/-- The number nearest to a decimal; none if the decimal is too large. -/
def ofDecimal? (d : Decimal) : Option Binary64 :=
  if d.digits = 0 then some 0
  else if 309 ≤ d.exponent then none
  -- below `10 ^ (-324)`, which is less than half of the least positive number
  else if d.exponent + d.digits.log2 + 1 ≤ -324 then some 0
  else (nearestBits? d.toRatio).map fun bits => ofBits bits.toUInt64

end Binary64
end ElementTensor
