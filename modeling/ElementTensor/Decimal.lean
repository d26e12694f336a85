/-!
Nonnegative rational numbers as quotients that need not be reduced, and decimal numbers without a sign with their positional
notation.
-/
namespace ElementTensor

/-- The number `num / den`. -/
structure Ratio where
  num : Nat
  den : Nat

namespace Ratio

/-- The number `n * b ^ e`, also for a negative exponent. -/
def scaled (n b : Nat) (e : Int) : Ratio :=
  if 0 ≤ e then ⟨n * Nat.pow b e.toNat, 1⟩ else ⟨n, Nat.pow b (-e).toNat⟩

def le (x y : Ratio) : Bool := decide (x.num * y.den ≤ y.num * x.den)
def lt (x y : Ratio) : Bool := decide (x.num * y.den < y.num * x.den)
def div (x y : Ratio) : Ratio := ⟨x.num * y.den, x.den * y.num⟩

/-- The nearest natural number, of two equally near ones the even one. -/
def round (x : Ratio) : Nat :=
  let n := x.num / x.den
  let twice := 2 * (x.num % x.den)
  if twice < x.den ∨ (twice = x.den ∧ n % 2 = 0) then n else n + 1

/-- The exponent of the greatest power of two that a positive number is not below. -/
def log2 (x : Ratio) : Int :=
  let e : Int := (x.num.log2 : Int) - x.den.log2
  if (scaled 1 2 e).le x then e else e - 1

end Ratio
/-- The number `digits * 10 ^ exponent`. -/
structure Decimal where
  digits : Nat
  exponent : Int

namespace Decimal

def toRatio (d : Decimal) : Ratio := .scaled d.digits 10 d.exponent

/-- Takes zeros off the end of the digits, no more than `fuel`. -/
def dropZeros : (fuel : Nat) → Decimal → Decimal
  | 0, d => d
  | fuel + 1, d =>
    if d.digits % 10 = 0 ∧ 0 < d.digits then dropZeros fuel ⟨d.digits / 10, d.exponent + 1⟩ else d

/-- Keeps the first `n` digits. If others follow, whatever they are, a single one stands for them, so
that the number is told from the one that ends there. -/
def abridge (n : Nat) (d : Decimal) : Decimal :=
  let more := (toString d.digits).length - n
  if more = 0 then d else ⟨d.digits / Nat.pow 10 more * 10 + 1, d.exponent + more - 1⟩

/-- Positional notation of a number of at most twenty digits, without superfluous zeros: no point in
an integer, one digit before it in a fraction. -/
def text (d : Decimal) : String :=
  let d := dropZeros 20 d
  let ds := (toString d.digits).toList
  let zeros (n : Nat) : List Char := List.replicate n '0'
  if 0 ≤ d.exponent then String.ofList (ds ++ zeros d.exponent.toNat)
  else
    let places := (-d.exponent).toNat
    if places < ds.length then
      String.ofList (ds.take (ds.length - places) ++ '.' :: ds.drop (ds.length - places))
    else String.ofList ('0' :: '.' :: zeros (places - ds.length) ++ ds)

end Decimal
end ElementTensor
