import ElementTensor.Decimal

/-!
The shortest decimal that stands for a binary number. A positive number `m * 2 ^ q` stands for all
reals that round to it, the interval that reaches halfway to its neighbours. Of the decimals in that
interval those with the fewest digits are taken, of these the nearest, and of two equally near ones
the greater.
-/
namespace ElementTensor.Decimal

/-- The reals that round to a number: the bounds, and whether they are among them. -/
structure Interval where
  low : Ratio
  high : Ratio
  closed : Bool

def Interval.contains (i : Interval) (x : Ratio) : Bool :=
  if i.closed then i.low.le x && x.le i.high else i.low.lt x && x.lt i.high

/-- The interval of `m * 2 ^ q`. At the bottom of a binade the lower neighbour is only half as far. -/
def Interval.ofBinary (m : Nat) (q : Int) (bottom : Bool) : Interval where
  low := if bottom then .scaled (4 * m - 1) 2 (q - 2) else .scaled (2 * m - 1) 2 (q - 1)
  high := .scaled (2 * m + 1) 2 (q - 1)
  closed := m % 2 == 0

/-- The least exponent of a power of ten above `x`, looked for from `e` on. -/
def exponentAbove (x : Ratio) : (fuel : Nat) → (e : Int) → Int
  | 0, e => e
  | fuel + 1, e => if x.lt (.scaled 1 10 e) then e else exponentAbove x fuel (e + 1)

/-- The decimal on the grid `10 ^ p` that lies in the interval around `x`, the nearer one of two. -/
def onGrid? (x : Ratio) (i : Interval) (p : Int) : Option Decimal :=
  let units := x.div (.scaled 1 10 p)
  let below := units.num / units.den
  let at_ (n : Nat) : Ratio := .scaled n 10 p
  match i.contains (at_ below), i.contains (at_ (below + 1)) with
  | false, false => none
  | true, false => some ⟨below, p⟩
  | false, true => some ⟨below + 1, p⟩
  | true, true =>
    -- the part of a unit above `below` is compared with a half
    if 2 * (units.num % units.den) < units.den then some ⟨below, p⟩ else some ⟨below + 1, p⟩

/-- Tries grids with more and more digits. -/
def search (x : Ratio) (i : Interval) (top : Int) : (fuel : Nat) → (count : Nat) → Decimal
  | 0, count => ⟨0, top - count⟩
  | fuel + 1, count =>
    match onGrid? x i (top - count) with
    | some s => s
    | none => search x i top fuel (count + 1)

/-- The shortest decimal for `m * 2 ^ q`, where `0 < m`. -/
def shortest (m : Nat) (q : Int) (bottom : Bool) : Decimal :=
  let x := Ratio.scaled m 2 q
  let top := exponentAbove x 700 (-324)
  search x (.ofBinary m q bottom) top 20 1

end ElementTensor.Decimal
