import Vorn.Number.Binary

/-!
# The shortest decimal of a binary fraction

Several decimals round to the same float. Among those with the fewest digits, `shortest` takes the
one nearest to the float, and of two equally near ones the even one.
-/

namespace Vorn.Shortest

/-- The decimal number `digits * 10 ^ exponent`. -/
structure Decimal where
  digits : Nat
  exponent : Int
deriving DecidableEq, Repr

/-- The reals that round to `m * 2 ^ q`, in units of `2 ^ (q - 2)`. At a power of two the lower
neighbour is half as far away. -/
structure Interval where
  low : Nat
  value : Nat
  high : Nat
  /-- The ends round to an even mantissa. -/
  closed : Bool

def interval (m : Nat) (q : Int) : Interval :=
  { low := if m = Binary.hiddenBit ∧ -1074 < q then 4 * m - 1 else 4 * m - 2
    value := 4 * m
    high := 4 * m + 2
    closed := m % 2 = 0 }

/-- The number of decimal places before the point of `num / den`; zero or negative below 1. -/
def magnitude (num den : Nat) : Int :=
  if den ≤ num then (Nat.toDigits 10 (num / den)).length
  else 1 - (Nat.toDigits 10 (den / num)).length

/-- `n * 2 ^ e * 10 ^ (-g)` as a quotient of natural numbers. -/
def scaled (n : Nat) (e g : Int) : Nat × Nat :=
  ((n <<< e.toNat) * Nat.pow 10 (-g).toNat, Nat.pow 10 g.toNat <<< (-e).toNat)

/-- The multiple `d` of `10 ^ g` lies in the interval. -/
def Interval.holds (i : Interval) (e g : Int) (d : Nat) : Bool :=
  let (low, den) := scaled i.low e g
  let (high, _) := scaled i.high e g
  if i.closed then low ≤ d * den && d * den ≤ high else low < d * den && d * den < high

/-- The multiple of `10 ^ g` in the interval that is nearest to the value. Only the value's two
neighbours on the grid can be. -/
def onGrid? (i : Interval) (e g : Int) : Option Nat :=
  let (num, den) := scaled i.value e g
  let d := num / den
  match i.holds e g d, i.holds e g (d + 1) with
  | true, true =>
    let twice := 2 * (num % den)
    some (if twice < den ∨ twice = den ∧ d % 2 = 0 then d else d + 1)
  | true, false => some d
  | false, true => some (d + 1)
  | false, false => none

/-- Tries the grids from `places` digits on, at most `tries` of them. -/
def search (i : Interval) (e mag : Int) (places : Nat) : Nat → Decimal
  | 0 => ⟨0, 0⟩
  | tries + 1 =>
    let g := mag - places
    match onGrid? i e g with
    | some d => ⟨d, g⟩
    | none => search i e mag (places + 1) tries

/-- Removes the zeros at the end of the digits. -/
def Decimal.strip (d : Decimal) : Decimal :=
  if h : d.digits ≠ 0 ∧ d.digits % 10 = 0 then
    Decimal.strip ⟨d.digits / 10, d.exponent + 1⟩
  else d
termination_by d.digits
decreasing_by omega

/-- The shortest decimal that rounds to `m * 2 ^ q`, for a nonzero float. Seventeen digits always
suffice. -/
def shortest (m : Nat) (q : Int) : Decimal :=
  let (num, den) := scaled m q 0
  (search (interval m q) (q - 2) (magnitude num den) 1 17).strip

end Vorn.Shortest
