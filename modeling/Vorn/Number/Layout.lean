import Vorn.Number.Shortest

/-!
# Floats in text

A `FloatLayout` holds the decisions of one way to write floats; `FloatLayout.write` follows them.
All layouts write the shortest decimal that reads back as the float.
-/

namespace Vorn

/-- The decisions of a float format. -/
structure FloatLayout where
  /-- From this decimal exponent on the exponent is written out. -/
  exponentFrom : Int
  /-- What stands behind a whole number that is written without exponent. -/
  wholeEnd : String
  nan : String
  infinity : String
  negativeInfinity : String

namespace FloatLayout

/-- A layout writes the exponent out if it is below this one. -/
def leastExponent : Int := -4

def zeros (n : Nat) : String := .ofList (List.replicate n '0')

/-- The exponent with its sign and at least two digits. -/
def exponentText (exponent : Int) : String :=
  let digits := exponent.natAbs.repr
  let digits := if digits.length < 2 then "0" ++ digits else digits
  (if exponent < 0 then "-" else "+") ++ digits

/-- Writes `digits * 10 ^ (point - length of digits)`: the point stands behind the first `point`
digits. -/
def place (l : FloatLayout) (digits : List Char) (point : Int) : String :=
  let exponent := point - 1
  if exponent < leastExponent ∨ l.exponentFrom ≤ exponent then
    let fraction := if digits.length ≤ 1 then "" else "." ++ String.ofList (digits.drop 1)
    String.ofList (digits.take 1) ++ fraction ++ "e" ++ exponentText exponent
  else if point ≤ 0 then "0." ++ zeros (-point).toNat ++ String.ofList digits
  else if digits.length ≤ point.toNat then
    String.ofList digits ++ zeros (point.toNat - digits.length) ++ l.wholeEnd
  else String.ofList (digits.take point.toNat) ++ "." ++ String.ofList (digits.drop point.toNat)

/-- The text of a nonnegative finite number. -/
def magnitude (l : FloatLayout) (m : Nat) (q : Int) : String :=
  if m = 0 then "0" ++ l.wholeEnd
  else
    let d := Shortest.shortest m q
    let digits := Nat.toDigits 10 d.digits
    l.place digits (digits.length + d.exponent)

def write (l : FloatLayout) (x : Float) : String :=
  match Binary.ofFloat x with
  | .nan => l.nan
  | .infinite negative => if negative then l.negativeInfinity else l.infinity
  | .finite negative m q => (if negative then "-" else "") ++ l.magnitude m q

/-- How a float of the language is shown: the exponent is written out from a million on, and a
whole number has no point. -/
def shown : FloatLayout :=
  { exponentFrom := 6, wholeEnd := "", nan := "NaN", infinity := "+Inf",
    negativeInfinity := "-Inf" }

/-- How a float stands in a JSON document: a point or an exponent marks it as a float, and the
exponent is written out from `10 ^ 16` on. -/
def document : FloatLayout :=
  { exponentFrom := 16, wholeEnd := ".0", nan := "NaN", infinity := "Infinity",
    negativeInfinity := "-Infinity" }

end FloatLayout

end Vorn
