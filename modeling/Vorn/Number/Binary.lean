import Vorn.Number.Word

/-!
# Floats as binary fractions

A finite float is `± m · 2 ^ q`. `Binary.ofFloat` reads sign, `m` and `q` off its bits, and the
operations that have to be exact (cutting off the fraction, the remainder, telling odd from even)
work on them in `Nat`.
-/

namespace Vorn

/-- What a float stands for. -/
inductive Binary where
  | nan
  | infinite (negative : Bool)
  /-- The number `± mantissa * 2 ^ exponent`. -/
  | finite (negative : Bool) (mantissa : Nat) (exponent : Int)
deriving DecidableEq, Repr

namespace Binary

/-- The leading bit of a mantissa, which the 52 stored bits leave out. -/
def hiddenBit : Nat := 0x10000000000000

/-- Reads the bits of a float: sign, eleven bits of exponent, 52 bits of fraction. -/
def ofFloat (x : Float) : Binary :=
  let bits := x.toBits.toNat
  let negative : Bool := bits >>> 63 = 1
  let exponent : Nat := (bits >>> 52) % 0x800
  let fraction := bits % hiddenBit
  if exponent = 0x7ff then
    if fraction = 0 then infinite negative else nan
  else if exponent = 0 then finite negative fraction (-1074)
  else finite negative (hiddenBit + fraction) (exponent - 1075)

/-- The float `± mantissa * 2 ^ exponent`. Exact if the mantissa has at most 53 bits and the
number is not beyond the range. -/
def toFloat : Binary → Float
  | nan => 0.0 / 0.0
  | infinite negative => if negative then -1.0 / 0.0 else 1.0 / 0.0
  | finite negative m q =>
    let magnitude :=
      if 0 ≤ q then Float.ofScientific (m <<< q.toNat) false 0
      else Float.ofScientific (m * Nat.pow 5 (-q).toNat) true (-q).toNat
    if negative then -magnitude else magnitude

/-- The whole part, cut off toward zero; `none` if there is no number. -/
def truncate? : Binary → Option Int
  | finite negative m q =>
    let n : Nat := if 0 ≤ q then m <<< q.toNat else m >>> (-q).toNat
    some (if negative then -n else n)
  | _ => none

/-- The number is a whole number and odd. -/
def isOdd : Binary → Bool
  | finite _ m q =>
    if 0 ≤ q then q = 0 && m % 2 == 1
    else (m >>> (-q).toNat) <<< (-q).toNat == m && (m >>> (-q).toNat) % 2 == 1
  | _ => false

/-- The exact remainder of a division that is cut off toward zero; it has the sign of the
dividend. There is none for a zero divisor or an infinite dividend. -/
def remainder : Binary → Binary → Binary
  | finite negative m q, finite _ n r =>
    if n = 0 then nan
    else
      let low := min q r
      finite negative ((m <<< (q - low).toNat) % (n <<< (r - low).toNat)) low
  | finite negative m q, infinite _ => finite negative m q
  | _, _ => nan

/-- The remainder of two floats. -/
def modulo (a b : Float) : Float := ((ofFloat a).remainder (ofFloat b)).toFloat

end Binary

end Vorn
