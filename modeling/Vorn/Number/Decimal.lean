import Vorn.Number.Binary
import Vorn.Text.Blank
import Vorn.Text.Digit

/-!
# Reading floats

`Decimal.read?` reads a decimal number with optional fraction and exponent, or a name for infinity
or for "not a number". The nearest float is taken.
-/

namespace Vorn.Decimal

/-- The digits at the head of the input, with single underscores between digits, and the rest. -/
def digitRun : List Char → List Nat × List Char
  | [] => ([], [])
  | c :: '_' :: cs =>
    if c.isDigit then
      match digitRun cs with
      | ([], _) => ([c.toNat - '0'.toNat], '_' :: cs)
      | (ds, rest) => ((c.toNat - '0'.toNat) :: ds, rest)
    else ([], c :: '_' :: cs)
  | c :: cs =>
    if c.isDigit then
      let (ds, rest) := digitRun cs
      ((c.toNat - '0'.toNat) :: ds, rest)
    else ([], c :: cs)

/-- The number that a sequence of digits writes. -/
def valueOf (ds : List Nat) : Nat := ds.foldl (fun n d => n * 10 + d) 0

/-- Splits a sign from the rest; true stands for minus. -/
def sign : List Char → Bool × List Char
  | '+' :: cs => (false, cs)
  | '-' :: cs => (true, cs)
  | cs => (false, cs)

/-- The exponent behind the digits; nothing may follow it. -/
def exponent? : List Char → Option Int
  | [] => some 0
  | e :: cs =>
    if e != 'e' && e != 'E' then none
    else
      let (negative, cs) := sign cs
      match digitRun cs with
      | ([], _) => none
      | (ds, []) => some (if negative then -valueOf ds else valueOf ds)
      | _ => none

/-- The float nearest to `value * 10 ^ exponent`. -/
def nearest (value : Nat) (exponent : Int) : Float :=
  Float.ofScientific value (exponent < 0) exponent.natAbs

/-- The digits behind a point, if there is one. -/
def fraction : List Char → List Nat × List Char
  | '.' :: cs => digitRun cs
  | cs => ([], cs)

/-- A number without sign; a point may stand before, between or behind its digits. -/
def magnitude? (cs : List Char) : Option Float :=
  let (whole, cs) := digitRun cs
  let (part, cs) := fraction cs
  match whole ++ part with
  | [] => none
  | ds => (exponent? cs).map fun e => nearest (valueOf ds) (e - part.length)

/-- A number without sign, or the name of a value that is none. -/
def unsigned? (cs : List Char) : Option Float :=
  match String.ofList (cs.map Char.toLower) with
  | "inf" | "infinity" => some (Binary.toFloat (.infinite false))
  | "nan" => some (Binary.toFloat .nan)
  | _ => magnitude? cs

/-- Reads a float. White space may surround it, and the digits of any script count as digits. -/
def read? (text : String) : Option Float :=
  let cs := Text.dropTail Text.isSpace (Text.dropHead Text.isSpace text.toList)
  let (negative, cs) := sign (cs.map Text.plainDigit)
  (unsigned? cs).map fun x => if negative then -x else x

end Vorn.Decimal
