import Vorn.Number.Word
import Vorn.Text.Digit

/-!
# Integers in text

`text` writes an integer in decimal and `read?` reads an integer, in decimal or in a base that a
mark at its head selects.
-/

namespace Vorn.Numeral

/-- The decimal text of an integer. -/
def text : Int → String
  | .ofNat n => n.repr
  | .negSucc n => "-" ++ (n + 1).repr

/-! ## Digits -/

/-- The value of a digit of any base up to sixteen, in either case. -/
def digitValue? (c : Char) : Option Nat :=
  if '0' ≤ c && c ≤ '9' then some (c.toNat - '0'.toNat)
  else if 'a' ≤ c && c ≤ 'f' then some (c.toNat - 'a'.toNat + 10)
  else if 'A' ≤ c && c ≤ 'F' then some (c.toNat - 'A'.toNat + 10)
  else none

/-- The value of a digit of the given base. -/
def digit? (base : Nat) (c : Char) : Option Nat := (digitValue? c).filter (· < base)

/-- The digits that continue the number `value`, with single underscores between digits. -/
def continue? (base value : Nat) : List Char → Option Nat
  | [] => some value
  | '_' :: c :: cs => (digit? base c).bind fun d => continue? base (value * base + d) cs
  | c :: cs => (digit? base c).bind fun d => continue? base (value * base + d) cs

/-- One or more digits of the base, with single underscores between digits. -/
def digits? (base : Nat) : List Char → Option Nat
  | [] => none
  | c :: cs => (digit? base c).bind fun d => continue? base d cs

/-- The digits behind the mark of a base; an underscore may come first. -/
def marked? (base : Nat) : List Char → Option Nat
  | '_' :: cs => digits? base cs
  | cs => digits? base cs

/-- The base that the letter behind a leading zero selects. -/
def baseOf? : Char → Option Nat
  | 'x' | 'X' => some 16
  | 'o' | 'O' => some 8
  | 'b' | 'B' => some 2
  | _ => none

/-- The most digits that a decimal number may have. -/
def decimalLimit : Nat := 4300

/-- A decimal number. The bases with a mark know no limit. -/
def decimal? (cs : List Char) : Option Nat :=
  if decimalLimit < cs.countP (· != '_') then none else digits? 10 cs

/-- A number whose base is chosen by a mark, decimal without one. A decimal number starts with
zero only if it is zero. -/
def based? : List Char → Option Nat
  | '0' :: m :: cs =>
    match baseOf? m with
    | some base => marked? base cs
    | none => (decimal? ('0' :: m :: cs)).filter (· = 0)
  | cs => decimal? cs

/-- A number in octal, with or without its mark. -/
def octal? : List Char → Option Nat
  | '0' :: m :: cs => if baseOf? m = some 8 then marked? 8 cs else digits? 8 ('0' :: m :: cs)
  | cs => digits? 8 cs

/-! ## Signs -/

/-- Splits a sign from the rest; true stands for minus. -/
def sign : List Char → Bool × List Char
  | '+' :: cs => (false, cs)
  | '-' :: cs => (true, cs)
  | cs => (false, cs)

def signed (negative : Bool) (n : Int) : Int := if negative then -n else n

/-- The number behind the outer sign. A zero and a digit introduce an octal number; otherwise a
second sign may stand before the number. -/
def body? (cs : List Char) : Option Int :=
  match cs with
  | '0' :: d :: rest =>
    if (Text.decimal? d).isSome then (octal? ((d :: rest).map Text.plainDigit)).map Int.ofNat
    else (based? (cs.map Text.plainDigit)).map Int.ofNat
  | _ =>
    let (negative, digits) := sign cs
    (based? (digits.map Text.plainDigit)).map fun n => signed negative n

/-- Reads an integer of 64 bits. The digits of any script count as digits. -/
def read? (text : String) : Option Int :=
  let (negative, cs) := sign text.toList
  ((body? cs).map (signed negative)).filter fun n => Word.InRange n

/-- Whatever is read is in range. -/
theorem inRange_of_read? {t : String} {n : Int} (h : read? t = some n) : Word.InRange n := by
  simp only [read?, Option.filter_eq_some_iff] at h
  simpa using h.2

end Vorn.Numeral
