import Vorn.Eval.Script
import Vorn.Number.Decimal
import Vorn.Number.Numeral

/-!
# Calling built-in functions

Each function gets the place of its call and its arguments. `map`, `filter` and `reduce` hand out
the calls of their callback as tasks.
-/

namespace Vorn

namespace Builtin

open Run Script

/-- A wrong argument of a built-in function. -/
def refuse {α : Type} (b : Builtin) (pos : Pos) (place : Place) (want : List Ty) (got : Value) :
    Run α :=
  fault pos (.argument place (.builtin b) want got.ty)

/-! ## Conversions -/

/-- The whole part of a float, wrapped; a text is read. -/
def toInt (pos : Pos) : Value → Run Value
  | .int n p => return .int n p
  | .float x p =>
    match (Binary.ofFloat x).truncate? with
    | some n => return .int (Word.wrap n) p
    | none => fault pos (.unreadable (FloatLayout.shown.write x) .integer)
  | .string s p =>
    match Numeral.read? s with
    | some n => return .int n p
    | none => fault pos (.unreadable s .integer)
  | v => fault pos (.unsupported (.builtin .int) v.ty)

def toFloat (pos : Pos) : Value → Run Value
  | .int n p => return .float (.ofInt n) p
  | .float x p => return .float x p
  | .string s p =>
    match Decimal.read? s with
    | some x => return .float x p
    | none => fault pos (.unreadable s .float)
  | v => fault pos (.unsupported (.builtin .float) v.ty)

def toText (pos : Pos) (v : Value) : Run Value := return .string (← inspect v) pos

def toBool (pos : Pos) (v : Value) : Run Value := do
  match ← toBool? v with
  | some b => return .bool b
  | none => fault pos (.unsupported (.builtin .bool) v.ty)

/-! ## Ranges and parts -/

/-- The integers from `start` on, up or down to `stop`, which is left out. -/
def counting (start stop : Int) (pos : Pos) : Array Value :=
  let direction : Int := if start ≤ stop then 1 else -1
  (Array.range (stop - start).natAbs).map fun (i : Nat) => .int (start + direction * i) pos

def rangeOf (pos : Pos) : List Value → Run Value
  | [.int n p] =>
    if n < 0 then fault pos (.negativeRange n) else newArray (counting 0 n p) p
  | [v] => refuse .range pos .first [.integer] v
  | [.int start p, .int stop _] => newArray (counting start stop p) p
  | [.int _ _, v] => refuse .range pos .second [.integer] v
  | [v, _] => refuse .range pos .first [.integer] v
  | args => fault pos (.builtinCount args.length "1 or 2")

def lengthOf (pos : Pos) : Value → Run Value
  | .array r p => return .int (← elements r).size p
  | .string s p => return .int s.length p
  | v => fault pos (.unsupported (.builtin .len) v.ty)

/-- A copy of the element that `element?` chooses, or the character that `char?` does; `null` if
there is none. -/
def pickOf (b : Builtin) (element? : Array Value → Option Value) (char? : String → Option Char)
    (pos : Pos) : Value → Run Value
  | .array r _ => do
    match element? (← elements r) with
    | some v => clone v pos
    | none => return .null
  | .string s _ =>
    match char? s with
    | some c => return .string (.singleton c) pos
    | none => return .null
  | v => refuse b pos .only [.array, .string] v

/-- A new array of copies. -/
def copies (pos : Pos) (vs : List Value) : Run Value := do
  newArray (← vs.mapM (clone · pos)).toArray pos

/-- Copies of all elements but the first; `null` if there is no first. -/
def restOf (pos : Pos) : Value → Run Value
  | .array r _ => do
    match (← elements r).toList with
    | [] => return .null
    | _ :: vs => copies pos vs
  | v => refuse .rest pos .only [.array] v

/-- Copies of all elements but the last; `null` if there is no last. -/
def popOf (pos : Pos) : Value → Run Value
  | .array r _ => do
    match (← elements r).toList with
    | [] => return .null
    | vs => copies pos vs.dropLast
  | v => refuse .pop pos .first [.array] v

def pushOnto (pos : Pos) (v : Value) : Value → Run Value
  | .array r _ => do copies pos ((← elements r).toList ++ [v])
  | w => refuse .push pos .first [.array] w

/-! ## Callbacks -/

def mapOver (settings : Settings) (pos : Pos) (f : Value) : Value → Script Value
  | .array r _ => do
    unless f.isCallable do refuse .map pos .second [.function, .builtin] f
    let results ← walk r (fun done _ v => return .yield (done.push (← ask (.apply pos f [v]))))
      settings.iterations 0 #[]
    newArray results pos
  | v => refuse .map pos .first [.array] v

def filterOver (settings : Settings) (pos : Pos) (f : Value) : Value → Script Value
  | .array r _ => do
    unless f.isCallable do refuse .filter pos .second [.function, .builtin] f
    let kept ← walk r
      (fun kept _ v => do
        let answer ← ask (.apply pos f [v])
        match ← toBool? answer with
        | none => fault pos (.filterResult answer.ty)
        | some keep => return .yield (if keep then kept.push v else kept))
      settings.iterations 0 #[]
    newArray kept pos
  | v => refuse .filter pos .first [.array] v

def reduceOver (settings : Settings) (pos : Pos) (start f : Value) : Value → Script Value
  | .array r _ => do
    unless f.isCallable do refuse .reduce pos .third [.function, .builtin] f
    walk r (fun acc _ v => return .yield (← ask (.apply pos f [acc, v]))) settings.iterations 0 start
  | v => refuse .reduce pos .first [.array] v

/-! ## Numbers -/

def absOf (pos : Pos) : Value → Run Value
  | .int n p => return .int (if n < 0 then Word.wrap (-n) else n) p
  | .float x p => return .float (if x < 0 then -x else x) p
  | v => refuse .abs pos .only [.integer, .float] v

/-- A power of floats. At zero a negative exponent has a pole, whose sign is that of the zero if
the exponent is odd. A finite power that is too large is positive infinity. -/
def floatPow (base exponent : Float) : Float :=
  if base == 0 && exponent < 0 then
    let odd := (Binary.ofFloat exponent).isOdd
    let negative := match Binary.ofFloat base with
      | .finite negative _ _ => negative
      | _ => false
    Binary.toFloat (.infinite (odd && negative))
  else
    let power := Float.pow base exponent
    if power.isInf && base.isFinite && exponent.isFinite then Binary.toFloat (.infinite false)
    else power

def powOf (pos : Pos) (x y : Value) : Run Value :=
  let floats : Run Value :=
    match x.number?, y.number? with
    | some a, some b => return .float (floatPow a b) pos
    | _, _ => fault pos (.bothArguments (.builtin .pow) [.integer, .float] x.ty y.ty)
  match x, y with
  | .int a _, .int b _ => if 0 ≤ b then return .int (Word.pow a b.toNat) pos else floats
  | _, _ => floats

def sqrtOf (pos : Pos) (v : Value) : Run Value :=
  match v.number? with
  | some x => if x < 0 then fault pos (.negativeRoot x) else return .float x.sqrt pos
  | none => refuse .sqrt pos .only [.integer, .float] v

/-- A function of a float. -/
def floatFunction (b : Builtin) (f : Float → Float) (pos : Pos) (v : Value) : Run Value :=
  match v.number? with
  | some x => return .float (f x) pos
  | none => refuse b pos .only [.integer, .float] v

/-- What adding up numbers gives: the integers and the floats are added separately. -/
structure Total where
  ints : Int := 0
  floats : Float := 0
  /-- A float was among the numbers. -/
  mixed : Bool := false

def Total.add (t : Total) : Value → Option Total
  | .int n _ => some { t with ints := Word.wrap (t.ints + n) }
  | .float x _ => some { t with floats := t.floats + x, mixed := true }
  | _ => none

/-- The total of a list of values. -/
def total (pos : Pos) (t : Total) : List Value → Run Total
  | [] => return t
  | v :: vs =>
    match t.add v with
    | some t => total pos t vs
    | none => fault pos (.sumElement v.ty)

def Total.value (t : Total) (pos : Pos) : Value :=
  if t.mixed then .float (t.floats + .ofInt t.ints) pos else .int t.ints pos

def Total.number (t : Total) : Float :=
  if t.mixed then t.floats + .ofInt t.ints else .ofInt t.ints

def sumOf (pos : Pos) : Value → Run Value
  | .array r _ => do return (← total pos {} (← elements r).toList).value pos
  | v => refuse .sum pos .only [.array] v

def meanOf (pos : Pos) : Value → Run Value
  | .array r _ => do
    let vs ← elements r
    if vs.isEmpty then fault pos .emptyMean
    let t ← total pos {} vs.toList
    return .float (t.number / .ofNat vs.size) pos
  | v => refuse .mean pos .only [.array] v

/-! ## All functions -/

/-- Prints each value on a line of its own. -/
def printAll : List Value → Run Value
  | [] => return .null
  | v :: vs => do
    printLine (← inspect v)
    printAll vs

/-- Calls a built-in function at `pos`. -/
def run (settings : Settings) (b : Builtin) (pos : Pos) (args : List Value) : Script Value :=
  match b, args with
  | .type, [v] => return .string v.ty.text pos
  | .range, args => rangeOf pos args
  | .int, [v] => toInt pos v
  | .float, [v] => toFloat pos v
  | .string, [v] => toText pos v
  | .bool, [v] => toBool pos v
  | .len, [v] => lengthOf pos v
  | .first, [v] => pickOf .first (·[0]?) String.front? pos v
  | .last, [v] => pickOf .last Array.back? String.back? pos v
  | .rest, [v] => restOf pos v
  | .push, [w, v] => pushOnto pos v w
  | .pop, [v] => popOf pos v
  | .map, [v, f] => mapOver settings pos f v
  | .filter, [v, f] => filterOver settings pos f v
  | .reduce, [v, start, f] => reduceOver settings pos start f v
  | .print, args => printAll args
  | .abs, [v] => absOf pos v
  | .pow, [x, y] => powOf pos x y
  | .sqrt, [v] => sqrtOf pos v
  | .sin, [v] => floatFunction .sin Float.sin pos v
  | .cos, [v] => floatFunction .cos Float.cos pos v
  | .tan, [v] => floatFunction .tan Float.tan pos v
  | .sum, [v] => sumOf pos v
  | .mean, [v] => meanOf pos v
  | b, args => fault pos (.builtinCount args.length ((b.arity.getD 0).repr))

end Builtin

end Vorn
