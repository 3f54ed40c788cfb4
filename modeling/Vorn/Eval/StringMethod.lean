import Vorn.Eval.ArrayMethod
import Vorn.Text.Blank
import Vorn.Text.Case
import Vorn.Text.Search

/-!
# Methods of texts and hashes

Positions and lengths count characters. Errors are reported at the place of the receiver.
-/

namespace Vorn

open Run

namespace StringMethod

def callee (m : StringMethod) : Callee := .method .string m.name

def refuseCount {α : Type} (m : StringMethod) (pos : Pos) (want : Count) : Run α :=
  fault pos (.methodCount m.callee want none)

def refuse {α : Type} (m : StringMethod) (pos : Pos) (place : Place) (want : Ty) (got : Value) :
    Run α :=
  fault pos (.argument place m.callee [want] got.ty)

/-- A method without arguments that gives a text. -/
def plain (m : StringMethod) (pos : Pos) (result : String) : List Value → Run Value
  | [] => return .string result pos
  | _ => refuseCount m pos .none

/-- A method that tests the receiver against a text. -/
def test (m : StringMethod) (pos : Pos) (holds : String → Bool) : List Value → Run Value
  | [.string t _] => return .bool (holds t)
  | [v] => refuse m pos .only .string v
  | _ => refuseCount m pos (.exactly 1)

/-- The parts of a text as an array of texts. -/
def parts (pos : Pos) (sep text : String) : Run Value :=
  newArray ((Text.split sep.toList text.toList).map fun cs => .string (.ofList cs) pos).toArray pos

/-- Copies of a text one behind the other. -/
def repeated (s : String) (n : Nat) : String :=
  if s.isEmpty then "" else n.repeat (· ++ s) ""

/-- Calls a method of the text `s` that comes from `pos`. -/
def run (m : StringMethod) (s : String) (pos : Pos) (args : List Value) : Run Value := do
  match m with
  | .length =>
    match args with
    | [] => return .int s.length pos
    | _ => refuseCount m pos .none
  | .upper => plain m pos (Text.upper s) args
  | .lower => plain m pos (Text.lower s) args
  | .trim => plain m pos (Text.trim s) args
  | .trimStart => plain m pos (Text.trimStart s) args
  | .trimEnd => plain m pos (Text.trimEnd s) args
  | .reverse => plain m pos (.ofList s.toList.reverse) args
  | .split =>
    match args with
    | [] => parts pos " " s
    | [.string sep _] => parts pos sep s
    | [v] => refuse m pos .only .string v
    | args => fault pos (.methodCount m.callee (.atMost 1) (some args.length))
  | .contains => test m pos (fun t => Text.occurs t.toList s.toList) args
  | .startsWith => test m pos (fun t => s.startsWith t) args
  | .endsWith => test m pos (fun t => s.endsWith t) args
  | .replace =>
    match args with
    | [.string old _, .string new _] =>
      return .string (.ofList (Text.replace old.toList new.toList s.toList)) pos
    | [.string _ _, v] => refuse m pos .second .string v
    | [v, _] => refuse m pos .first .string v
    | _ => refuseCount m pos (.exactly 2)
  | .repeat =>
    match args with
    | [.int n _] => return .string (repeated s n.toNat) pos
    | [v] => refuse m pos .only .integer v
    | _ => refuseCount m pos (.exactly 1)
  | .slice =>
    let (start, stop) ← sliceBounds m.callee pos s.length args
    return .string ((s.drop start).take (stop - start)).copy pos

end StringMethod

namespace HashMethod

/-- Calls a method of the hash `r` that comes from `pos`. -/
def run (m : HashMethod) (r : TableRef) (pos : Pos) (args : List Value) : Run Value := do
  match args with
  | _ :: _ => fault pos (.methodCount (.method .object m.name) .none none)
  | [] =>
    let entries := ((← store).table r).entries
    match m with
    | .keys => newArray (entries.map (·.keyValue)).toArray pos
    | .values => newArray (entries.map (·.value)).toArray pos
    | .items =>
      let items ← entries.mapM fun e => newArray #[e.keyValue, e.value] e.keyValue.pos
      newArray items.toArray pos

end HashMethod

end Vorn
