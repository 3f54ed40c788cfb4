import Vorn.Number.Layout
import Vorn.Number.Numeral
import Vorn.Store
import Vorn.Tree.Render

/-!
# Snapshots

A snapshot is a value together with the contents of the arrays and hashes that it refers to, as one
finite tree. A value that contains itself has none.
-/

namespace Vorn

inductive Snapshot where
  | null
  | bool (b : Bool)
  | int (n : Int)
  | float (x : Float)
  | string (s : String)
  | array (elements : List Snapshot)
  | hash (pairs : List (Snapshot × Snapshot))
  /-- A function, by its source form. -/
  | function (text : String)
  | builtin (b : Builtin)
  | returned (value : Snapshot)
  | break
  | continue
deriving Inhabited

def Closure.text (c : Closure) : String := "func" ++ parenthesized c.params ++ " " ++ c.body.text

namespace Snapshot

mutual

/-- How a value is shown. A text stands for itself, without quotes. -/
def text : Snapshot → String
  | null => "null"
  | bool b => if b then "true" else "false"
  | int n => Numeral.text n
  | float x => FloatLayout.shown.write x
  | string s => s
  | array elements => "[" ++ String.intercalate ", " (texts elements) ++ "]"
  | hash pairs => "\x7b" ++ String.intercalate ", " (pairTexts pairs) ++ "\x7d"
  | function text => text
  | builtin _ => "builtin function"
  | returned value => value.text
  | .break => "break"
  | .continue => "continue"

def texts : List Snapshot → List String
  | [] => []
  | s :: ss => s.text :: texts ss

def pairTexts : List (Snapshot × Snapshot) → List String
  | [] => []
  | (k, v) :: ps => (k.text ++ ": " ++ v.text) :: pairTexts ps

end

end Snapshot

namespace Store

/-- The snapshot of a value from those of the elements of its collection. A `return` signal is
seen through. -/
def snapshotOf (s : Store) (inner : Value → Option Snapshot) : Value → Option Snapshot
  | .null => some .null
  | .bool b => some (.bool b)
  | .int n _ => some (.int n)
  | .float x _ => some (.float x)
  | .string t _ => some (.string t)
  | .array r _ => ((s.array r).toList.mapM inner).map .array
  | .hash r _ => ((s.table r).entries.mapM (pairOf inner)).map .hash
  | .function c => some (.function c.text)
  | .builtin b => some (.builtin b)
  | .returned _ value _ => (snapshotOf s inner value).map .returned
  | .break _ _ => some .break
  | .continue _ _ => some .continue
where
  pairOf (inner : Value → Option Snapshot) (e : Entry) : Option (Snapshot × Snapshot) := do
    return (← inner e.keyValue, ← inner e.value)

/-- The snapshot of a value with at most `depth` collections inside each other. -/
def snapshotWithin (s : Store) : (depth : Nat) → Value → Option Snapshot
  | 0 => s.snapshotOf fun _ => none
  | depth + 1 => s.snapshotOf (s.snapshotWithin depth)

/-- The snapshot of a value; `none` if a collection in it contains itself. Collections that lie
inside each other without a cycle are all different, so their number bounds the depth. -/
def snapshot? (s : Store) (v : Value) : Option Snapshot := s.snapshotWithin s.collections v

/-- How a value is shown. -/
def inspect? (s : Store) (v : Value) : Option String := (s.snapshot? v).map (·.text)

end Store

end Vorn
