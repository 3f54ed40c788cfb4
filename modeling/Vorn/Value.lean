import Vorn.Builtin
import Vorn.Scopes
import Vorn.Tree

/-!
# Values

What expressions evaluate to. Arrays and hashes are references into the store. `return`, `break`
and `continue` evaluate to signals, which blocks pass on; a signal that an expression yields is a
value like any other. Every value knows the place it came from, for the errors that concern it.

Functions and signals carry a number of their own, because two of them are equal only if they are
the same one.
-/

namespace Vorn

/-- The types of values. -/
inductive Ty where
  | null | boolean | integer | float | string | array | hash | function | builtin
  | returnValue | break | continue
deriving DecidableEq, Repr

namespace Ty

def text : Ty → String
  | null => "NULL"
  | boolean => "BOOLEAN"
  | integer => "INTEGER"
  | float => "FLOAT"
  | string => "STRING"
  | array => "ARRAY"
  | hash => "HASH"
  | function => "FUNCTION"
  | builtin => "BUILTIN"
  | returnValue => "RETURN_VALUE"
  | .break => "BREAK"
  | .continue => "CONTINUE"

end Ty

/-- The number of an array. -/
structure ArrayRef where
  index : Nat
deriving DecidableEq, Repr

/-- The number of a hash. -/
structure TableRef where
  index : Nat
deriving DecidableEq, Repr

/-- A function with the scope it was made in. -/
structure Closure where
  id : Nat
  params : List String
  body : Block
  scope : ScopeRef
  pos : Pos

inductive Value where
  | null
  | bool (b : Bool)
  | int (n : Int) (pos : Pos)
  | float (x : Float) (pos : Pos)
  | string (s : String) (pos : Pos)
  | array (ref : ArrayRef) (pos : Pos)
  | hash (ref : TableRef) (pos : Pos)
  | function (closure : Closure)
  | builtin (b : Builtin)
  | returned (id : Nat) (value : Value) (pos : Pos)
  | break (id : Nat) (pos : Pos)
  | continue (id : Nat) (pos : Pos)

instance : Inhabited Value := ⟨.null⟩

namespace Value

def ty : Value → Ty
  | null => .null
  | bool _ => .boolean
  | int _ _ => .integer
  | float _ _ => .float
  | string _ _ => .string
  | array _ _ => .array
  | hash _ _ => .hash
  | function _ => .function
  | builtin _ => .builtin
  | returned _ _ _ => .returnValue
  | .break _ _ => .break
  | .continue _ _ => .continue

/-- The place that errors about the value report. -/
def pos : Value → Pos
  | null | bool _ => .shared
  | int _ pos | float _ pos | string _ pos | array _ pos | hash _ pos => pos
  | function closure => closure.pos
  | builtin _ => .unknown
  | returned _ _ pos | .break _ pos | .continue _ pos => pos

/-- Only `null` and `false` fail a condition. -/
def isTruthy : Value → Bool
  | null => false
  | bool b => b
  | _ => true

/-- A value that ends the block it arises in. -/
def isSignal : Value → Bool
  | returned _ _ _ | .break _ _ | .continue _ _ => true
  | _ => false

/-- A value that can be called. -/
def isCallable : Value → Bool
  | function _ | builtin _ => true
  | _ => false

/-- The number as a float, if the value is a number. -/
def number? : Value → Option Float
  | int n _ => some (.ofInt n)
  | float x _ => some x
  | _ => none

/-- Equality of values. Numbers are compared as numbers, texts and truth values by content, and
everything else by identity. -/
def equal : Value → Value → Bool
  | int a _, int b _ => a == b
  | int a _, float b _ => Float.ofInt a == b
  | float a _, int b _ => a == Float.ofInt b
  | float a _, float b _ => a == b
  | bool a, bool b => a == b
  | string a _, string b _ => a == b
  | null, null => true
  | array a _, array b _ => a == b
  | hash a _, hash b _ => a == b
  | function a, function b => a.id == b.id
  | builtin a, builtin b => a == b
  | returned a _ _, returned b _ _ => a == b
  | .break a _, .break b _ => a == b
  | .continue a _, .continue b _ => a == b
  | _, _ => false

end Value

end Vorn
