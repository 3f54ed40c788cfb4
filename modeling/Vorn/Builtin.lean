/-!
# Built-in functions

The functions that every program can call without declaring them, in their listed order.
-/

namespace Vorn

/-- A built-in function. -/
inductive Builtin where
  | type | range
  | int | float | string | bool
  | len | first | last
  | rest | push | pop | map | filter | reduce
  | print
  | abs | pow | sqrt | sin | cos | tan | sum | mean
deriving DecidableEq, Repr

namespace Builtin

def all : List Builtin :=
  [type, range, int, float, string, bool, len, first, last, rest, push, pop, map, filter, reduce,
   print, abs, pow, sqrt, sin, cos, tan, sum, mean]

def name : Builtin → String
  | type => "type"
  | range => "range"
  | int => "int"
  | float => "float"
  | string => "string"
  | bool => "bool"
  | len => "len"
  | first => "first"
  | last => "last"
  | rest => "rest"
  | push => "push"
  | pop => "pop"
  | map => "map"
  | filter => "filter"
  | reduce => "reduce"
  | print => "print"
  | abs => "abs"
  | pow => "pow"
  | sqrt => "sqrt"
  | sin => "sin"
  | cos => "cos"
  | tan => "tan"
  | sum => "sum"
  | mean => "mean"

/-- The number of arguments; `none` if it varies. -/
def arity : Builtin → Option Nat
  | range | print => none
  | push | map | filter | pow => some 2
  | reduce => some 3
  | _ => some 1

def ofName? (name : String) : Option Builtin := all.find? (·.name = name)

end Builtin

end Vorn
