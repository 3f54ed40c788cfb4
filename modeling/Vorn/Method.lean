/-!
# Methods

The methods of arrays, texts and hashes, by their names.
-/

namespace Vorn

inductive ArrayMethod where
  | length | push | append | prepend | shift | pop | concat | map | filter | reduce | contains
  | indexOf | find | join | reverse | slice | sort | any | every
deriving DecidableEq, Repr

inductive StringMethod where
  | length | upper | lower | split | contains | replace | trim | trimStart | trimEnd | repeat
  | reverse | slice | startsWith | endsWith
deriving DecidableEq, Repr

inductive HashMethod where
  | keys | values | items
deriving DecidableEq, Repr

namespace ArrayMethod

def all : List ArrayMethod :=
  [length, push, append, prepend, shift, pop, concat, map, filter, reduce, contains, indexOf, find,
   join, reverse, slice, sort, any, every]

def name : ArrayMethod → String
  | length => "length"
  | push => "push"
  | append => "append"
  | prepend => "prepend"
  | shift => "shift"
  | pop => "pop"
  | concat => "concat"
  | map => "map"
  | filter => "filter"
  | reduce => "reduce"
  | contains => "contains"
  | indexOf => "indexOf"
  | find => "find"
  | join => "join"
  | reverse => "reverse"
  | slice => "slice"
  | sort => "sort"
  | any => "any"
  | every => "every"

def ofName? (name : String) : Option ArrayMethod := all.find? (·.name = name)

end ArrayMethod

namespace StringMethod

def all : List StringMethod :=
  [length, upper, lower, split, contains, replace, trim, trimStart, trimEnd, .repeat, reverse,
   slice, startsWith, endsWith]

def name : StringMethod → String
  | length => "length"
  | upper => "upper"
  | lower => "lower"
  | split => "split"
  | contains => "contains"
  | replace => "replace"
  | trim => "trim"
  | trimStart => "trimStart"
  | trimEnd => "trimEnd"
  | .repeat => "repeat"
  | reverse => "reverse"
  | slice => "slice"
  | startsWith => "startsWith"
  | endsWith => "endsWith"

def ofName? (name : String) : Option StringMethod := all.find? (·.name = name)

end StringMethod

namespace HashMethod

def all : List HashMethod := [keys, values, items]

def name : HashMethod → String
  | keys => "keys"
  | values => "values"
  | items => "items"

def ofName? (name : String) : Option HashMethod := all.find? (·.name = name)

end HashMethod

end Vorn
