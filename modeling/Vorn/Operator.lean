/-!
# Operators

The three families of operators of the language with their spelling, and the precedence levels
that decide how far an operand extends. A higher level binds tighter.
-/

namespace Vorn

/-- Operators that stand before their operand and leave it unchanged. -/
inductive UnaryOp where
  | not
  | negate
  | complement
deriving DecidableEq, Repr

/-- Operators between two operands. -/
inductive BinaryOp where
  | or | and
  | bitOr | bitXor | bitAnd
  | eq | ne
  | lt | gt | le | ge
  | shiftLeft | shiftRight
  | add | sub
  | mul | div | mod
deriving DecidableEq, Repr

/-- Operators that change a variable by one. -/
inductive StepOp where
  | increment
  | decrement
deriving DecidableEq, Repr

def UnaryOp.text : UnaryOp → String
  | .not => "!"
  | .negate => "-"
  | .complement => "~"

def BinaryOp.text : BinaryOp → String
  | .or => "||"
  | .and => "&&"
  | .bitOr => "|"
  | .bitXor => "^"
  | .bitAnd => "&"
  | .eq => "=="
  | .ne => "!="
  | .lt => "<"
  | .gt => ">"
  | .le => "<="
  | .ge => ">="
  | .shiftLeft => "<<"
  | .shiftRight => ">>"
  | .add => "+"
  | .sub => "-"
  | .mul => "*"
  | .div => "/"
  | .mod => "%"

def StepOp.text : StepOp → String
  | .increment => "++"
  | .decrement => "--"

/-- What the operator adds to its variable. -/
def StepOp.amount : StepOp → Int
  | .increment => 1
  | .decrement => -1

/-! ## Precedence levels -/

namespace Level

/-- Below every operator: the level of a whole expression. -/
def lowest : Nat := 1

/-- The operand of a unary operator. -/
def unary : Nat := 12

/-- A call, and a step operator behind its variable. -/
def call : Nat := 13

def index : Nat := 14

/-- A member or method behind a dot. -/
def chain : Nat := 15

end Level

/-- Operators of one level group to the left. -/
def BinaryOp.level : BinaryOp → Nat
  | .or => 2
  | .and => 3
  | .bitOr => 4
  | .bitXor => 5
  | .bitAnd => 6
  | .eq | .ne => 7
  | .lt | .gt | .le | .ge => 8
  | .shiftLeft | .shiftRight => 9
  | .add | .sub => 10
  | .mul | .div | .mod => 11

end Vorn
