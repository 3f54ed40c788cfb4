import Vorn.Number.Layout
import Vorn.Number.Numeral
import Vorn.Value

/-!
# Runtime errors

A fault is a cause and the place it is reported at. The wording of every cause is in `Cause.text`.
-/

namespace Vorn

/-- The kinds of values that have methods, by the names that errors use for them. -/
inductive Owner where
  | array | string | object
deriving DecidableEq, Repr

def Owner.text : Owner → String
  | array => "Array"
  | string => "String"
  | object => "Object"

/-- What an error calls a built-in function or a method. -/
inductive Callee where
  | builtin (b : Builtin)
  | method (owner : Owner) (name : String)
deriving DecidableEq, Repr

def Callee.text : Callee → String
  | builtin b => b.name
  | method owner name => owner.text ++ "." ++ name ++ "()"

/-- Which argument an error is about. -/
inductive Place where
  | only | first | second | third
deriving DecidableEq, Repr

/-- The head of an error about an argument. -/
def Place.text : Place → String
  | only => "argument"
  | first => "first argument"
  | second => "second argument"
  | third => "third argument"

/-- How many arguments a method takes. -/
inductive Count where
  | none
  | exactly (n : Nat)
  | atMost (n : Nat)
  | atLeast (n : Nat)
  /-- None or one. -/
  | optional
  /-- One or two. -/
  | oneOrTwo
deriving DecidableEq, Repr

/-- A number of arguments in words. -/
def argumentCount (n : Nat) : String :=
  n.repr ++ (if n = 1 then " argument" else " arguments")

def Count.text : Count → String
  | none => "no arguments"
  | exactly n => "exactly " ++ argumentCount n
  | atMost n => "at most " ++ argumentCount n
  | atLeast n => "at least " ++ argumentCount n
  | optional => "0 or 1 argument"
  | oneOrTwo => "1 or 2 arguments"

/-- Alternatives between commas, with `or` before the last. -/
def alternatives : List String → String
  | [] => ""
  | [a] => a
  | [a, b] => a ++ " or " ++ b
  | a :: rest => a ++ ", " ++ alternatives rest

/-- Why a program stops. -/
inductive Cause where
  -- names
  | alreadyDefined (name : String)
  | notFound (name : String)
  | notInitialized (name : String)
  -- operators
  | unknownUnary (op : UnaryOp) (operand : Ty)
  /-- The operator stands before its operand or behind it. -/
  | unknownStep (op : StepOp) (before : Bool) (operand : Ty)
  | unknownBinary (left : Ty) (op : BinaryOp) (right : Ty)
  | typeMismatch (left : Ty) (op : BinaryOp) (right : Ty)
  | divisionByZero
  | negativeShift
  | notIndexable (collection : Ty)
  | notHashable (key : Ty)
  -- control
  | breakOutside
  | continueOutside
  | stackOverflow
  -- calls
  | notFunction (callee : Ty)
  | parameterCount (want got : Nat)
  | builtinCount (got : Nat) (want : String)
  | noMembers (receiver : Ty) (name : String)
  | noMethod (owner : Owner) (name : String)
  | methodCount (callee : Callee) (want : Count) (got : Option Nat)
  -- arguments
  | argument (place : Place) (callee : Callee) (want : List Ty) (got : Ty)
  | bothArguments (callee : Callee) (want : List Ty) (x y : Ty)
  | unsupported (callee : Callee) (got : Ty)
  | outOfRange (place : Place) (callee : Callee)
  | negativeRange (n : Int)
  | negativeRoot (x : Float)
  | unreadable (text : String) (want : Ty)
  | emptyMean
  | sumElement (got : Ty)
  | emptyArray (callee : Callee)
  | popNotInteger
  | popOutOfRange
  -- callbacks
  | notCallback (callee : Callee) (got : Ty)
  | callbackParameters (callee : Callee) (least : Nat)
  | filterResult (got : Ty)
  | callbackResult (callee : Callee) (got : Ty)
  | comparatorResult (got : Ty)
  | incomparable (x y : Ty)

def Cause.text : Cause → String
  | alreadyDefined name => "variable already defined: " ++ name
  | notFound name => "identifier not found: " ++ name
  | notInitialized name => "variable " ++ name ++ " has not been initialized."
  | unknownUnary op operand => "unknown operator: " ++ op.text ++ operand.text
  | unknownStep op before operand =>
    "unknown operator: "
      ++ (if before then op.text ++ operand.text else operand.text ++ op.text)
  | unknownBinary left op right =>
    "unknown operator: " ++ left.text ++ " " ++ op.text ++ " " ++ right.text
  | typeMismatch left op right =>
    "type mismatch: " ++ left.text ++ " " ++ op.text ++ " " ++ right.text
  | divisionByZero => "division by zero"
  | negativeShift => "negative shift count"
  | notIndexable collection => "index operator not supported: " ++ collection.text
  | notHashable key => "unusable as hash key: " ++ key.text
  | breakOutside => "break outside of loop"
  | continueOutside => "continue outside of loop"
  | stackOverflow => "stack overflow"
  | notFunction callee => "not a function: " ++ callee.text
  | parameterCount want got =>
    "wrong number of arguments: want=" ++ want.repr ++ ", got=" ++ got.repr
  | builtinCount got want => "wrong number of arguments. got " ++ got.repr ++ ", want " ++ want
  | noMembers receiver name => "chaining operator not supported: " ++ receiver.text ++ "." ++ name
  | noMethod owner name => owner.text ++ " has no method " ++ name
  | methodCount callee want got =>
    callee.text ++ " takes " ++ want.text
      ++ (match got with | none => "" | some n => ", got " ++ n.repr)
  | argument place callee want got =>
    place.text ++ " to `" ++ callee.text ++ "` must be " ++ alternatives (want.map Ty.text)
      ++ ", got " ++ got.text
  | bothArguments callee want x y =>
    "arguments to `" ++ callee.text ++ "` must be " ++ alternatives (want.map Ty.text)
      ++ ", got " ++ x.text ++ " and " ++ y.text
  | unsupported callee got => "argument to `" ++ callee.text ++ "` not supported, got " ++ got.text
  | outOfRange place callee => place.text ++ " to `" ++ callee.text ++ "` out of range"
  | negativeRange n => "argument to `range` must be non-negative, got " ++ Numeral.text n
  | negativeRoot x => "argument to `sqrt` must be non-negative, got " ++ FloatLayout.shown.write x
  | unreadable text want => "could not parse \"" ++ text ++ "\" as " ++ want.text
  | emptyMean => "argument to `mean` must not be empty"
  | sumElement got => "elements of `sum` must be INTEGER or FLOAT, got " ++ got.text
  | emptyArray callee => callee.text ++ " called on empty array"
  | popNotInteger => "Array.pop() argument must be an integer"
  | popOutOfRange => "Array.pop() index out of range"
  | notCallback callee got => callee.text ++ " callback must be a function, got " ++ got.text
  | callbackParameters callee least =>
    callee.text ++ " callback must take at least " ++ argumentCount least
  | filterResult got => "`filter` callback result can not be used as BOOLEAN, got " ++ got.text
  | callbackResult callee got =>
    callee.text ++ " callback result can not be used as BOOLEAN, got " ++ got.text
  | comparatorResult got =>
    "Array.sort() callback must return INTEGER or FLOAT, got " ++ got.text
  | incomparable x y => "Array.sort() can not compare " ++ x.text ++ " and " ++ y.text

/-- A runtime error: what went wrong, and where it is reported. -/
structure Fault where
  pos : Pos
  cause : Cause

/-- The message of a fault, `[line:column] text`. -/
def Fault.message (f : Fault) : String := f.pos.text ++ " " ++ f.cause.text

/-- How a fault is shown as the result of a program. -/
def Fault.shown (f : Fault) : String := "ERROR: " ++ f.message

end Vorn
