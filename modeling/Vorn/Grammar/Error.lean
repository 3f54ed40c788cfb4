import Vorn.Token

/-!
# What is wrong with a source text

A program is refused because a token does not fit the grammar, or because a statement breaks one
of two rules on names: a name is declared once in a scope, and a constant is not assigned to.
-/

namespace Vorn

/-- Why a token does not fit. -/
inductive Misfit where
  | expected (want got : Kind)
  | unexpected (shown : String)
  /-- The digits are no integer of 64 bits. -/
  | notInteger (written : String)
  /-- A step operator needs a variable. -/
  | notName (op : StepOp)
deriving DecidableEq, Repr

def Misfit.text : Misfit → String
  | .expected want got => "expected '" ++ want.text ++ "', got " ++ got.text ++ " instead"
  | .unexpected shown => "unexpected token " ++ shown
  | .notInteger written => "could not parse \"" ++ written ++ "\" as integer"
  | .notName op => "can not apply " ++ op.text ++ " to non-identifier"

/-- A reason to refuse a program, with its place. -/
inductive ParseError where
  | grammar (pos : Pos) (misfit : Misfit)
  | redefined (pos : Pos) (name : String)
  | constAssigned (pos : Pos) (name : String)
deriving DecidableEq, Repr

def ParseError.message : ParseError → String
  | .grammar pos misfit => pos.text ++ ": " ++ misfit.text
  | .redefined pos name => pos.text ++ " can not redefine variable " ++ name ++ "."
  | .constAssigned pos name => pos.text ++ " can not reassign constant " ++ name ++ "."

end Vorn
