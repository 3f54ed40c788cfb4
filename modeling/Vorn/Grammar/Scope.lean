import Vorn.Grammar.Error
import Vorn.Tree

/-!
# Declared names

While a statement list is read, its frame collects the names that the finished statements of the
list declare. The frames of the lists around it, innermost first, are the scope of a statement.
-/

namespace Vorn

/-- The names of one statement list, in the order of their declarations, and the parameters if the
list is the body of a function. -/
structure Frame where
  declared : List (String × Bool) := []
  params : List String := []
deriving DecidableEq, Repr

/-- Frames from the innermost outward. -/
abbrev Frames := List Frame

namespace Frame

/-- The frame behind a finished statement. Only `let` and `const` count as declarations here. -/
def add (f : Frame) : Stmt → Frame
  | .declare _ isConst name _ => { f with declared := f.declared ++ [(name, isConst)] }
  | _ => f

end Frame

/-- The nearest declaration of the name is a constant. A parameter hides the frames outside its
function. -/
def Frames.resolvesToConst (name : String) : Frames → Bool
  | [] => false
  | f :: fs =>
    match f.declared.lookup name with
    | some isConst => isConst
    | none => !f.params.contains name && Frames.resolvesToConst name fs

/-- The variable that an expression assigns to, if it is an assignment or a step itself. -/
def Expr.target? : Expr → Option (Pos × String)
  | .assign pos name _ => some (pos, name)
  | .step pos _ name _ => some (pos, name)
  | _ => none

/-- The variable that a statement assigns to, if it is an assignment or a step itself. -/
def Stmt.target? : Stmt → Option (Pos × String)
  | .expr _ _ value => value.target?
  | _ => none

/-- An assignment to a constant is reported at the place of its operator. -/
def Frames.checkTarget (fs : Frames) (target : Option (Pos × String)) : List ParseError :=
  match target with
  | some (pos, name) => if fs.resolvesToConst name then [.constAssigned pos name] else []
  | none => []

/-- A second declaration of a name in one statement list. -/
def Frame.checkFresh (f : Frame) : Stmt → List ParseError
  | .declare pos _ name _ =>
    if (f.declared.lookup name).isSome then [.redefined pos name] else []
  | _ => []

/-- What a finished statement does wrong in the list with frame `own` inside `outer`. -/
def Frames.check (own : Frame) (outer : Frames) (s : Stmt) : List ParseError :=
  Frames.checkTarget (own :: outer) s.target? ++ own.checkFresh s

end Vorn
