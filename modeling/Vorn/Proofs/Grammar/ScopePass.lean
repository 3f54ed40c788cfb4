import Vorn.Grammar.Scope
import Vorn.Proofs.Tree.Marks

/-!
# The rules on names as a pass over a tree

`scopeErrors` walks over a finished tree and collects what breaks the two rules on names, in the
order in which statements end. A statement list adds the names of a statement to its frame after
the statement is checked; a `for` has a frame of its own.

The marks of a statement decide where its errors are reported, and nothing else
(`Frames.check_mark`).
-/

namespace Vorn

mutual

def Expr.scopeErrors (fs : Frames) : Expr → List ParseError
  | .ident _ _ | .int _ _ _ | .float _ _ _ | .bool _ _ | .null _ | .string _ _ | .step _ _ _ _
  | .break _ | .continue _ => []
  | .array _ elements => Expr.scopeErrorsOfAll fs elements
  | .hash _ pairs => Expr.scopeErrorsOfPairs fs pairs
  | .func _ params body => body.scopeErrors fs params
  | .unary _ _ operand => operand.scopeErrors fs
  | .binary _ _ left right => left.scopeErrors fs ++ right.scopeErrors fs
  | .cond _ condition consequence alternative =>
    Expr.scopeErrorsOfOption fs condition ++ (consequence.scopeErrors fs [] ++
      Block.scopeErrorsOfOption fs alternative)
  | .call _ callee args => callee.scopeErrors fs ++ Expr.scopeErrorsOfAll fs args
  | .index _ collection key => collection.scopeErrors fs ++ key.scopeErrors fs
  | .member _ receiver _ _ => receiver.scopeErrors fs
  | .method _ receiver _ _ _ args => receiver.scopeErrors fs ++ Expr.scopeErrorsOfAll fs args
  | .assign _ _ value => value.scopeErrors fs

def Expr.scopeErrorsOfAll (fs : Frames) : List Expr → List ParseError
  | [] => []
  | e :: es => e.scopeErrors fs ++ Expr.scopeErrorsOfAll fs es

def Expr.scopeErrorsOfPairs (fs : Frames) : List (Expr × Expr) → List ParseError
  | [] => []
  | (k, v) :: ps => k.scopeErrors fs ++ (v.scopeErrors fs ++ Expr.scopeErrorsOfPairs fs ps)

def Expr.scopeErrorsOfOption (fs : Frames) : Option Expr → List ParseError
  | none => []
  | some e => e.scopeErrors fs

def Block.scopeErrorsOfOption (fs : Frames) : Option Block → List ParseError
  | none => []
  | some b => b.scopeErrors fs []

/-- A block with the parameters `params` if it is the body of a function. -/
def Block.scopeErrors (fs : Frames) (params : List String) : Block → List ParseError
  | .mk _ statements => Stmt.scopeErrorsOfAll fs { params } statements

def Stmt.scopeErrors (fs : Frames) : Stmt → List ParseError
  | .expr _ _ value => value.scopeErrors fs
  | .declare _ _ _ value => value.scopeErrors fs
  | .return _ value => Expr.scopeErrorsOfOption fs value
  | .while _ condition body => Expr.scopeErrorsOfOption fs condition ++ body.scopeErrors fs []
  | .for _ init condition update body =>
    let inner : Frames := (init.map (Frame.add {})).getD {} :: fs
    Stmt.scopeErrorsOfInit fs init ++ (Expr.scopeErrorsOfOption inner condition ++
      (Expr.scopeErrorsOfOption inner update ++
        (Frames.checkTarget inner (update.bind Expr.target?) ++ body.scopeErrors inner [])))
  | .func _ _ params body => body.scopeErrors fs params

/-- The statements of a list with the frame `own` so far. -/
def Stmt.scopeErrorsOfAll (fs : Frames) (own : Frame) : List Stmt → List ParseError
  | [] => []
  | s :: ss =>
    s.scopeErrors (own :: fs) ++ (Frames.check own fs s ++
      Stmt.scopeErrorsOfAll fs (own.add s) ss)

/-- The first clause of a `for`, whose own frame is still empty. -/
def Stmt.scopeErrorsOfInit (fs : Frames) : Option Stmt → List ParseError
  | none => []
  | some s => s.scopeErrors ({} :: fs) ++ Frames.checkTarget ({} :: fs) s.target?

end

/-- The pass over a whole program. -/
def Program.scopeErrors (p : Program) : List ParseError := Stmt.scopeErrorsOfAll [] {} p.statements

/-! ## Marks -/

/-- The error at another place. -/
def ParseError.move (f : Pos → Pos) : ParseError → ParseError
  | .grammar pos misfit => .grammar (f pos) misfit
  | .redefined pos name => .redefined (f pos) name
  | .constAssigned pos name => .constAssigned (f pos) name

section

variable (m : Marking)

@[simp] theorem Frame.add_mark (f : Frame) (s : Stmt) : f.add (s.mark m) = f.add s := by
  cases s <;> rfl

theorem Expr.target?_mark (e : Expr) :
    (e.mark m).target? = e.target?.map fun t => (m.pos t.1, t.2) := by
  cases e <;> rfl

theorem Stmt.target?_mark (s : Stmt) :
    (s.mark m).target? = s.target?.map fun t => (m.pos t.1, t.2) := by
  cases s with
  | expr p literal e => exact e.target?_mark m
  | _ => rfl

theorem Frames.checkTarget_map (fs : Frames) (target : Option (Pos × String)) :
    fs.checkTarget (target.map fun t => (m.pos t.1, t.2)) =
      (fs.checkTarget target).map (.move m.pos) := by
  cases target with
  | none => rfl
  | some t =>
    simp only [Option.map_some, Frames.checkTarget]
    split <;> rfl

theorem Frames.check_mark (own : Frame) (fs : Frames) (s : Stmt) :
    Frames.check own fs (s.mark m) = (Frames.check own fs s).map (.move m.pos) := by
  have hfresh : own.checkFresh (s.mark m) = (own.checkFresh s).map (.move m.pos) := by
    cases s with
    | declare p isConst name e =>
      simp only [Stmt.mark, Frame.checkFresh]
      split <;> rfl
    | _ => rfl
  simp only [Frames.check, Stmt.target?_mark, Frames.checkTarget_map, hfresh, List.map_append]

end

end Vorn
