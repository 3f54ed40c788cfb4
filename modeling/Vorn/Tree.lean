import Vorn.Operator
import Vorn.Position

/-!
# Programs as trees

Expressions, statements and blocks, each with the place of the token that it is named for. A tree
that the grammar reports errors for may lack the condition of an `if` or `while`; everything else
that a form needs is always there.
-/

namespace Vorn

mutual

/-- An expression. -/
inductive Expr where
  | ident (pos : Pos) (name : String)
  /-- An integer, with the digits as written. -/
  | int (pos : Pos) (written : String) (value : Int)
  /-- A float, with the digits as written. -/
  | float (pos : Pos) (written : String) (value : Float)
  | bool (pos : Pos) (value : Bool)
  | null (pos : Pos)
  | string (pos : Pos) (value : String)
  | array (pos : Pos) (elements : List Expr)
  | hash (pos : Pos) (pairs : List (Expr × Expr))
  | func (pos : Pos) (params : List String) (body : Block)
  | unary (pos : Pos) (op : UnaryOp) (operand : Expr)
  | binary (pos : Pos) (op : BinaryOp) (left right : Expr)
  | cond (pos : Pos) (condition : Option Expr) (consequence : Block) (alternative : Option Block)
  | call (pos : Pos) (callee : Expr) (args : List Expr)
  | index (pos : Pos) (collection key : Expr)
  /-- `receiver.name` without arguments. -/
  | member (pos : Pos) (receiver : Expr) (namePos : Pos) (name : String)
  /-- `receiver.name(args)`. -/
  | method (pos : Pos) (receiver : Expr) (namePos : Pos) (name : String) (callPos : Pos)
      (args : List Expr)
  | assign (pos : Pos) (name : String) (value : Expr)
  /-- `++x` or `--x` if `before`, otherwise `x++` or `x--`. -/
  | step (pos : Pos) (op : StepOp) (name : String) (before : Bool)
  | break (pos : Pos)
  | continue (pos : Pos)

/-- A statement. -/
inductive Stmt where
  /-- An expression, with the literal of its first token. -/
  | expr (pos : Pos) (literal : String) (value : Expr)
  | declare (pos : Pos) (isConst : Bool) (name : String) (value : Expr)
  | return (pos : Pos) (value : Option Expr)
  | while (pos : Pos) (condition : Option Expr) (body : Block)
  | for (pos : Pos) (init : Option Stmt) (condition update : Option Expr) (body : Block)
  | func (pos : Pos) (name : String) (params : List String) (body : Block)

/-- Statements between braces. -/
inductive Block where
  | mk (pos : Pos) (statements : List Stmt)

end

instance : Inhabited Expr := ⟨.null .shared⟩

instance : Inhabited Stmt := ⟨.return .shared none⟩

instance : Inhabited Block := ⟨.mk .shared []⟩

/-- A whole source text. -/
structure Program where
  statements : List Stmt
deriving Inhabited

def Block.pos : Block → Pos
  | .mk pos _ => pos

def Block.statements : Block → List Stmt
  | .mk _ statements => statements

namespace Expr

def pos : Expr → Pos
  | ident pos _ | int pos _ _ | float pos _ _ | bool pos _ | null pos | string pos _
  | array pos _ | hash pos _ | func pos _ _ | unary pos _ _ | binary pos _ _ _ | cond pos _ _ _
  | call pos _ _ | index pos _ _ | member pos _ _ _ | method pos _ _ _ _ _ | assign pos _ _
  | step pos _ _ _ | .break pos | .continue pos => pos

end Expr

namespace Stmt

def pos : Stmt → Pos
  | expr pos _ _ | declare pos _ _ _ | .return pos _ | .while pos _ _ | .for pos _ _ _ _
  | func pos _ _ _ => pos

/-- The literal of the first token. -/
def literal : Stmt → String
  | expr _ literal _ => literal
  | declare _ isConst _ _ => if isConst then "const" else "let"
  | .return _ _ => "return"
  | .while _ _ _ => "while"
  | .for _ _ _ _ _ => "for"
  | func _ _ _ _ => "func"

/-- The name of the form. -/
def form : Stmt → String
  | expr _ _ _ => "ExpressionStatement"
  | declare _ _ _ _ => "VariableStatement"
  | .return _ _ => "ReturnStatement"
  | .while _ _ _ => "WhileStatement"
  | .for _ _ _ _ _ => "ForStatement"
  | func _ _ _ _ => "FunctionStatement"

end Stmt

namespace Program

/-- The literal of the first token; empty without statements. -/
def literal (p : Program) : String := (p.statements.head?.map Stmt.literal).getD ""

/-- The place of the first statement. -/
def pos (p : Program) : Pos := (p.statements.head?.map Stmt.pos).getD .unknown

end Program

end Vorn
