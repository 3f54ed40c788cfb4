import Vorn.Tree

/-!
# The source form of a tree

Operators, indexing, member access and steps are written with parentheses around them, so that the
text needs no precedence to be read. A missing part is left out.
-/

namespace Vorn

/-- Parameters or arguments between parentheses. -/
def parenthesized (items : List String) : String := "(" ++ String.intercalate ", " items ++ ")"

/-- Statements between braces. -/
def braced (statements : List String) : String :=
  match statements with
  | [] => "\x7b \x7d"
  | _ => "\x7b " ++ String.intercalate " " statements ++ " \x7d"

mutual

def Expr.text : Expr → String
  | .ident _ name => name
  | .int _ written _ => written
  | .float _ written _ => written
  | .bool _ value => if value then "true" else "false"
  | .null _ => "null"
  | .string _ value => "\"" ++ value ++ "\""
  | .array _ elements => "[" ++ String.intercalate ", " (Expr.texts elements) ++ "]"
  | .hash _ pairs => "\x7b" ++ String.intercalate ", " (Expr.pairTexts pairs) ++ "\x7d"
  | .func _ params body => "func" ++ parenthesized params ++ " " ++ body.text
  | .unary _ op operand => "(" ++ op.text ++ operand.text ++ ")"
  | .binary _ op left right => "(" ++ left.text ++ " " ++ op.text ++ " " ++ right.text ++ ")"
  | .cond _ condition consequence alternative =>
    "if (" ++ Expr.optionText condition ++ ") " ++ consequence.text
      ++ Block.alternativeText alternative
  | .call _ callee args => callee.text ++ parenthesized (Expr.texts args)
  | .index _ collection key => "(" ++ collection.text ++ "[" ++ key.text ++ "])"
  | .member _ receiver _ name => "(" ++ receiver.text ++ "." ++ name ++ ")"
  | .method _ receiver _ name _ args =>
    "(" ++ receiver.text ++ "." ++ name ++ parenthesized (Expr.texts args) ++ ")"
  | .assign _ name value => name ++ " = " ++ value.text
  | .step _ op name before =>
    if before then "(" ++ op.text ++ name ++ ")" else "(" ++ name ++ op.text ++ ")"
  | .break _ => "break"
  | .continue _ => "continue"

def Expr.texts : List Expr → List String
  | [] => []
  | e :: es => e.text :: Expr.texts es

def Expr.pairTexts : List (Expr × Expr) → List String
  | [] => []
  | (k, v) :: ps => (k.text ++ ": " ++ v.text) :: Expr.pairTexts ps

def Expr.optionText : Option Expr → String
  | none => ""
  | some e => e.text

def Block.alternativeText : Option Block → String
  | none => ""
  | some b => " else " ++ b.text

def Block.text : Block → String
  | .mk _ statements => braced (Stmt.texts statements)

def Stmt.text : Stmt → String
  | .expr _ _ value => value.text ++ ";"
  | .declare _ isConst name value =>
    (if isConst then "const" else "let") ++ " " ++ name ++ " = " ++ value.text ++ ";"
  | .return _ none => "return;"
  | .return _ (some value) => "return " ++ value.text ++ ";"
  | .while _ condition body => "while (" ++ Expr.optionText condition ++ ") " ++ body.text
  | .for _ init condition update body =>
    "for (" ++ Stmt.initText init ++ " " ++ Expr.optionText condition ++ "; "
      ++ Expr.optionText update ++ ") " ++ body.text
  | .func _ name params body => "func " ++ name ++ parenthesized params ++ " " ++ body.text

def Stmt.texts : List Stmt → List String
  | [] => []
  | s :: ss => s.text :: Stmt.texts ss

/-- The first clause of a `for` with its semicolon. -/
def Stmt.initText : Option Stmt → String
  | none => ";"
  | some s => s.text

end

/-- A program has one statement on a line. -/
def Program.text (p : Program) : String := String.intercalate "\n" (Stmt.texts p.statements)

end Vorn
