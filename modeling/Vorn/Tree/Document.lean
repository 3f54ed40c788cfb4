import Vorn.Number.Layout
import Vorn.Number.Numeral
import Vorn.Tree

/-!
# Trees as documents

A document is a tree of plain data: null, truth values, numbers, texts, lists and objects whose
fields have an order. `Program.document` describes a program node by node, with kinds and places,
and `Document.render` writes a document as JSON.
-/

namespace Vorn

/-- Plain data. -/
inductive Document where
  | null
  | bool (value : Bool)
  | int (value : Int)
  | float (value : Float)
  | text (value : String)
  | list (items : List Document)
  | object (fields : List (String × Document))

namespace Document

def texts (items : List String) : Document := list (items.map text)

/-! ## Writing -/

/-- Two hexadecimal digits. -/
def hexPair (n : Nat) : String :=
  String.ofList [Nat.digitChar (n / 16), Nat.digitChar (n % 16)]

/-- Quotes, backslashes and control characters are escaped; all else stands for itself. -/
def escaped (c : Char) : String :=
  match c with
  | '"' => "\\\""
  | '\\' => "\\\\"
  | '\n' => "\\n"
  | '\r' => "\\r"
  | '\t' => "\\t"
  | c =>
    if c.toNat = 8 then "\\b"
    else if c.toNat = 12 then "\\f"
    else if c.toNat < 0x20 then "\\u00" ++ hexPair c.toNat
    else .singleton c

def quoted (s : String) : String := "\"" ++ String.join (s.toList.map escaped) ++ "\""

/-- A new line, indented by two blanks a level. -/
def newline (depth : Nat) : String := "\n" ++ .ofList (List.replicate (2 * depth) ' ')

/-- Items between two brackets, each on a line of its own one level deeper than the brackets. -/
def enclosed (opening closing : String) (depth : Nat) (items : List String) : String :=
  match items with
  | [] => opening ++ closing
  | _ =>
    opening ++ newline (depth + 1) ++ String.intercalate ("," ++ newline (depth + 1)) items
      ++ newline depth ++ closing

mutual

/-- The JSON text of a document that starts at the given depth of indentation. -/
def renderAt (depth : Nat) : Document → String
  | null => "null"
  | bool value => if value then "true" else "false"
  | int value => Numeral.text value
  | float value => FloatLayout.document.write value
  | text value => quoted value
  | list items => enclosed "[" "]" depth (renderItems (depth + 1) items)
  | object fields => enclosed "\x7b" "\x7d" depth (renderFields (depth + 1) fields)

def renderItems (depth : Nat) : List Document → List String
  | [] => []
  | d :: ds => renderAt depth d :: renderItems depth ds

def renderFields (depth : Nat) : List (String × Document) → List String
  | [] => []
  | (k, d) :: fs => (quoted k ++ ": " ++ renderAt depth d) :: renderFields depth fs

end

/-- The JSON text of a document. -/
def render (d : Document) : String := renderAt 0 d

/-- A node of the tree: its kind, its place and its parts. -/
def node (kind : String) (pos : Pos) (fields : List (String × Document)) : Document :=
  object ([("type", text kind), ("line", int pos.line), ("column", int pos.column)] ++ fields)

end Document

/-! ## Describing trees -/

mutual

def Expr.document : Expr → Document
  | .ident pos name => .node "Identifier" pos [("name", .text name)]
  | .int pos _ value => .node "IntegerLiteral" pos [("value", .int value)]
  | .float pos _ value => .node "FloatLiteral" pos [("value", .float value)]
  | .bool pos value => .node "BooleanLiteral" pos [("value", .bool value)]
  | .null pos => .node "NullLiteral" pos []
  | .string pos value => .node "StringLiteral" pos [("value", .text value)]
  | .array pos elements => .node "ArrayLiteral" pos [("elements", .list (Expr.documents elements))]
  | .hash pos pairs => .node "HashLiteral" pos [("pairs", .list (Expr.pairDocuments pairs))]
  | .func pos params body =>
    .node "FunctionLiteral" pos [("parameters", .texts params), ("body", body.document)]
  | .unary pos op operand =>
    .node "PrefixExpression" pos [("operator", .text op.text), ("right", operand.document)]
  | .binary pos op left right =>
    .node "InfixExpression" pos
      [("operator", .text op.text), ("left", left.document), ("right", right.document)]
  | .cond pos condition consequence alternative =>
    .node "IfExpression" pos
      [("condition", Expr.optionDocument condition), ("consequence", consequence.document),
       ("alternative", Block.optionDocument alternative)]
  | .call pos callee args =>
    .node "CallExpression" pos
      [("function", callee.document), ("arguments", .list (Expr.documents args))]
  | .index pos collection key =>
    .node "IndexExpression" pos [("left", collection.document), ("index", key.document)]
  | .member pos receiver namePos name =>
    .node "ChainingExpression" pos
      [("left", receiver.document), ("right", .node "Identifier" namePos [("name", .text name)])]
  | .method pos receiver namePos name callPos args =>
    .node "ChainingExpression" pos
      [("left", receiver.document),
       ("right",
        .node "CallExpression" callPos
          [("function", .node "Identifier" namePos [("name", .text name)]),
           ("arguments", .list (Expr.documents args))])]
  | .assign pos name value =>
    .node "ReassignmentExpression" pos [("name", .text name), ("value", value.document)]
  | .step pos op name before =>
    .node "IncrementDecrementExpression" pos
      [("operator", .text op.text), ("target", .text name), ("prefix", .bool before)]
  | .break pos => .node "BreakExpression" pos []
  | .continue pos => .node "ContinueExpression" pos []

def Expr.documents : List Expr → List Document
  | [] => []
  | e :: es => e.document :: Expr.documents es

def Expr.pairDocuments : List (Expr × Expr) → List Document
  | [] => []
  | (k, v) :: ps => .list [k.document, v.document] :: Expr.pairDocuments ps

def Expr.optionDocument : Option Expr → Document
  | none => .null
  | some e => e.document

def Block.optionDocument : Option Block → Document
  | none => .null
  | some b => b.document

def Block.document : Block → Document
  | .mk pos statements =>
    .node "BlockStatement" pos [("statements", .list (Stmt.documents statements))]

def Stmt.document : Stmt → Document
  | .expr pos _ value => .node "ExpressionStatement" pos [("expression", value.document)]
  | .declare pos isConst name value =>
    .node "VariableStatement" pos
      [("name", .text name), ("is_const", .bool isConst), ("value", value.document)]
  | .return pos value => .node "ReturnStatement" pos [("value", Expr.optionDocument value)]
  | .while pos condition body =>
    .node "WhileStatement" pos
      [("condition", Expr.optionDocument condition), ("body", body.document)]
  | .for pos init condition update body =>
    .node "ForStatement" pos
      [("init", Stmt.optionDocument init), ("condition", Expr.optionDocument condition),
       ("update", Expr.optionDocument update), ("body", body.document)]
  | .func pos name params body =>
    .node "FunctionStatement" pos
      [("name", .text name), ("parameters", .texts params), ("body", body.document)]

def Stmt.documents : List Stmt → List Document
  | [] => []
  | s :: ss => s.document :: Stmt.documents ss

def Stmt.optionDocument : Option Stmt → Document
  | none => .null
  | some s => s.document

end

/-- A program as a document. -/
def Program.document (p : Program) : Document :=
  .object [("type", .text "Program"), ("statements", .list (Stmt.documents p.statements))]

end Vorn
