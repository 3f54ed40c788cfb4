import Vorn.Grammar.Parse

/-!
# The calls of the grammar

The functions of the grammar call each other. A `Call` names one of them with its arguments, so that
a statement about every function can be made once. Its fuel and the frames around it are not part of
the call. Statement lists and the clauses of a `for` are parts of the forms that they stand in.
-/

namespace Vorn.Parse

/-- A function of the grammar that reads a form, with its arguments. -/
inductive Call : Type → Type where
  | moreParams : Call (List String)
  | params : Call (List String)
  | expression (level : Nat) : Call Expr
  | extend (level : Nat) (left : Expr) : Call Expr
  | continuation (left : Expr) : Call Expr
  | operand : Call Expr
  | unaryOperand : Call Expr
  | nameOrAssign (name : Token) : Call Expr
  | items (close : Kind) : Call (List Expr)
  | moreItems (close : Kind) : Call (List Expr)
  | pairs : Call (List (Expr × Expr))
  | conditional : Call Expr
  | alternative : Call Block
  | block (params : List String) : Call Block
  | statement : Call (Option Stmt)
  | declaration (isConst : Bool) : Call Stmt
  | returnStatement : Call Stmt
  | expressionStatement : Call Stmt
  | functionStatement : Call Stmt
  | whileStatement : Call Stmt
  | forStatement : Call Stmt

namespace Call

variable {α : Type}

/-- The reader of a call with fuel `n` inside the frames `fs`. -/
def reader (n : Nat) (fs : Frames) : Call α → Reader α
  | moreParams => Parse.moreParams n
  | params => Parse.params n
  | expression level => Parse.expression n fs level
  | extend level left => Parse.extend n fs level left
  | continuation left => Parse.continuation n fs left
  | operand => Parse.operand n fs
  | unaryOperand => Parse.unaryOperand n fs
  | nameOrAssign name => Parse.nameOrAssign n fs name
  | items close => Parse.items n fs close
  | moreItems close => Parse.moreItems n fs close
  | pairs => Parse.pairs n fs
  | conditional => Parse.conditional n fs
  | alternative => Parse.alternative n fs
  | block ps => Parse.block n fs ps
  | statement => Parse.statement n fs
  | declaration isConst => Parse.declaration n fs isConst
  | returnStatement => Parse.returnStatement n fs
  | expressionStatement => Parse.expressionStatement n fs
  | functionStatement => Parse.functionStatement n fs
  | whileStatement => Parse.whileStatement n fs
  | forStatement => Parse.forStatement n fs

/-- Where the grammar makes a call: what it reads begins at the current token. -/
def Begins (s : Stream) : Call α → Prop
  | expression level => 0 < level
  | extend level _ => 0 < level
  | nameOrAssign name => name = s.current ∧ name.kind = .ident
  | items close => close ≠ .eof ∧ s.current.kind ≠ .eof
  | moreItems close => close ≠ .eof
  | unaryOperand => s.current.kind ≠ .eof
  | pairs => s.current.kind ≠ .eof
  | block _ => s.current.kind ≠ .eof
  | functionStatement => s.peek.kind = .ident
  | _ => True

/-- The calls that may follow one another inside a call before the next token is read. -/
def depth : Call α → Nat
  | expression _ => 3
  | continuation _ => 2
  | operand => 2
  | statement => 5
  | expressionStatement => 4
  | _ => 1

end Call

end Vorn.Parse
