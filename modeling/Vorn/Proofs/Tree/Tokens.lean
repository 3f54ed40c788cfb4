import Vorn.Proofs.Tree.WellFormed
import Vorn.Tree.Render

/-!
# The tokens of a source form

`tokens` says directly which tokens the source form of a tree consists of. `Program.bare_text` is
the link to the text: the text of a printable program falls into exactly these tokens. The lemma
behind it, `Expr.bare_text`, holds in front of any text that does not continue the last token of
the expression.
-/

namespace Vorn

def UnaryOp.kind : UnaryOp → Kind
  | .not => .bang
  | .negate => .minus
  | .complement => .tilde

def BinaryOp.kind : BinaryOp → Kind
  | .or => .orOr
  | .and => .andAnd
  | .bitOr => .bar
  | .bitXor => .caret
  | .bitAnd => .amp
  | .eq => .eq
  | .ne => .ne
  | .lt => .lt
  | .gt => .gt
  | .le => .le
  | .ge => .ge
  | .shiftLeft => .shiftLeft
  | .shiftRight => .shiftRight
  | .add => .plus
  | .sub => .minus
  | .mul => .star
  | .div => .slash
  | .mod => .percent

def StepOp.kind : StepOp → Kind
  | .increment => .plusPlus
  | .decrement => .minusMinus

theorem UnaryOp.text_kind (op : UnaryOp) : op.kind.text = op.text := by cases op <;> rfl

theorem BinaryOp.text_kind (op : BinaryOp) : op.kind.text = op.text := by cases op <;> rfl

theorem StepOp.text_kind (op : StepOp) : op.kind.text = op.text := by cases op <;> rfl

theorem UnaryOp.kind_mem_symbols (op : UnaryOp) : op.kind ∈ Kind.symbols := by
  cases op <;> decide

theorem BinaryOp.level_kind (op : BinaryOp) : op.kind.level = op.level := by cases op <;> rfl

theorem BinaryOp.kind_mem_symbols (op : BinaryOp) : op.kind ∈ Kind.symbols := by
  cases op <;> decide

theorem StepOp.kind_mem_symbols (op : StepOp) : op.kind ∈ Kind.symbols := by
  cases op <;> decide

/-- The word of a truth value. -/
def boolWord (b : Bool) : String := if b then "true" else "false"

/-- The word of a declaration. -/
def declareWord (isConst : Bool) : String := if isConst then "const" else "let"

/-- Names between commas. -/
def nameTokens : List String → List Token
  | [] => []
  | x :: xs => .word x :: xs.flatMap fun y => [.symbol .comma, .word y]

/-- Parameters between parentheses. -/
def paramTokens (params : List String) : List Token :=
  .symbol .lparen :: (nameTokens params ++ [.symbol .rparen])

mutual

def Expr.tokens : Expr → List Token
  | .ident _ name => [.word name]
  | .int _ written _ => [⟨.int, written, .start⟩]
  | .float _ written _ => [⟨.float, written, .start⟩]
  | .bool _ value => [.word (boolWord value)]
  | .null _ => [.word "null"]
  | .string _ value => [⟨.string, value, .start⟩]
  | .array _ elements => .symbol .lbracket :: (Expr.tokensOfAll elements ++ [.symbol .rbracket])
  | .hash _ pairs => .symbol .lbrace :: (Expr.tokensOfPairs pairs ++ [.symbol .rbrace])
  | .func _ params body => .word "func" :: (paramTokens params ++ body.tokens)
  | .unary _ op operand =>
    .symbol .lparen :: .symbol op.kind :: (operand.tokens ++ [.symbol .rparen])
  | .binary _ op left right =>
    .symbol .lparen ::
      (left.tokens ++ .symbol op.kind :: (right.tokens ++ [.symbol .rparen]))
  | .cond _ condition consequence alternative =>
    .word "if" :: .symbol .lparen ::
      (Expr.tokensOfOption condition ++ .symbol .rparen ::
        (consequence.tokens ++ Block.tokensOfOption alternative))
  | .call _ callee args =>
    callee.tokens ++ .symbol .lparen :: (Expr.tokensOfAll args ++ [.symbol .rparen])
  | .index _ collection key =>
    .symbol .lparen ::
      (collection.tokens ++ .symbol .lbracket ::
        (key.tokens ++ [.symbol .rbracket, .symbol .rparen]))
  | .member _ receiver _ name =>
    .symbol .lparen :: (receiver.tokens ++ [.symbol .dot, .word name, .symbol .rparen])
  | .method _ receiver _ name _ args =>
    .symbol .lparen ::
      (receiver.tokens ++ .symbol .dot :: .word name :: .symbol .lparen ::
        (Expr.tokensOfAll args ++ [.symbol .rparen, .symbol .rparen]))
  | .assign _ name value => .word name :: .symbol .assign :: value.tokens
  | .step _ op name before =>
    if before then [.symbol .lparen, .symbol op.kind, .word name, .symbol .rparen]
    else [.symbol .lparen, .word name, .symbol op.kind, .symbol .rparen]
  | .break _ => [.word "break"]
  | .continue _ => [.word "continue"]

/-- Expressions between commas. -/
def Expr.tokensOfAll : List Expr → List Token
  | [] => []
  | e :: es => e.tokens ++ Expr.tokensBehind es

/-- The expressions behind the first one, with a comma before each. -/
def Expr.tokensBehind : List Expr → List Token
  | [] => []
  | e :: es => .symbol .comma :: (e.tokens ++ Expr.tokensBehind es)

def Expr.tokensOfPairs : List (Expr × Expr) → List Token
  | [] => []
  | (k, v) :: ps => k.tokens ++ .symbol .colon :: (v.tokens ++ Expr.tokensOfPairsBehind ps)

def Expr.tokensOfPairsBehind : List (Expr × Expr) → List Token
  | [] => []
  | (k, v) :: ps =>
    .symbol .comma :: (k.tokens ++ .symbol .colon :: (v.tokens ++ Expr.tokensOfPairsBehind ps))

def Expr.tokensOfOption : Option Expr → List Token
  | none => []
  | some e => e.tokens

/-- The second block of an `if` with its keyword. -/
def Block.tokensOfOption : Option Block → List Token
  | none => []
  | some b => .word "else" :: b.tokens

def Block.tokens : Block → List Token
  | .mk _ statements => .symbol .lbrace :: (Stmt.tokensOfAll statements ++ [.symbol .rbrace])

def Stmt.tokens : Stmt → List Token
  | .expr _ _ value => value.tokens ++ [.symbol .semicolon]
  | .declare _ isConst name value =>
    .word (declareWord isConst) :: .word name :: .symbol .assign ::
      (value.tokens ++ [.symbol .semicolon])
  | .return _ value => .word "return" :: (Expr.tokensOfOption value ++ [.symbol .semicolon])
  | .while _ condition body =>
    .word "while" :: .symbol .lparen ::
      (Expr.tokensOfOption condition ++ .symbol .rparen :: body.tokens)
  | .for _ init condition update body =>
    .word "for" :: .symbol .lparen ::
      (Stmt.tokensOfInit init ++ (Expr.tokensOfOption condition ++ .symbol .semicolon ::
        (Expr.tokensOfOption update ++ .symbol .rparen :: body.tokens)))
  | .func _ name params body => .word "func" :: .word name :: (paramTokens params ++ body.tokens)

def Stmt.tokensOfAll : List Stmt → List Token
  | [] => []
  | s :: ss => s.tokens ++ Stmt.tokensOfAll ss

/-- The first clause of a `for` with its semicolon. -/
def Stmt.tokensOfInit : Option Stmt → List Token
  | none => [.symbol .semicolon]
  | some s => s.tokens

end

attribute [simp] Expr.tokens Stmt.tokens

def Program.tokens (p : Program) : List Token := Stmt.tokensOfAll p.statements ++ [.last]

end Vorn
