import Vorn.Grammar.Reader
import Vorn.Grammar.Scope
import Vorn.Number.Decimal
import Vorn.Number.Numeral
import Vorn.Token.Scan

/-!
# From tokens to trees

Each function below starts with the first token of its form as the current token and ends with the
last one. An expression is an operand that operators extend as long as they bind tighter than the
level asked for. The parameter `fs` holds the frames around the form.

The functions call each other with one unit of fuel less. Every call reads a token or stops soon,
so `fuel` gives enough for any token list.
-/

namespace Vorn.Parse

open Reader

/-- The text that stands for a token nothing can start with. -/
def shown (t : Token) : String :=
  if t.kind = .illegal ∧ t.literal ≠ "" then t.literal else t.kind.text

/-- The names behind the first parameter, through the closing parenthesis. -/
def moreParams : Nat → Reader (List String)
  | 0 => throw .outOfFuel
  | n + 1 => do
    if ← skipPeek .comma then
      expectPeek .ident
      let t ← current
      return t.literal :: (← moreParams n)
    else
      expectPeek .rparen
      return []

/-- The parameters of a function, through the closing parenthesis. -/
def params (n : Nat) : Reader (List String) := do
  if ← skipPeek .rparen then return []
  expectPeek .ident
  let t ← current
  return t.literal :: (← moreParams n)

/-- An integer of 64 bits. -/
def integer (t : Token) : Reader Expr :=
  match Numeral.read? t.literal with
  | some n => return .int t.pos t.literal n
  | none => fail t.pos (.notInteger t.literal)

/-- A float; every token of that kind is one. -/
def float (t : Token) : Expr :=
  .float t.pos t.literal ((Decimal.read? t.literal).getD 0)

/-- A step operator before its variable. -/
def stepBefore (t : Token) (op : StepOp) : Reader Expr := do
  advance
  let target ← current
  if target.kind = .ident then return .step t.pos op target.literal true
  else fail target.pos (.notName op)

/-- A step operator behind its variable. -/
def stepBehind (t : Token) (op : StepOp) (left : Expr) : Reader Expr :=
  match left with
  | .ident _ name => return .step t.pos op name false
  | _ => fail t.pos (.notName op)

/-- The value that `name op= value` stores. -/
def assigned (name op : Token) (apply : Option BinaryOp) (value : Expr) : Expr :=
  match apply with
  | none => value
  | some b => .binary op.pos b (.ident name.pos name.literal) value

mutual

/-- An expression whose operators bind tighter than `level`. -/
def expression : Nat → Frames → Nat → Reader Expr
  | 0, _, _ => throw .outOfFuel
  | n + 1, fs, level => do extend n fs level (← operand n fs)

/-- Extends an expression by the operators behind it. -/
def extend : Nat → Frames → Nat → Expr → Reader Expr
  | 0, _, _, _ => throw .outOfFuel
  | n + 1, fs, level, left => do
    if level < (← peek).kind.level then
      advance
      extend n fs level (← continuation n fs left)
    else return left

/-- What the operator at the current token makes of the expression before it. -/
def continuation : Nat → Frames → Expr → Reader Expr
  | 0, _, _ => throw .outOfFuel
  | n + 1, fs, left => do
    let t ← current
    match t.kind with
    | .lparen => return .call t.pos left (← items n fs .rparen)
    | .lbracket =>
      advance
      let key ← expression n fs Level.lowest
      expectPeek .rbracket
      return .index t.pos left key
    | .dot =>
      expectPeek .ident
      let name ← current
      if ← skipPeek .lparen then
        let paren ← current
        return .method t.pos left name.pos name.literal paren.pos (← items n fs .rparen)
      else return .member t.pos left name.pos name.literal
    | .plusPlus => stepBehind t .increment left
    | .minusMinus => stepBehind t .decrement left
    | k =>
      match k.binary? with
      | some op =>
        advance
        return .binary t.pos op left (← expression n fs op.level)
      | none => fail t.pos (.unexpected (shown t))

/-- An expression without the operators behind it. -/
def operand : Nat → Frames → Reader Expr
  | 0, _ => throw .outOfFuel
  | n + 1, fs => do
    let t ← current
    match t.kind with
    | .ident => nameOrAssign n fs t
    | .int => integer t
    | .float => return float t
    | .string => return .string t.pos t.literal
    | .kwTrue => return .bool t.pos true
    | .kwFalse => return .bool t.pos false
    | .kwNull => return .null t.pos
    | .kwBreak => return .break t.pos
    | .kwContinue => return .continue t.pos
    | .bang => return .unary t.pos .not (← unaryOperand n fs)
    | .minus => return .unary t.pos .negate (← unaryOperand n fs)
    | .tilde => return .unary t.pos .complement (← unaryOperand n fs)
    | .plusPlus => stepBefore t .increment
    | .minusMinus => stepBefore t .decrement
    | .lparen =>
      advance
      let e ← attempt (expression n fs Level.lowest)
      expectPeek .rparen
      require e
    | .kwIf => conditional n fs
    | .kwFunc =>
      expectPeek .lparen
      let ps ← params n
      expectPeek .lbrace
      return .func t.pos ps (← block n fs ps)
    | .lbracket => return .array t.pos (← items n fs .rbracket)
    | .lbrace => return .hash t.pos (← pairs n fs)
    | _ => fail t.pos (.unexpected (shown t))

/-- The operand of a unary operator at the current token. -/
def unaryOperand : Nat → Frames → Reader Expr
  | 0, _ => throw .outOfFuel
  | n + 1, fs => do
    advance
    expression n fs Level.unary

/-- A name, or an assignment if an assignment operator follows. `x op= v` stands for
`x = x op v`. -/
def nameOrAssign : Nat → Frames → Token → Reader Expr
  | 0, _, _ => throw .outOfFuel
  | n + 1, fs, name => do
    let op ← peek
    match op.kind.assignment? with
    | none => return .ident name.pos name.literal
    | some apply =>
      advance
      advance
      let value ← expression n fs Level.lowest
      return .assign op.pos name.literal (assigned name op apply value)

/-- Expressions between commas, through the closing token. -/
def items : Nat → Frames → Kind → Reader (List Expr)
  | 0, _, _ => throw .outOfFuel
  | n + 1, fs, close => do
    if ← skipPeek close then return []
    advance
    let e ← expression n fs Level.lowest
    return e :: (← moreItems n fs close)

/-- The items behind the first. -/
def moreItems : Nat → Frames → Kind → Reader (List Expr)
  | 0, _, _ => throw .outOfFuel
  | n + 1, fs, close => do
    if ← skipPeek .comma then
      advance
      let e ← expression n fs Level.lowest
      return e :: (← moreItems n fs close)
    else
      expectPeek close
      return []

/-- The pairs of a hash, through the closing brace. A comma may stand behind the last. -/
def pairs : Nat → Frames → Reader (List (Expr × Expr))
  | 0, _ => throw .outOfFuel
  | n + 1, fs => do
    if ← skipPeek .rbrace then return []
    advance
    let key ← expression n fs Level.lowest
    expectPeek .colon
    advance
    let value ← expression n fs Level.lowest
    unless ← peekIs .rbrace do expectPeek .comma
    return (key, value) :: (← pairs n fs)

/-- An `if` with its blocks. -/
def conditional : Nat → Frames → Reader Expr
  | 0, _ => throw .outOfFuel
  | n + 1, fs => do
    let t ← current
    expectPeek .lparen
    advance
    let condition ← attempt (expression n fs Level.lowest)
    expectPeek .rparen
    expectPeek .lbrace
    let consequence ← block n fs []
    if ← skipPeek .kwElse then
      return .cond t.pos condition consequence (some (← alternative n fs))
    else return .cond t.pos condition consequence none

/-- The block behind an `else`. An `if` that follows directly is the only statement of its
block. -/
def alternative : Nat → Frames → Reader Block
  | 0, _ => throw .outOfFuel
  | n + 1, fs => do
    if ← skipPeek .kwIf then
      let t ← current
      let nested ← conditional n ({} :: fs)
      return .mk t.pos [.expr t.pos t.literal nested]
    else
      expectPeek .lbrace
      block n fs []

/-- A block that starts at the current brace; `ps` are the parameters if it is a function body. -/
def block : Nat → Frames → List String → Reader Block
  | 0, _, _ => throw .outOfFuel
  | n + 1, fs, ps => do
    let t ← current
    advance
    let statements ← blockStatements n fs { params := ps }
    if ← currentIs .eof then
      report [.grammar (← current).pos (.expected .rbrace .eof)]
    return .mk t.pos statements

/-- The statements of a block with the frame `own` so far, up to the closing brace or the end. -/
def blockStatements : Nat → Frames → Frame → Reader (List Stmt)
  | 0, _, _ => throw .outOfFuel
  | n + 1, fs, own => do
    let t ← current
    if t.kind = .rbrace ∨ t.kind = .eof then return []
    let s ← attempt (statement n (own :: fs))
    match s with
    | some (some s) =>
      report (Frames.check own fs s)
      advance
      return s :: (← blockStatements n fs (own.add s))
    | _ =>
      advance
      blockStatements n fs own

/-- A statement; a lone semicolon is none. -/
def statement : Nat → Frames → Reader (Option Stmt)
  | 0, _ => throw .outOfFuel
  | n + 1, fs => do
    let t ← current
    match t.kind with
    | .kwLet => return some (← declaration n fs false)
    | .kwConst => return some (← declaration n fs true)
    | .kwReturn => return some (← returnStatement n fs)
    | .kwWhile => return some (← whileStatement n fs)
    | .kwFor => return some (← forStatement n fs)
    | .semicolon => return none
    | .kwFunc =>
      if ← peekIs .ident then return some (← functionStatement n fs)
      else return some (← expressionStatement n fs)
    | _ => return some (← expressionStatement n fs)

/-- A `let` or `const`, through its semicolon. -/
def declaration : Nat → Frames → Bool → Reader Stmt
  | 0, _, _ => throw .outOfFuel
  | n + 1, fs, isConst => do
    let t ← current
    expectPeek .ident
    let name ← current
    expectPeek .assign
    advance
    let value ← attempt (expression n fs Level.lowest)
    skipToSemicolon
    return .declare t.pos isConst name.literal (← require value)

def returnStatement : Nat → Frames → Reader Stmt
  | 0, _ => throw .outOfFuel
  | n + 1, fs => do
    let t ← current
    if ← skipPeek .semicolon then return .return t.pos none
    let next ← peek
    if next.kind = .rbrace ∨ next.kind = .eof then return .return t.pos none
    advance
    let value ← attempt (expression n fs Level.lowest)
    skipToSemicolon
    return .return t.pos value

/-- An expression and a semicolon, if there is one. -/
def expressionStatement : Nat → Frames → Reader Stmt
  | 0, _ => throw .outOfFuel
  | n + 1, fs => do
    let t ← current
    let value ← attempt (expression n fs Level.lowest)
    let _ ← skipPeek .semicolon
    return .expr t.pos t.literal (← require value)

def functionStatement : Nat → Frames → Reader Stmt
  | 0, _ => throw .outOfFuel
  | n + 1, fs => do
    let t ← current
    advance
    let name ← current
    expectPeek .lparen
    let ps ← params n
    expectPeek .lbrace
    return .func t.pos name.literal ps (← block n fs ps)

def whileStatement : Nat → Frames → Reader Stmt
  | 0, _ => throw .outOfFuel
  | n + 1, fs => do
    let t ← current
    expectPeek .lparen
    advance
    let condition ← attempt (expression n fs Level.lowest)
    expectPeek .rparen
    expectPeek .lbrace
    return .while t.pos condition (← block n fs [])

/-- A `for` with three clauses, each of which may be empty. The loop has a frame of its own, which
holds the name that the first clause declares. -/
def forStatement : Nat → Frames → Reader Stmt
  | 0, _ => throw .outOfFuel
  | n + 1, fs => do
    let t ← current
    expectPeek .lparen
    advance
    let init ← forInit n fs
    let own : Frame := (init.map (Frame.add {})).getD {}
    let inner := own :: fs
    advance
    let condition ← forCondition n inner
    advance
    let update ← forUpdate n inner
    expectPeek .lbrace
    return .for t.pos init condition update (← block n inner [])

/-- The first clause of a `for`, through its semicolon. -/
def forInit : Nat → Frames → Reader (Option Stmt)
  | 0, _ => throw .outOfFuel
  | n + 1, fs => do
    let t ← current
    let inner : Frames := {} :: fs
    if t.kind = .semicolon then return none
    let init ←
      if t.kind = .kwLet ∨ t.kind = .kwConst then declaration n inner (t.kind = .kwConst)
      else expressionStatement n inner
    report (Frames.checkTarget inner init.target?)
    unless ← currentIs .semicolon do expectPeek .semicolon
    return some init

/-- The second clause of a `for`, through its semicolon. -/
def forCondition : Nat → Frames → Reader (Option Expr)
  | 0, _ => throw .outOfFuel
  | n + 1, inner => do
    if ← currentIs .semicolon then return none
    let condition ← attempt (expression n inner Level.lowest)
    expectPeek .semicolon
    return condition

/-- The third clause of a `for`, through the closing parenthesis. -/
def forUpdate : Nat → Frames → Reader (Option Expr)
  | 0, _ => throw .outOfFuel
  | n + 1, inner => do
    if ← currentIs .rparen then return none
    let update ← attempt (expression n inner Level.lowest)
    report (Frames.checkTarget inner (update.bind Expr.target?))
    expectPeek .rparen
    return update

end

/-- The statements of a whole text with the frame `own` so far. -/
def programStatements : Nat → Frame → Reader (List Stmt)
  | 0, _ => throw .outOfFuel
  | n + 1, own => do
    if ← currentIs .eof then return []
    let s ← attempt (statement n [own])
    match s with
    | some (some s) =>
      report (Frames.check own [] s)
      advance
      return s :: (← programStatements n (own.add s))
    | _ =>
      advance
      programStatements n own

/-- Enough fuel for a list of tokens. -/
def fuel (ts : List Token) : Nat := 16 * (ts.length + 1)

/-- Reads a program with a given bound on the work. -/
def run (n : Nat) (ts : List Token) : Option (Program × List ParseError) :=
  match programStatements n {} { stream := .ofTokens ts } with
  | .ok statements s => some (⟨statements⟩, s.errors.reverse)
  | .error _ _ => none

end Parse

/-- The tree of a source text, and all that is wrong with the text. If nothing is, the program is
accepted; otherwise the tree holds the statements that could be read. -/
def parse (source : String) : Program × List ParseError :=
  let ts := tokens source
  (Parse.run (Parse.fuel ts) ts).getD (⟨[]⟩, [])

/-- The tree of an accepted source text, or what is wrong with the text. -/
def parse? (source : String) : Except (List ParseError) Program :=
  match parse source with
  | (program, []) => .ok program
  | (_, errors) => .error errors

end Vorn
