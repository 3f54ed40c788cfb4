import Vorn.Proofs.Grammar.Call
import Vorn.Proofs.Grammar.Regions

/-!
# The grammar with linked scopes

Here the scopes are objects that live beside the token stream. Each one has a link to the scope
around it, the statements that are finished in it are added to it one by one, and a pointer says
which scope is the current one. A function learns nothing about the names around it from its caller:
a block, a `for` and an `else if` create a scope that links to the current one, make it current, and
go back when they are done, with a result or without (`within`).

The functions are those of `Parse` in every other respect.
-/

namespace Vorn.Linked

open Reader

/-- A scope and the one around it. A scope is named by the number of those created before it. -/
structure Scope extends Region where
  outer : Option Nat

/-- Where a reader stands, the scopes created so far, latest first, and the current one. -/
structure State extends ReaderState where
  scopes : List Scope
  scope : Option Nat

/-- A computation that reads tokens and keeps scopes. -/
abbrev Reader := EStateM Failure State

variable {α : Type}

/-- The regions that a name is looked up in from the scope `p` outward. -/
def outward : List Scope → Option Nat → Regions
  | _, none => []
  | [], some _ => []
  | o :: older, some p =>
    if older.length = p then o.toRegion :: outward older o.outer else outward older (some p)

/-- The scopes after a statement of the scope `p` is finished. -/
def record (p : Nat) (s : Stmt) : List Scope → List Scope
  | [] => []
  | o :: older =>
    if older.length = p then { o with toRegion := o.toRegion.finish s } :: older
    else o :: record p s older

/-- A reader that neither creates nor asks for scopes. -/
def lift (r : Vorn.Reader α) : Reader α := fun s =>
  match r s.toReaderState with
  | .ok a t => .ok a { s with toReaderState := t }
  | .error e t => .error e { s with toReaderState := t }

instance : MonadLift Vorn.Reader Reader := ⟨lift⟩

def attempt (r : Reader α) : Reader (Option α) := fun s =>
  match r s with
  | .ok a t => .ok (some a) t
  | .error .misfit t => .ok none t
  | .error .outOfFuel t => .error .outOfFuel t

/-- Reports what is wrong with names in the regions around the scope `p`. -/
def check (p : Nat) (errors : Regions → List ParseError) : Reader Unit := do
  report (errors (outward (← get).scopes (some p)))

/-- Adds a finished statement to the scope `p`. -/
def finish (p : Nat) (s : Stmt) : Reader Unit :=
  modify fun t => { t with scopes := record p s t.scopes }

/-- What a statement does wrong in the nearest of the regions inside the others. -/
def statementErrors (s : Stmt) : Regions → List ParseError
  | [] => []
  | own :: outer => Regions.check own outer s

/-- Adds a statement to the scope `p` after the checks. -/
def append (p : Nat) (s : Stmt) : Reader Unit := do
  check p (statementErrors s)
  finish p s

/-- Runs `body` with a new scope inside the current one. However it ends, the scope that was current
is the current one again. -/
def within (params : List String) (body : Nat → Reader α) : Reader α := fun s =>
  let p := s.scopes.length
  match body p { s with scopes := ⟨{ params }, s.scope⟩ :: s.scopes, scope := some p } with
  | .ok a t => .ok a { t with scope := s.scope }
  | .error e t => .error e { t with scope := s.scope }

mutual

def expression : Nat → Nat → Reader Expr
  | 0, _ => throw .outOfFuel
  | n + 1, level => do extend n level (← operand n)
termination_by structural n _ => n

def extend : Nat → Nat → Expr → Reader Expr
  | 0, _, _ => throw .outOfFuel
  | n + 1, level, left => do
    if level < (← peek).kind.level then
      advance
      extend n level (← continuation n left)
    else return left
termination_by structural n _ _ => n

def continuation : Nat → Expr → Reader Expr
  | 0, _ => throw .outOfFuel
  | n + 1, left => do
    let t ← current
    match t.kind with
    | .lparen => return .call t.pos left (← items n .rparen)
    | .lbracket =>
      advance
      let key ← expression n Level.lowest
      expectPeek .rbracket
      return .index t.pos left key
    | .dot =>
      expectPeek .ident
      let name ← current
      if ← skipPeek .lparen then
        let paren ← current
        return .method t.pos left name.pos name.literal paren.pos (← items n .rparen)
      else return .member t.pos left name.pos name.literal
    | .plusPlus => Parse.stepBehind t .increment left
    | .minusMinus => Parse.stepBehind t .decrement left
    | k =>
      match k.binary? with
      | some op =>
        advance
        return .binary t.pos op left (← expression n op.level)
      | none => fail t.pos (.unexpected (Parse.shown t))
termination_by structural n _ => n

def operand : Nat → Reader Expr
  | 0 => throw .outOfFuel
  | n + 1 => do
    let t ← current
    match t.kind with
    | .ident => nameOrAssign n t
    | .int => Parse.integer t
    | .float => return Parse.float t
    | .string => return .string t.pos t.literal
    | .kwTrue => return .bool t.pos true
    | .kwFalse => return .bool t.pos false
    | .kwNull => return .null t.pos
    | .kwBreak => return .break t.pos
    | .kwContinue => return .continue t.pos
    | .bang => return .unary t.pos .not (← unaryOperand n)
    | .minus => return .unary t.pos .negate (← unaryOperand n)
    | .tilde => return .unary t.pos .complement (← unaryOperand n)
    | .plusPlus => Parse.stepBefore t .increment
    | .minusMinus => Parse.stepBefore t .decrement
    | .lparen =>
      advance
      let e ← attempt (expression n Level.lowest)
      expectPeek .rparen
      require e
    | .kwIf => conditional n
    | .kwFunc =>
      expectPeek .lparen
      let ps ← Parse.params n
      expectPeek .lbrace
      return .func t.pos ps (← block n ps)
    | .lbracket => return .array t.pos (← items n .rbracket)
    | .lbrace => return .hash t.pos (← pairs n)
    | _ => fail t.pos (.unexpected (Parse.shown t))
termination_by structural n => n

def unaryOperand : Nat → Reader Expr
  | 0 => throw .outOfFuel
  | n + 1 => do
    advance
    expression n Level.unary
termination_by structural n => n

def nameOrAssign : Nat → Token → Reader Expr
  | 0, _ => throw .outOfFuel
  | n + 1, name => do
    let op ← peek
    match op.kind.assignment? with
    | none => return .ident name.pos name.literal
    | some apply =>
      advance
      advance
      let value ← expression n Level.lowest
      return .assign op.pos name.literal (Parse.assigned name op apply value)
termination_by structural n _ => n

def items : Nat → Kind → Reader (List Expr)
  | 0, _ => throw .outOfFuel
  | n + 1, close => do
    if ← skipPeek close then return []
    advance
    let e ← expression n Level.lowest
    return e :: (← moreItems n close)
termination_by structural n _ => n

def moreItems : Nat → Kind → Reader (List Expr)
  | 0, _ => throw .outOfFuel
  | n + 1, close => do
    if ← skipPeek .comma then
      advance
      let e ← expression n Level.lowest
      return e :: (← moreItems n close)
    else
      expectPeek close
      return []
termination_by structural n _ => n

def pairs : Nat → Reader (List (Expr × Expr))
  | 0 => throw .outOfFuel
  | n + 1 => do
    if ← skipPeek .rbrace then return []
    advance
    let key ← expression n Level.lowest
    expectPeek .colon
    advance
    let value ← expression n Level.lowest
    unless ← peekIs .rbrace do expectPeek .comma
    return (key, value) :: (← pairs n)
termination_by structural n => n

def conditional : Nat → Reader Expr
  | 0 => throw .outOfFuel
  | n + 1 => do
    let t ← current
    expectPeek .lparen
    advance
    let condition ← attempt (expression n Level.lowest)
    expectPeek .rparen
    expectPeek .lbrace
    let consequence ← block n []
    if ← skipPeek .kwElse then
      return .cond t.pos condition consequence (some (← alternative n))
    else return .cond t.pos condition consequence none
termination_by structural n => n

/-- The only statement of an `else if` is added to its scope without checks. -/
def alternative : Nat → Reader Block
  | 0 => throw .outOfFuel
  | n + 1 => do
    if ← skipPeek .kwIf then
      within [] fun p => do
        let t ← current
        let nested ← conditional n
        finish p (.expr t.pos t.literal nested)
        return .mk t.pos [.expr t.pos t.literal nested]
    else
      expectPeek .lbrace
      block n []
termination_by structural n => n

def block : Nat → List String → Reader Block
  | 0, _ => throw .outOfFuel
  | n + 1, ps =>
    within ps fun p => do
      let t ← current
      advance
      let statements ← blockStatements n p
      if ← currentIs .eof then
        report [.grammar (← current).pos (.expected .rbrace .eof)]
      return .mk t.pos statements
termination_by structural n _ => n

/-- The statements of the scope `p`, up to the closing brace or the end. -/
def blockStatements : Nat → Nat → Reader (List Stmt)
  | 0, _ => throw .outOfFuel
  | n + 1, p => do
    let t ← current
    if t.kind = .rbrace ∨ t.kind = .eof then return []
    let s ← attempt (statement n)
    match s with
    | some (some s) =>
      append p s
      advance
      return s :: (← blockStatements n p)
    | _ =>
      advance
      blockStatements n p
termination_by structural n _ => n

def statement : Nat → Reader (Option Stmt)
  | 0 => throw .outOfFuel
  | n + 1 => do
    let t ← current
    match t.kind with
    | .kwLet => return some (← declaration n false)
    | .kwConst => return some (← declaration n true)
    | .kwReturn => return some (← returnStatement n)
    | .kwWhile => return some (← whileStatement n)
    | .kwFor => return some (← forStatement n)
    | .semicolon => return none
    | .kwFunc =>
      if ← peekIs .ident then return some (← functionStatement n)
      else return some (← expressionStatement n)
    | _ => return some (← expressionStatement n)
termination_by structural n => n

def declaration : Nat → Bool → Reader Stmt
  | 0, _ => throw .outOfFuel
  | n + 1, isConst => do
    let t ← current
    expectPeek .ident
    let name ← current
    expectPeek .assign
    advance
    let value ← attempt (expression n Level.lowest)
    skipToSemicolon
    return .declare t.pos isConst name.literal (← require value)
termination_by structural n _ => n

def returnStatement : Nat → Reader Stmt
  | 0 => throw .outOfFuel
  | n + 1 => do
    let t ← current
    if ← skipPeek .semicolon then return .return t.pos none
    let next ← peek
    if next.kind = .rbrace ∨ next.kind = .eof then return .return t.pos none
    advance
    let value ← attempt (expression n Level.lowest)
    skipToSemicolon
    return .return t.pos value
termination_by structural n => n

def expressionStatement : Nat → Reader Stmt
  | 0 => throw .outOfFuel
  | n + 1 => do
    let t ← current
    let value ← attempt (expression n Level.lowest)
    let _ ← skipPeek .semicolon
    return .expr t.pos t.literal (← require value)
termination_by structural n => n

def functionStatement : Nat → Reader Stmt
  | 0 => throw .outOfFuel
  | n + 1 => do
    let t ← current
    advance
    let name ← current
    expectPeek .lparen
    let ps ← Parse.params n
    expectPeek .lbrace
    return .func t.pos name.literal ps (← block n ps)
termination_by structural n => n

def whileStatement : Nat → Reader Stmt
  | 0 => throw .outOfFuel
  | n + 1 => do
    let t ← current
    expectPeek .lparen
    advance
    let condition ← attempt (expression n Level.lowest)
    expectPeek .rparen
    expectPeek .lbrace
    return .while t.pos condition (← block n [])
termination_by structural n => n

/-- The loop is a scope from its first token on; the first clause is its only statement. -/
def forStatement : Nat → Reader Stmt
  | 0 => throw .outOfFuel
  | n + 1 =>
    within [] fun p => do
      let t ← current
      expectPeek .lparen
      advance
      let init ← forInit n p
      advance
      let condition ← forCondition n
      advance
      let update ← forUpdate n p
      expectPeek .lbrace
      return .for t.pos init condition update (← block n [])
termination_by structural n => n

def forInit : Nat → Nat → Reader (Option Stmt)
  | 0, _ => throw .outOfFuel
  | n + 1, p => do
    let t ← current
    if t.kind = .semicolon then return none
    let init ←
      if t.kind = .kwLet ∨ t.kind = .kwConst then declaration n (t.kind = .kwConst)
      else expressionStatement n
    check p fun rs => rs.checkTarget init.target?
    finish p init
    unless ← currentIs .semicolon do expectPeek .semicolon
    return some init
termination_by structural n _ => n

def forCondition : Nat → Reader (Option Expr)
  | 0 => throw .outOfFuel
  | n + 1 => do
    if ← currentIs .semicolon then return none
    let condition ← attempt (expression n Level.lowest)
    expectPeek .semicolon
    return condition
termination_by structural n => n

def forUpdate : Nat → Nat → Reader (Option Expr)
  | 0, _ => throw .outOfFuel
  | n + 1, p => do
    if ← currentIs .rparen then return none
    let update ← attempt (expression n Level.lowest)
    check p fun rs => rs.checkTarget (update.bind Expr.target?)
    expectPeek .rparen
    return update
termination_by structural n _ => n

end

/-- The statements of a whole text, whose scope is `p`. -/
def programStatements : Nat → Nat → Reader (List Stmt)
  | 0, _ => throw .outOfFuel
  | n + 1, p => do
    if ← currentIs .eof then return []
    let s ← attempt (statement n)
    match s with
    | some (some s) =>
      append p s
      advance
      return s :: (← programStatements n p)
    | _ =>
      advance
      programStatements n p

/-- At the start the scope of the program is created; it is the current one from there on. -/
def State.ofTokens (ts : List Token) : State where
  stream := .ofTokens ts
  scopes := [⟨{}, none⟩]
  scope := some 0

/-- Reads a program with a given bound on the work. -/
def run (n : Nat) (ts : List Token) : Option (Program × List ParseError) :=
  match programStatements n 0 (.ofTokens ts) with
  | .ok statements s => some (⟨statements⟩, s.errors.reverse)
  | .error _ _ => none

/-- A function of the grammar with fuel `n`. -/
def call (n : Nat) : Parse.Call α → Reader α
  | .moreParams => Parse.moreParams n
  | .params => Parse.params n
  | .expression level => expression n level
  | .extend level left => extend n level left
  | .continuation left => continuation n left
  | .operand => operand n
  | .unaryOperand => unaryOperand n
  | .nameOrAssign name => nameOrAssign n name
  | .items close => items n close
  | .moreItems close => moreItems n close
  | .pairs => pairs n
  | .conditional => conditional n
  | .alternative => alternative n
  | .block params => block n params
  | .statement => statement n
  | .declaration isConst => declaration n isConst
  | .returnStatement => returnStatement n
  | .expressionStatement => expressionStatement n
  | .functionStatement => functionStatement n
  | .whileStatement => whileStatement n
  | .forStatement => forStatement n

end Vorn.Linked
