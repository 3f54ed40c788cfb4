import Vorn.Grammar.Error

/-!
# Reading tokens

A reader looks at the current token and the one behind it and moves on token by token. Behind the
last token it stays where it is. Errors are collected, and a reader that fails keeps its place and
the errors it has reported.
-/

namespace Vorn

/-- The tokens that are left: the current one and those behind it. -/
structure Stream where
  current : Token
  rest : List Token
deriving Inhabited

namespace Stream

/-- The token behind the current one; at the end the last token stands for all that follow. -/
def peek (s : Stream) : Token := s.rest.headD s.current

def advance (s : Stream) : Stream :=
  match s.rest with
  | [] => s
  | t :: rest => ⟨t, rest⟩

/-- The stream of a source text. -/
def ofTokens : List Token → Stream
  | [] => ⟨⟨.eof, "", .start⟩, []⟩
  | t :: rest => ⟨t, rest⟩

/-- Moves on to a semicolon, but not past a closing brace or the end. -/
def toSemicolon (current : Token) : List Token → Stream
  | [] => ⟨current, []⟩
  | t :: rest =>
    if current.kind = .semicolon ∨ t.kind = .eof ∨ t.kind = .rbrace then ⟨current, t :: rest⟩
    else toSemicolon t rest

end Stream

/-- Why a reader gives no result. -/
inductive Failure where
  /-- The tokens do not fit, and an error says so. -/
  | misfit
  /-- The bound on the work was too small. -/
  | outOfFuel
deriving DecidableEq, Repr

/-- Where a reader stands and what it has reported, latest first. -/
structure ReaderState where
  stream : Stream
  errors : List ParseError := []

/-- A computation that reads tokens. -/
abbrev Reader := EStateM Failure ReaderState

namespace Reader

def current : Reader Token := return (← get).stream.current

def peek : Reader Token := return (← get).stream.peek

def currentIs (k : Kind) : Reader Bool := return (← current).kind = k

def peekIs (k : Kind) : Reader Bool := return (← peek).kind = k

def advance : Reader Unit := modify fun s => { s with stream := s.stream.advance }

def report (errors : List ParseError) : Reader Unit :=
  modify fun s => { s with errors := errors.reverse ++ s.errors }

/-- Reports a token that does not fit and gives up. -/
def fail {α : Type} (pos : Pos) (m : Misfit) : Reader α := do
  report [.grammar pos m]
  throw .misfit

/-- Moves on if the next token has the kind `k`. -/
def expectPeek (k : Kind) : Reader Unit := do
  let t ← peek
  if t.kind = k then advance else fail t.pos (.expected k t.kind)

/-- Moves on if the next token has the kind `k`, and says whether it did. -/
def skipPeek (k : Kind) : Reader Bool := do
  if ← peekIs k then
    advance
    return true
  return false

def skipToSemicolon : Reader Unit :=
  modify fun s => { s with stream := .toSemicolon s.stream.current s.stream.rest }

/-- A reader whose misfit counts as a missing result. -/
def attempt {α : Type} (r : Reader α) : Reader (Option α) := fun s =>
  match r s with
  | .ok a s => .ok (some a) s
  | .error .misfit s => .ok none s
  | .error .outOfFuel s => .error .outOfFuel s

/-- The result of an earlier `attempt`, or its failure. -/
def require {α : Type} : Option α → Reader α
  | some a => return a
  | none => throw .misfit

end Reader

end Vorn
