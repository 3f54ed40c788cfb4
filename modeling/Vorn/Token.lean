import Vorn.Operator
import Vorn.Position

/-!
# Tokens

A token is a kind, the literal that the kind leaves open (the name, the digits, the text between
quotes) and the place of its first character. A kind is shown as its symbol, or in capitals.
-/

namespace Vorn

/-- The kinds of tokens. -/
inductive Kind where
  | illegal | eof
  | ident | int | float | string
  -- operators
  | assign | plus | minus | bang | star | slash | percent
  | lt | gt | le | ge | eq | ne
  | andAnd | orOr
  | amp | bar | caret | tilde | shiftLeft | shiftRight
  | plusPlus | minusMinus
  | plusAssign | minusAssign | starAssign | slashAssign | percentAssign
  | ampAssign | barAssign | caretAssign | shiftLeftAssign | shiftRightAssign
  -- delimiters
  | comma | semicolon | colon | dot
  | lparen | rparen | lbrace | rbrace | lbracket | rbracket
  -- keywords
  | kwFunc | kwConst | kwLet | kwTrue | kwFalse | kwNull | kwIf | kwElse | kwReturn
  | kwWhile | kwFor | kwBreak | kwContinue
deriving DecidableEq, Repr, Inhabited

namespace Kind

/-- How a kind is shown: a symbol as it is written, every other kind in capitals. -/
def text : Kind → String
  | illegal => "ILLEGAL"
  | eof => "EOF"
  | ident => "IDENT"
  | int => "INT"
  | float => "FLOAT"
  | string => "STRING"
  | assign => "="
  | plus => "+"
  | minus => "-"
  | bang => "!"
  | star => "*"
  | slash => "/"
  | percent => "%"
  | lt => "<"
  | gt => ">"
  | le => "<="
  | ge => ">="
  | eq => "=="
  | ne => "!="
  | andAnd => "&&"
  | orOr => "||"
  | amp => "&"
  | bar => "|"
  | caret => "^"
  | tilde => "~"
  | shiftLeft => "<<"
  | shiftRight => ">>"
  | plusPlus => "++"
  | minusMinus => "--"
  | plusAssign => "+="
  | minusAssign => "-="
  | starAssign => "*="
  | slashAssign => "/="
  | percentAssign => "%="
  | ampAssign => "&="
  | barAssign => "|="
  | caretAssign => "^="
  | shiftLeftAssign => "<<="
  | shiftRightAssign => ">>="
  | comma => ","
  | semicolon => ";"
  | colon => ":"
  | dot => "."
  | lparen => "("
  | rparen => ")"
  | lbrace => "\x7b"
  | rbrace => "\x7d"
  | lbracket => "["
  | rbracket => "]"
  | kwFunc => "FUNCTION"
  | kwConst => "CONST"
  | kwLet => "LET"
  | kwTrue => "TRUE"
  | kwFalse => "FALSE"
  | kwNull => "NULL"
  | kwIf => "IF"
  | kwElse => "ELSE"
  | kwReturn => "RETURN"
  | kwWhile => "WHILE"
  | kwFor => "FOR"
  | kwBreak => "BREAK"
  | kwContinue => "CONTINUE"

/-- The kinds that are written as symbols, longest first: the first that fits is the longest. -/
def symbols : List Kind :=
  [shiftLeftAssign, shiftRightAssign,
   plusPlus, minusMinus, plusAssign, minusAssign, starAssign, slashAssign, percentAssign,
   ampAssign, barAssign, caretAssign, eq, ne, le, ge, shiftLeft, shiftRight, andAnd, orOr,
   assign, plus, minus, bang, star, slash, percent, lt, gt, amp, bar, caret, tilde,
   comma, semicolon, colon, dot, lparen, rparen, lbrace, rbrace, lbracket, rbracket]

/-- The reserved words. -/
def keywords : List (String × Kind) :=
  [("func", kwFunc), ("const", kwConst), ("let", kwLet), ("true", kwTrue), ("false", kwFalse),
   ("null", kwNull), ("if", kwIf), ("else", kwElse), ("return", kwReturn), ("while", kwWhile),
   ("for", kwFor), ("break", kwBreak), ("continue", kwContinue)]

/-- A word is a reserved word or else a name. -/
def ofWord (word : String) : Kind := (keywords.lookup word).getD ident

/-- The operator that a kind stands for between two operands. -/
def binary? : Kind → Option BinaryOp
  | orOr => some .or
  | andAnd => some .and
  | bar => some .bitOr
  | caret => some .bitXor
  | amp => some .bitAnd
  | eq => some .eq
  | ne => some .ne
  | lt => some .lt
  | gt => some .gt
  | le => some .le
  | ge => some .ge
  | shiftLeft => some .shiftLeft
  | shiftRight => some .shiftRight
  | plus => some .add
  | minus => some .sub
  | star => some .mul
  | slash => some .div
  | percent => some .mod
  | _ => none

/-- The operator that an assignment applies before it stores: none for `=`, `+` for `+=`. -/
def assignment? : Kind → Option (Option BinaryOp)
  | assign => some none
  | plusAssign => some (some .add)
  | minusAssign => some (some .sub)
  | starAssign => some (some .mul)
  | slashAssign => some (some .div)
  | percentAssign => some (some .mod)
  | ampAssign => some (some .bitAnd)
  | barAssign => some (some .bitOr)
  | caretAssign => some (some .bitXor)
  | shiftLeftAssign => some (some .shiftLeft)
  | shiftRightAssign => some (some .shiftRight)
  | _ => none

/-- How tightly a kind binds to the operand before it; `Level.lowest` if it does not continue an
expression. -/
def level : Kind → Nat
  | lparen | plusPlus | minusMinus => Level.call
  | lbracket => Level.index
  | dot => Level.chain
  | k => (k.binary?.map BinaryOp.level).getD Level.lowest

end Kind

/-- A token of the source text. -/
structure Token where
  kind : Kind
  literal : String
  pos : Pos
deriving DecidableEq, Repr, Inhabited

end Vorn
