import Vorn.Fault
import Vorn.Number.Binary
import Vorn.Number.Word

/-!
# Operators on values

What an operator makes of the values of its operands. Integers wrap around at 64 bits, integer
division gives a float, and an operation with a float in it is done in floats. `&&` and `||` are
not here, since they may leave their second operand alone.
-/

namespace Vorn

namespace Operator

/-- The result of an operator, or the fault at its place. -/
abbrev Result := Except Fault Value

def fault (pos : Pos) (cause : Cause) : Result := .error ⟨pos, cause⟩

/-! ## Unary operators -/

/-- A unary operator at `pos`. What cannot be negated is reported at its own place. -/
def unary (pos : Pos) (op : UnaryOp) (v : Value) : Result :=
  match op, v with
  | .not, v => .ok (.bool (!v.isTruthy))
  | .negate, .int n _ => .ok (.int (Word.wrap (-n)) pos)
  | .negate, .float x _ => .ok (.float (-x) pos)
  | .negate, v => fault v.pos (.unknownUnary .negate v.ty)
  | .complement, .int n _ => .ok (.int (Word.complement n) pos)
  | .complement, v => fault pos (.unknownUnary .complement v.ty)

/-! ## Binary operators -/

/-- A binary operator on integers. -/
def integers (pos : Pos) (op : BinaryOp) (a b : Int) : Result :=
  match op with
  | .add => .ok (.int (Word.wrap (a + b)) pos)
  | .sub => .ok (.int (Word.wrap (a - b)) pos)
  | .mul => .ok (.int (Word.wrap (a * b)) pos)
  | .div => .ok (.float (Float.ofInt a / Float.ofInt b) pos)
  | .mod =>
    if b = 0 then fault pos .divisionByZero else .ok (.int (Word.wrap (a.tmod b)) pos)
  | .bitAnd => .ok (.int (Word.and a b) pos)
  | .bitOr => .ok (.int (Word.or a b) pos)
  | .bitXor => .ok (.int (Word.xor a b) pos)
  | .shiftLeft =>
    if b < 0 then fault pos .negativeShift else .ok (.int (Word.shiftLeft a b.toNat) pos)
  | .shiftRight =>
    if b < 0 then fault pos .negativeShift else .ok (.int (Word.shiftRight a b.toNat) pos)
  | .lt => .ok (.bool (a < b))
  | .gt => .ok (.bool (b < a))
  | .le => .ok (.bool (a ≤ b))
  | .ge => .ok (.bool (b ≤ a))
  | .eq => .ok (.bool (a = b))
  | .ne => .ok (.bool (a ≠ b))
  | .and | .or => fault pos (.unknownBinary .integer op .integer)

/-- A binary operator on numbers of the types `l` and `r`, at least one of them a float. -/
def floats (pos : Pos) (op : BinaryOp) (l r : Ty) (a b : Float) : Result :=
  match op with
  | .add => .ok (.float (a + b) pos)
  | .sub => .ok (.float (a - b) pos)
  | .mul => .ok (.float (a * b) pos)
  | .div => .ok (.float (a / b) pos)
  | .mod => .ok (.float (Binary.modulo a b) pos)
  | .lt => .ok (.bool (a < b))
  | .gt => .ok (.bool (b < a))
  | .le => .ok (.bool (a ≤ b))
  | .ge => .ok (.bool (b ≤ a))
  | .eq => .ok (.bool (a == b))
  | .ne => .ok (.bool (a != b))
  | .bitAnd | .bitOr | .bitXor | .shiftLeft | .shiftRight | .and | .or =>
    fault pos (.unknownBinary l op r)

/-- A binary operator on texts. -/
def strings (pos : Pos) (op : BinaryOp) (a b : String) : Result :=
  match op with
  | .add => .ok (.string (a ++ b) pos)
  | .eq => .ok (.bool (a == b))
  | .ne => .ok (.bool (a != b))
  | _ => fault pos (.unknownBinary .string op .string)

/-- A binary operator on values that are neither two numbers nor two texts. -/
def others (pos : Pos) (op : BinaryOp) (l r : Value) : Result :=
  match op with
  | .eq => .ok (.bool (l.equal r))
  | .ne => .ok (.bool (!l.equal r))
  | _ =>
    if l.ty = r.ty then fault pos (.unknownBinary l.ty op r.ty)
    else fault pos (.typeMismatch l.ty op r.ty)

/-- A binary operator at `pos`. -/
def binary (pos : Pos) (op : BinaryOp) (l r : Value) : Result :=
  match l, r with
  | .int a _, .int b _ => integers pos op a b
  | .int a _, .float b _ => floats pos op .integer .float (.ofInt a) b
  | .float a _, .int b _ => floats pos op .float .integer a (.ofInt b)
  | .float a _, .float b _ => floats pos op .float .float a b
  | .string a _, .string b _ => strings pos op a b
  | l, r => others pos op l r

/-! ## Steps -/

/-- The value of a variable behind a step. -/
def step (pos : Pos) (op : StepOp) (before : Bool) (v : Value) : Result :=
  match v with
  | .int n _ => .ok (.int (Word.wrap (n + op.amount)) pos)
  | .float x _ => .ok (.float (x + Float.ofInt op.amount) pos)
  | v => fault pos (.unknownStep op before v.ty)

end Operator

end Vorn
