import Vorn.Proofs.Eval.Calls
import Vorn.Proofs.Eval.Perform
import Vorn.Proofs.Number.TwosComplement

/-!
# Integer arithmetic is that of 64-bit words

A tree of integer literals and operators has a value over bit vectors of 64 bits, or a fault, found
from left to right (`Arith.value`). Evaluating it comes to the same, and touches nothing else
(`Arith.eval_expr`). The powers and sums of the library are the exact ones, wrapped. The headline is
`arithmetic_wraps`.
-/

namespace Vorn

open Run Script

/-! ## Trees of integer arithmetic -/

/-- The unary operators that make an integer of one. -/
inductive WordUnary where
  | negate
  | complement
deriving DecidableEq, Repr

namespace WordUnary

def toUnary : WordUnary → UnaryOp
  | negate => .negate
  | complement => .complement

def apply (a : BitVec 64) : WordUnary → BitVec 64
  | negate => -a
  | complement => ~~~a

end WordUnary

/-- The binary operators that make an integer of two. -/
inductive WordOp where
  | add
  | sub
  | mul
  | mod
  | bitAnd
  | bitOr
  | bitXor
  | shiftLeft
  | shiftRight
deriving DecidableEq, Repr

namespace WordOp

def toBinary : WordOp → BinaryOp
  | add => .add
  | sub => .sub
  | mul => .mul
  | mod => .mod
  | bitAnd => .bitAnd
  | bitOr => .bitOr
  | bitXor => .bitXor
  | shiftLeft => .shiftLeft
  | shiftRight => .shiftRight

/-- What the operator at `pos` makes of two words: the remainder has the sign of the dividend, and a
shift by 64 or more leaves zeros or copies of the sign. A zero divisor and a negative count are
faults. -/
def apply (pos : Pos) (a b : BitVec 64) : WordOp → Except Fault (BitVec 64)
  | add => .ok (a + b)
  | sub => .ok (a - b)
  | mul => .ok (a * b)
  | mod => if b = 0 then .error ⟨pos, .divisionByZero⟩ else .ok (a.srem b)
  | bitAnd => .ok (a &&& b)
  | bitOr => .ok (a ||| b)
  | bitXor => .ok (a ^^^ b)
  | shiftLeft => if b.toInt < 0 then .error ⟨pos, .negativeShift⟩ else .ok (a <<< b)
  | shiftRight => if b.toInt < 0 then .error ⟨pos, .negativeShift⟩ else .ok (a.sshiftRight' b)

end WordOp

/-- A tree of integer literals and operators. -/
inductive Arith where
  | literal (pos : Pos) (text : String) (n : Int) (h : Word.InRange n)
  | unary (pos : Pos) (op : WordUnary) (t : Arith)
  | binary (pos : Pos) (op : WordOp) (l r : Arith)

namespace Arith

def expr : Arith → Expr
  | literal pos text n _ => .int pos text n
  | unary pos op t => .unary pos op.toUnary t.expr
  | binary pos op l r => .binary pos op.toBinary l.expr r.expr

/-- The place of the value: that of the literal or the operator. -/
def pos : Arith → Pos
  | literal pos _ _ _ | unary pos _ _ | binary pos _ _ _ => pos

def height : Arith → Nat
  | literal _ _ _ _ => 0
  | unary _ _ t => t.height + 1
  | binary _ _ l r => max l.height r.height + 1

/-- The value over 64-bit words, found from left to right. -/
def value : Arith → Except Fault (BitVec 64)
  | literal _ _ n _ => .ok (.ofInt 64 n)
  | unary _ op t => do return op.apply (← t.value)
  | binary pos op l r => do
    let a ← l.value
    let b ← r.value
    op.apply pos a b

/-- How the evaluation of the tree ends, by its value over words. -/
def ending (t : Arith) (s : State) : Ending Value :=
  match t.value with
  | .ok a => .ok (.int a.toInt t.pos) s
  | .error f => .error (.fault f) s

end Arith

/-! ## Operators -/

namespace Operator

/-- An operator on words is the operator on the integers that they stand for. -/
theorem integers_toInt (pos : Pos) (op : WordOp) (a b : BitVec 64) :
    integers pos op.toBinary a.toInt b.toInt =
      (op.apply pos a b).map fun c => .int c.toInt pos := by
  have hok {m n : Int} (h : m = n) : (.ok (.int m pos) : Result) = .ok (.int n pos) := by rw [h]
  cases op with
  | add => exact hok (Word.wrap_add a b)
  | sub => exact hok (Word.wrap_sub a b)
  | mul => exact hok (Word.wrap_mul a b)
  | bitAnd => exact hok (Word.and_toInt a b)
  | bitOr => exact hok (Word.or_toInt a b)
  | bitXor => exact hok (Word.xor_toInt a b)
  | mod =>
    have hzero : b.toInt = 0 ↔ b = 0 := BitVec.toInt_inj (y := 0)
    simp only [integers, WordOp.toBinary, WordOp.apply, hzero]
    split
    · rfl
    · exact hok (Word.wrap_tmod a b)
  | shiftLeft =>
    simp only [integers, WordOp.toBinary, WordOp.apply]
    split
    · rfl
    · rename_i hcount
      rw [Word.toNat_toInt b hcount]
      exact hok (Word.shiftLeft_toInt a b.toNat)
  | shiftRight =>
    simp only [integers, WordOp.toBinary, WordOp.apply]
    split
    · rfl
    · rename_i hcount
      rw [Word.toNat_toInt b hcount]
      exact hok (Word.shiftRight_toInt a b.toNat)

theorem unary_toInt (pos p : Pos) (op : WordUnary) (a : BitVec 64) :
    unary pos op.toUnary (.int a.toInt p) = .ok (.int (op.apply a).toInt pos) := by
  have hok {m n : Int} (h : m = n) : (.ok (.int m pos) : Result) = .ok (.int n pos) := by rw [h]
  cases op with
  | negate => exact hok (Word.wrap_neg a)
  | complement => exact hok (Word.complement_toInt a)

end Operator

/-! ## Evaluation of a tree -/

namespace Eval

variable (settings : Settings)

/-- An arithmetic operator evaluates both operands, the left one first. -/
theorem perform_evalBinary (go : Task → Run Value) (scope : ScopeRef) (pos : Pos) (op : WordOp)
    (l r : Expr) :
    (evalBinary scope pos op.toBinary l r).perform go = (do
      let left ← go (.expr l scope)
      let right ← go (.expr r scope)
      ofResult (Operator.binary pos op.toBinary left right)) := by
  have hbinary : evalBinary scope pos op.toBinary l r = (do
      let left ← ask (.expr l scope)
      let right ← ask (.expr r scope)
      ofResult (Operator.binary pos op.toBinary left right)) := by
    cases op <;> rfl
  rw [hbinary, perform_bind, perform_ask]
  refine congrArg _ (funext fun left => ?_)
  rw [perform_bind, perform_ask]
  rfl

theorem perform_evalUnary (go : Task → Run Value) (scope : ScopeRef) (pos : Pos) (op : UnaryOp)
    (e : Expr) :
    (evalExpr settings scope (.unary pos op e)).perform go = (do
      ofResult (Operator.unary pos op (← go (.expr e scope)))) := by
  rw [evalExpr, perform_bind, perform_ask]
  rfl

end Eval

namespace Arith

variable (settings : Settings) (scope : ScopeRef) (s : State)

/-- Evaluating a tree ends as its value over words says, or the bound on nesting is too low. -/
theorem eval_expr (t : Arith) (depth : Nat) :
    Eval.eval settings depth (.expr t.expr scope) s = t.ending s ∨
      depth ≤ t.height ∧ Eval.eval settings depth (.expr t.expr scope) s = .error .exhausted s := by
  induction t generalizing depth with
  | literal pos text n h =>
    cases depth with
    | zero => exact .inr ⟨Nat.zero_le _, rfl⟩
    | succ depth =>
      refine .inl ?_
      change EStateM.Result.ok (Value.int n pos) s = .ok (.int (BitVec.ofInt 64 n).toInt pos) s
      rw [← Word.wrap_eq_toInt, Word.wrap_eq_self h]
  | unary pos op t ih =>
    cases depth with
    | zero => exact .inr ⟨Nat.zero_le _, rfl⟩
    | succ depth =>
      have hstep : Eval.eval settings (depth + 1) (.expr (unary pos op t).expr scope) s = (do
          Eval.ofResult (Operator.unary pos op.toUnary
            (← Eval.eval settings depth (.expr t.expr scope))) : Run Value) s :=
        congrFun (Eval.perform_evalUnary settings _ scope pos op.toUnary t.expr) s
      rw [hstep, Run.run_bind]
      rcases ih depth with heval | ⟨hdepth, heval⟩
      · refine .inl ?_
        rw [heval, ending, ending, value]
        cases t.value with
        | error f => rfl
        | ok a =>
          exact congrArg (Eval.ofResult · s) (Operator.unary_toInt pos t.pos op a)
      · rw [heval]
        exact .inr ⟨Nat.succ_le_succ hdepth, rfl⟩
  | binary pos op l r ihl ihr =>
    cases depth with
    | zero => exact .inr ⟨Nat.zero_le _, rfl⟩
    | succ depth =>
      have hstep : Eval.eval settings (depth + 1) (.expr (binary pos op l r).expr scope) s = (do
          let left ← Eval.eval settings depth (.expr l.expr scope)
          let right ← Eval.eval settings depth (.expr r.expr scope)
          Eval.ofResult (Operator.binary pos op.toBinary left right) : Run Value) s :=
        congrFun (Eval.perform_evalBinary _ scope pos op l.expr r.expr) s
      rw [hstep, Run.run_bind]
      rcases ihl depth with hl | ⟨hdepth, hl⟩
      · rw [hl, ending, ending, value]
        cases l.value with
        | error f => exact .inl rfl
        | ok a =>
          dsimp only
          rw [Run.run_bind]
          rcases ihr depth with hr | ⟨hdepth, hr⟩
          · refine .inl ?_
            rw [hr, ending]
            cases r.value with
            | error f => rfl
            | ok b =>
              change Eval.ofResult (Operator.integers pos op.toBinary a.toInt b.toInt) s =
                match op.apply pos a b with
                | .ok c => .ok (.int c.toInt pos) s
                | .error f => .error (.fault f) s
              rw [Operator.integers_toInt]
              cases op.apply pos a b <;> rfl
          · rw [hr]
            exact .inr ⟨Nat.succ_le_succ (hdepth.trans (Nat.le_max_right _ _)), rfl⟩
      · rw [hl]
        exact .inr ⟨Nat.succ_le_succ (hdepth.trans (Nat.le_max_left _ _)), rfl⟩

end Arith

/-! ## Powers and sums -/

namespace Value

def IsInt (v : Value) : Prop := ∃ n p, v = .int n p

/-- The exact sum of the integers in a list. -/
def exactSum (vs : List Value) : Int :=
  (vs.map fun
    | .int n _ => n
    | _ => 0).sum

end Value

namespace Builtin

variable (settings : Settings) (pos : Pos) (s : State)

/-- **The power of integers is the exact power, wrapped.** -/
theorem apply_pow {x y : Int} (hy : 0 ≤ y) (p q : Pos) :
    Eval.apply settings pos (.builtin .pow) [.int x p, .int y q] s =
      .done (.ok (.int (Word.wrap (x ^ y.toNat)) pos)
        (traced settings 2 "call builtin pow" s)) := by
  have hpow : powOf pos (.int x p) (.int y q) = pure (.int (Word.wrap (x ^ y.toNat)) pos) := by
    rw [powOf, if_pos hy, Word.pow_eq]
  rw [apply_eq settings pos s rfl, run]
  exact congrArg (fun m : Run Value => Step.done (m _)) hpow

/-- Adding up integers, wrapping each time, wraps the exact sum. -/
theorem total_ints (vs : List Value) (t : Total) (hvs : ∀ v ∈ vs, v.IsInt)
    (ht : Word.wrap t.ints = t.ints) :
    total pos t vs s = .ok { t with ints := Word.wrap (t.ints + Value.exactSum vs) } s := by
  induction vs generalizing t with
  | nil =>
    simp only [total, Value.exactSum, List.map_nil, List.sum_nil, Int.add_zero, ht]
    rfl
  | cons v vs ih =>
    obtain ⟨⟨n, p, rfl⟩, hrest⟩ := List.forall_mem_cons.mp hvs
    have hsum : Value.exactSum (.int n p :: vs) = n + Value.exactSum vs := by
      simp [Value.exactSum]
    rw [total, Total.add]
    dsimp only
    rw [ih _ hrest (Word.wrap_eq_self (Word.inRange_wrap (t.ints + n))), Word.wrap_wrap_add, hsum,
      Int.add_assoc]

/-- **The sum of integers is the exact sum, wrapped.** -/
theorem apply_sum {r : ArrayRef} (hints : ∀ v ∈ (s.store.array r).toList, v.IsInt) (p : Pos) :
    Eval.apply settings pos (.builtin .sum) [.array r p] s =
      .done (.ok (.int (Word.wrap (Value.exactSum (s.store.array r).toList)) pos)
        (traced settings 2 "call builtin sum" s)) := by
  have hstore := traced_store s settings 2 "call builtin sum"
  have htotal := total_ints pos (traced settings 2 "call builtin sum" s) _ {} hints rfl
  have hsum : sumOf pos (.array r p) (traced settings 2 "call builtin sum" s) =
      .ok (.int (Word.wrap (Value.exactSum (s.store.array r).toList)) pos)
        (traced settings 2 "call builtin sum" s) := by
    rw [sumOf, Run.run_bind, show elements r (traced settings 2 "call builtin sum" s) =
      .ok ((traced settings 2 "call builtin sum" s).store.array r) _ from rfl, hstore]
    dsimp only
    rw [Run.run_bind, htotal, Int.zero_add]
    rfl
  rw [apply_eq settings pos s rfl, run]
  exact congrArg Step.done hsum

end Builtin

theorem Value.exactSum_perm {vs ws : List Value} (h : vs.Perm ws) : exactSum vs = exactSum ws :=
  (h.map _).sum_eq

/-- **Integer arithmetic is that of 64-bit words.** A tree of integer literals and operators
evaluates, in any state and without changing it, to the integer or the fault that is its value over
words; only a bound on nesting that is not above its height can cut it off. The power of integers
with an exponent that is not negative, and the sum of an array of integers, are the exact ones,
wrapped; and the sum does not depend on the order of the elements. -/
theorem arithmetic_wraps (settings : Settings) :
    (∀ scope s (t : Arith) depth, Eval.eval settings depth (.expr t.expr scope) s = t.ending s ∨
      depth ≤ t.height ∧ Eval.eval settings depth (.expr t.expr scope) s = .error .exhausted s) ∧
    (∀ pos s x y p q, 0 ≤ y → Eval.apply settings pos (.builtin .pow) [.int x p, .int y q] s =
      .done (.ok (.int (Word.wrap (x ^ y.toNat)) pos) (traced settings 2 "call builtin pow" s))) ∧
    (∀ pos s r p, (∀ v ∈ (s.store.array r).toList, v.IsInt) →
      Eval.apply settings pos (.builtin .sum) [.array r p] s =
        .done (.ok (.int (Word.wrap (Value.exactSum (s.store.array r).toList)) pos)
          (traced settings 2 "call builtin sum" s))) ∧
    ∀ pos s s' r r' p p', (∀ v ∈ (s.store.array r).toList, v.IsInt) →
      (s'.store.array r').toList.Perm (s.store.array r).toList →
      ∃ v, Eval.apply settings pos (.builtin .sum) [.array r p] s =
          .done (.ok v (traced settings 2 "call builtin sum" s)) ∧
        Eval.apply settings pos (.builtin .sum) [.array r' p'] s' =
          .done (.ok v (traced settings 2 "call builtin sum" s')) := by
  refine ⟨fun scope s t depth => t.eval_expr settings scope s depth,
    fun pos s x y p q hy => Builtin.apply_pow settings pos s hy p q,
    fun pos s r p hints => Builtin.apply_sum settings pos s hints p,
    fun pos s s' r r' p p' hints hperm => ?_⟩
  have hints' : ∀ v ∈ (s'.store.array r').toList, v.IsInt := fun v hv =>
    hints v (hperm.mem_iff.mp hv)
  refine ⟨_, Builtin.apply_sum settings pos s hints p, ?_⟩
  rw [Builtin.apply_sum settings pos s' hints' p', Value.exactSum_perm hperm]

/-- The tree `(1 << 63) % -1`, whose dividend is the least integer. -/
def Arith.leastByMinusOne : Arith :=
  .binary .start .mod
    (.binary .start .shiftLeft (.literal .start "1" 1 (by decide))
      (.literal .start "63" 63 (by decide)))
    (.unary .start .negate (.literal .start "1" 1 (by decide)))

/-- A state with the array `[9223372036854775807, 1]`. -/
def State.greatestAndOne : State :=
  { store := { arrays := #[#[.int 0x7fffffffffffffff .start, .int 1 .start]] } }

theorem arithmetic_wraps_limits :
    Eval.eval {} 3 (.expr Arith.leastByMinusOne.expr Scopes.root) default =
      .ok (.int 0 .start) default ∧
    Eval.apply {} .start (.builtin .pow) [.int 2 .start, .int 63 .start] default =
      .done (.ok (.int (-0x8000000000000000) .start) default) ∧
    Eval.apply {} .start (.builtin .sum) [.array ⟨0⟩ .start] State.greatestAndOne =
      .done (.ok (.int (-0x8000000000000000) .start) State.greatestAndOne) := by
  obtain ⟨htree, hpow, hsum, -⟩ := arithmetic_wraps {}
  have hints : ∀ v ∈ (State.greatestAndOne.store.array ⟨0⟩).toList, v.IsInt := by
    intro v hv
    change v ∈ [.int 0x7fffffffffffffff .start, .int 1 .start] at hv
    simp only [List.mem_cons, List.not_mem_nil, or_false] at hv
    rcases hv with rfl | rfl <;> exact ⟨_, _, rfl⟩
  refine ⟨?_, hpow .start default 2 63 .start .start (by decide),
    hsum .start State.greatestAndOne ⟨0⟩ .start hints⟩
  rcases htree Scopes.root default Arith.leastByMinusOne 3 with heval | ⟨hdepth, -⟩
  · exact heval
  · exact absurd hdepth (by decide)

end Vorn
