import Vorn.Proofs.Arithmetic
import Vorn.Proofs.Eval.Spec
import Vorn.Proofs.Grammar.Forms
import Vorn.Proofs.Grammar.Positions
import Vorn.Proofs.IntegerText
import Vorn.Proofs.Tree.Text

/-!
# Integers as programs

The text that an integer is shown as is a program. A minus in it is no part of the number but an
operator, so the literal is read before it is negated, and must be in range by itself. All integers
of 64 bits but the least one come back (`integer_source`).

The text is followed from its tokens (`Numeral.bare_text`) through the grammar
(`Parse.run_tokens`) to a tree of arithmetic (`exists_arith_of_text`), whose value over words is the
integer.
-/

namespace Vorn

/-! ## Tokens -/

namespace Numeral

/-- The tokens of the decimal text of an integer, without their places. -/
def textTokens : Int → List Token
  | .ofNat n => [⟨.int, n.repr, .start⟩, .last]
  | .negSucc n => [.symbol .minus, ⟨.int, (n + 1).repr, .start⟩, .last]

theorem isWhole_repr (n : Nat) : IsWhole n.repr := by
  rw [IsWhole, Nat.toList_repr]
  exact ⟨Nat.toDigits_ne_nil, isDigit_toDigits n⟩

theorem bare_repr (n : Nat) : Scan.bare n.repr.toList = [⟨.int, n.repr, .start⟩, .last] := by
  have hscan : Scan.bare (n.repr.toList ++ []) = ⟨.int, n.repr, .start⟩ :: Scan.bare [] :=
    Scan.bare_whole (isWhole_repr n) (by rintro c ⟨⟩)
  rwa [List.append_nil, Scan.bare_nil] at hscan

theorem bare_text (n : Int) : Scan.bare (text n).toList = textTokens n := by
  cases n with
  | ofNat n => exact bare_repr n
  | negSucc n =>
    have hstops := IsWhole.stops_operator (isWhole_repr (n + 1)) []
    rw [List.append_nil] at hstops
    rw [text, String.toList_append, textTokens, ← bare_repr]
    exact Scan.bare_operator (k := .minus) (by decide) hstops

end Numeral

/-! ## Trees -/

namespace Numeral

/-- The tree of the decimal text of an integer, with the places of its one or two tokens. -/
def tree (pos pos' : Pos) : Int → Expr
  | .ofNat n => .int pos n.repr (.ofNat n)
  | .negSucc n => .unary pos .negate (.int pos' (n + 1).repr (.ofNat (n + 1)))

/-- Whatever the places are, it is the tree of that integer. -/
theorem exists_tree_of_mark {f : Pos → Pos} {e : Expr} {p p' : Pos} {n : Int}
    (h : e.mark (.moved f) = tree p p' n) : ∃ pos pos', e = tree pos pos' n := by
  cases n with
  | ofNat n =>
    cases e with
    | int pos w v =>
      simp only [tree, Expr.mark, Expr.int.injEq] at h
      obtain ⟨-, rfl, rfl⟩ := h
      exact ⟨pos, pos, rfl⟩
    | _ => simp [tree, Expr.mark] at h
  | negSucc n =>
    cases e with
    | unary pos op e =>
      simp only [tree, Expr.mark, Expr.unary.injEq] at h
      obtain ⟨-, rfl, h⟩ := h
      cases e with
      | int pos' w v =>
        simp only [Expr.mark, Expr.int.injEq] at h
        obtain ⟨-, rfl, rfl⟩ := h
        exact ⟨pos, pos', rfl⟩
      | _ => simp [Expr.mark] at h
    | _ => simp [tree, Expr.mark] at h

end Numeral

theorem Program.eq_of_mark_expr {m : Marking} {p : Program} {pos : Pos} {literal : String}
    {e : Expr} (h : p.mark m = ⟨[.expr pos literal e]⟩) :
    ∃ pos' literal' e', p = ⟨[.expr pos' literal' e']⟩ ∧ e'.mark m = e := by
  obtain ⟨_ | ⟨s, ss⟩⟩ := p
  · cases h
  · simp only [Program.mark, Stmt.markAll, Program.mk.injEq, List.cons.injEq] at h
    obtain ⟨hs, hss⟩ := h
    cases ss with
    | cons => simp [Stmt.markAll] at hss
    | nil =>
      cases s with
      | expr pos' literal' e' =>
        simp only [Stmt.mark, Stmt.expr.injEq] at hs
        exact ⟨pos', literal', e', rfl, hs.2.2⟩
      | _ => simp [Stmt.mark] at hs

namespace Parse

open Reader

variable {n : Nat} {fs : Frames} {level : Nat} {es : List ParseError} {ts : List Token}

theorem operand_int {w : String} {v : Int} (h : Numeral.read? w = some v) :
    operand (n + 1) fs ⟨⟨⟨.int, w, .start⟩, ts⟩, es⟩ =
      .ok (.int .start w v) ⟨⟨⟨.int, w, .start⟩, ts⟩, es⟩ := by
  simp [operand, run_bind, integer, h]

/-- An integer literal at the end of the text. -/
theorem expression_last_int {w : String} {v : Int} (h : Numeral.read? w = some v)
    (hlevel : Level.lowest ≤ level) :
    expression (n + 2) fs level ⟨⟨⟨.int, w, .start⟩, [.last]⟩, es⟩ =
      .ok (.int .start w v) ⟨⟨⟨.int, w, .start⟩, [.last]⟩, es⟩ :=
  (expression_of_operand (operand_int h)).trans (extend_stop hlevel)

theorem expression_last_minus {w : String} {v : Int} (h : Numeral.read? w = some v) :
    expression (n + 5) fs Level.lowest ⟨⟨.symbol .minus, [⟨.int, w, .start⟩, .last]⟩, es⟩ =
      .ok (.unary .start .negate (.int .start w v)) ⟨⟨⟨.int, w, .start⟩, [.last]⟩, es⟩ :=
  have hoperand : operand (n + 4) fs
      ⟨⟨.symbol UnaryOp.negate.kind, [⟨.int, w, .start⟩, .last]⟩, es⟩ = _ :=
    operand_unary (by simp) (expression_last_int h (by decide))
  (expression_of_operand hoperand).trans (extend_stop (Nat.le_refl _))

end Parse


/-! ## Programs -/

open Numeral in
theorem Parse.run_textTokens {n : Int} (hn : Word.InRange n) (hleast : n ≠ Word.min) :
    ∃ k literal, Parse.run k (textTokens n) =
      some (⟨[.expr .start literal (tree .start .start n)]⟩, []) := by
  cases n with
  | ofNat n =>
    have hread := read?_text_of_inRange hn
    rw [text] at hread
    have hint := @expression_last_int 0 [{}] Level.lowest [] _ _ hread (Nat.le_refl _)
    exact ⟨_, _, run_last_expr (by simp [introducing]) (by simp) rfl hint⟩
  | negSucc n =>
    have habs : Word.InRange (.ofNat (n + 1)) := by
      simp only [Word.InRange, Word.min, Word.max, Int.ofNat_eq_natCast] at hn hleast ⊢
      omega
    have hread := read?_text_of_inRange habs
    rw [text] at hread
    have hminus := @expression_last_minus 0 [{}] [] _ _ hread
    exact ⟨_, _, run_last_expr (by decide) (by decide) rfl hminus⟩

open Numeral in
/-- The text of an integer is accepted, but for that of the least one. -/
theorem exists_parse_text {n : Int} (hn : Word.InRange n) (hleast : n ≠ Word.min) :
    ∃ pos literal p p', parse? (text n) = .ok ⟨[.expr pos literal (tree p p' n)]⟩ := by
  obtain ⟨k, literal, hrun⟩ := Parse.run_textTokens hn hleast
  obtain ⟨p, hparse, hmark⟩ := parse_of_bare (bare_text n) hrun
  obtain ⟨pos, literal', e, rfl, he⟩ := Program.eq_of_mark_expr hmark
  obtain ⟨p, p', rfl⟩ := exists_tree_of_mark he
  exact ⟨pos, literal', p, p', by rw [parse?, hparse]⟩

/-- The digits of the least integer are out of range by themselves. -/
theorem parse?_least : parse? (Numeral.text Word.min) =
    .error [.grammar ⟨1, 3⟩ (.notInteger "9223372036854775808")] := by
  have herrors : (parse (Numeral.text Word.min)).2 =
      [.grammar ⟨1, 3⟩ (.notInteger "9223372036854775808")] := by
    decide +kernel
  rw [parse?, ← herrors]
  split
  · rename_i hparse
    simp [hparse] at herrors
  · rename_i hparse
    rw [hparse]

/-! ## Runs -/

/-- The tree of an integer evaluates to it, where the first token stands. -/
theorem Eval.eval_tree (settings : Settings) (depth : Nat) (scope : ScopeRef) (s : State)
    {n : Int} (hn : Word.InRange n) (pos pos' : Pos) :
    eval settings (depth + 2) (.expr (Numeral.tree pos pos' n) scope) s = .ok (.int n pos) s := by
  cases n with
  | ofNat n => rfl
  | negSucc n =>
    have hneg : Word.wrap (-.ofNat (n + 1)) = .negSucc n := Word.wrap_eq_self hn
    have hstep := congrFun (perform_evalUnary settings (eval settings (depth + 1)) scope pos .negate
      (.int pos' (n + 1).repr (.ofNat (n + 1)))) s
    refine hstep.trans ?_
    change EStateM.Result.ok (Value.int (Word.wrap (-.ofNat (n + 1))) pos) s = _
    rw [hneg]

theorem Store.inspect?_int (s : Store) (n : Int) (pos : Pos) :
    s.inspect? (.int n pos) = some (Numeral.text n) := by
  rw [Store.inspect?, Store.snapshot?]
  cases s.collections <;> rfl

/-- The program that an integer is written as leaves all but the trace as it is. -/
theorem Session.run_tree {settings : Settings} (hdepth : 1 < settings.depth) {n : Int}
    (hn : Word.InRange n) (s : State) (pos p p' : Pos) (literal : String) :
    ∃ lines, run settings ⟨[.expr pos literal (Numeral.tree p p' n)]⟩ s =
      (.value (.int n p), s.retraced lines) := by
  obtain ⟨d, hd⟩ := Nat.exists_eq_add_of_le' hdepth
  set program : Program := ⟨[.expr pos literal (Numeral.tree p p' n)]⟩
  have hended : Eval.ended settings program s =
      .ok (.int n p) (Eval.opened settings program s) := by
    have heval : Eval.eval settings settings.depth
        (.stmt (.expr pos literal (Numeral.tree p p' n)) Scopes.root)
        (Eval.opened settings program s) = .ok (.int n p) (Eval.opened settings program s) := by
      rw [hd]
      exact Eval.eval_tree settings d Scopes.root (Eval.opened settings program s) hn p p'
    rw [Eval.ended, Script.perform, Eval.runTopLevel, Script.play_ask_bind, heval]
    rfl
  have hopened : ∃ lines, Eval.opened settings program s = s.retraced lines := by
    rw [Eval.opened, Run.traced]
    split <;> exact ⟨_, rfl⟩
  obtain ⟨lines, hlines⟩ := hopened
  rw [run_eq, hended, hlines]
  dsimp only
  rw [Store.inspect?_int]
  split <;> exact ⟨_, rfl⟩

/-- **Integers come back as programs.** Every integer of 64 bits but the least one is shown as a
text that is accepted, and runs to that integer in any state, of which only the trace changes. The
text of the least one is refused, for its digits. -/
theorem integer_source {settings : Settings} (hdepth : 1 < settings.depth) {n : Int}
    (hn : Word.InRange n) :
    (∀ s pos, Store.inspect? s (.int n pos) = some (Numeral.text n)) ∧
    (n ≠ Word.min → ∃ pos, ∀ s, ∃ lines, Session.step settings (Numeral.text n) s =
      (.ran (.value (.int n pos)), s.retraced lines)) ∧
    (n = Word.min → ∀ s, Session.step settings (Numeral.text n) s =
      (.refused [.grammar ⟨1, 3⟩ (.notInteger "9223372036854775808")], s)) := by
  refine ⟨fun s pos => s.inspect?_int n pos, fun hleast => ?_, fun hleast s => ?_⟩
  · obtain ⟨pos, literal, p, p', hparse⟩ := exists_parse_text hn hleast
    refine ⟨p, fun s => ?_⟩
    obtain ⟨lines, hrun⟩ := Session.run_tree hdepth hn s pos p p' literal
    refine ⟨lines, ?_⟩
    rw [Session.step, hparse]
    dsimp only
    rw [hrun]
  · rw [Session.step, hleast, parse?_least]

/-- The least integer that comes back, and the one below it. -/
theorem integer_source_extremes :
    1 < ({} : Settings).depth ∧
    (Word.InRange (-0x7fffffffffffffff) ∧ ∃ pos, ∀ s, ∃ lines,
      Session.step {} "-9223372036854775807" s =
        (.ran (.value (.int (-0x7fffffffffffffff) pos)), s.retraced lines)) ∧
    Word.InRange (-0x8000000000000000) ∧ ∀ s, Session.step {} "-9223372036854775808" s =
      (.refused [.grammar ⟨1, 3⟩ (.notInteger "9223372036854775808")], s) := by
  have hdepth : 1 < ({} : Settings).depth := by decide
  have hsecond : Word.InRange (-0x7fffffffffffffff) := by decide
  have hleast : Word.InRange (-0x8000000000000000) := by decide
  exact ⟨hdepth, ⟨hsecond, (integer_source hdepth hsecond).2.1 (by decide)⟩, hleast,
    (integer_source hdepth hleast).2.2 rfl⟩

/-- **The least integer does not come back.** -/
theorem least_integer_refused :
    Word.InRange (-2 ^ 63) ∧
    Store.inspect? {} (.int (-2 ^ 63) .start) = some "-9223372036854775808" ∧
    Session.step {} "-9223372036854775808" {} =
      (.refused [.grammar ⟨1, 3⟩ (.notInteger "9223372036854775808")], {}) := by
  refine ⟨by decide, Store.inspect?_int {} (-2 ^ 63) .start, ?_⟩
  rw [Session.step, show "-9223372036854775808" = Numeral.text Word.min by decide, parse?_least]

end Vorn
