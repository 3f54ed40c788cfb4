import Vorn.Proofs.Grammar.Enclosing
import Vorn.Proofs.Grammar.Forms
import Vorn.Proofs.Grammar.Positions

/-!
# A compound assignment is an assignment

`x += value;` is accepted and has, up to positions, the tree of `x = x + (value);`, for every
compound operator and whatever tokens the value is made of (`compound_assignment_desugars`): all of
them become the right operand, also where they hold looser operators, further assignments or whole
functions.

Both programs are followed through the grammar, over the tokens without their places. The value
stands in front of a semicolon in one of them and in front of a parenthesis in the other; that this
makes no difference is `Parse.expression_paren`.
-/

namespace Vorn

namespace Parse

/-- The tokens are one expression: in front of a semicolon, one call at the lowest level reads just
them, and reports nothing. -/
def ReadsWhole (value : List Token) (e : Expr) : Prop :=
  ∃ n c, expression n [{}] Level.lowest ⟨.ofTokens (value ++ [.symbol .semicolon, .last]), []⟩ =
    .ok e ⟨⟨c, [.symbol .semicolon, .last]⟩, []⟩

/-- What follows the value in the two programs. -/
def endings : Endings where
  semicolon := .symbol .semicolon
  behind := [.last]
  paren := .symbol .rparen
  behindParen := [.symbol .semicolon, .last]
  semicolon_kind := rfl
  paren_kind := rfl

variable {n : Nat} {value us : List Token} {fs : Frames} {e : Expr} {c u : Token} {x : String}
  {k : Kind} {op : BinaryOp}

theorem ReadsWhole.ne_nil (h : ReadsWhole value e) : value ≠ [] := by
  rintro rfl
  obtain ⟨n, c, hrun⟩ := h
  have hlength : 2 ≤ 1 := (later_of_expression hrun).length_le
  omega

/-- Without their places they are the same expression, in front of a semicolon and of a
parenthesis. -/
theorem ReadsWhole.bare (h : ReadsWhole value e) : ∃ n c,
    expression n [{}] Level.lowest ⟨.ofTokens (value.map Token.bare ++ endings.old), []⟩ =
      .ok (e.mark (.moved fun _ => .start)) ⟨⟨c, endings.old⟩, []⟩ ∧
    expression n [{}] Level.lowest ⟨.ofTokens (value.map Token.bare ++ endings.new), []⟩ =
      .ok (e.mark (.moved fun _ => .start)) ⟨⟨c, endings.new⟩, []⟩ := by
  obtain ⟨t, ts, rfl⟩ := List.exists_cons_of_ne_nil h.ne_nil
  obtain ⟨n, c, hrun⟩ := h
  have hmoves := (moved (f := fun _ => .start) (Nat.le_refl n)).expression [{}] Level.lowest
    ⟨⟨t, ts ++ endings.old⟩, []⟩
  have hstart : ReaderState.move (fun _ => .start) ⟨⟨t, ts ++ endings.old⟩, []⟩ =
      ⟨⟨t.bare, ts.map Token.bare ++ endings.old⟩, []⟩ :=
    congrArg (fun us => ReaderState.mk ⟨t.bare, us⟩ []) List.map_append
  rw [show expression n _ _ ⟨⟨t, ts ++ endings.old⟩, []⟩ = _ from hrun, hstart] at hmoves
  obtain ⟨_, hout⟩ | hsemicolon := hmoves
  · cases hout
  · exact ⟨n, c.bare, hsemicolon, expression_paren hsemicolon⟩

/-! ## The two forms -/

theorem expression_compound (hx : IsName x) (hk : k.assignment? = some (some op))
    (hvalue : value ≠ []) (hu : u.kind.level ≤ Level.lowest)
    (h : expression n fs Level.lowest ⟨.ofTokens value, []⟩ = .ok e ⟨⟨c, u :: us⟩, []⟩) :
    expression (n + 3) fs Level.lowest ⟨⟨.word x, .symbol k :: value⟩, []⟩ =
      .ok (.assign .start x (.binary .start op (.ident .start x) e)) ⟨⟨c, u :: us⟩, []⟩ :=
  (expression_of_operand (operand_compound hx hk hvalue h)).trans (extend_stop hu)

/-- The parentheses keep the value together: behind them the operator has its right operand. -/
theorem expression_spelled_out (hx : IsName x) (op : BinaryOp) (hvalue : value ≠ [])
    (hu : u.kind.level ≤ Level.lowest)
    (h : expression n fs Level.lowest ⟨.ofTokens value, []⟩ =
      .ok e ⟨⟨c, .symbol .rparen :: u :: us⟩, []⟩) :
    expression (n + 8) fs Level.lowest
        ⟨⟨.word x, .symbol .assign :: .word x :: .symbol op.kind :: .symbol .lparen :: value⟩, []⟩ =
      .ok (.assign .start x (.binary .start op (.ident .start x) e))
        ⟨⟨.symbol .rparen, u :: us⟩, []⟩ := by
  have hlevel : Level.lowest < op.kind.level := by cases op <;> decide
  have hlowest : u.kind.level ≤ op.level := by
    rw [← BinaryOp.level_kind]
    exact Nat.le_trans hu (Nat.le_of_lt hlevel)
  have hright : expression (n + 2) fs op.level ⟨.ofTokens (.symbol .lparen :: value), []⟩ =
      .ok e ⟨⟨.symbol .rparen, u :: us⟩, []⟩ :=
    (expression_of_operand (operand_paren hvalue h)).trans (extend_stop hlowest)
  have hbinary : expression (n + 5) fs Level.lowest
      ⟨.ofTokens (.word x :: .symbol op.kind :: .symbol .lparen :: value), []⟩ =
        .ok (.binary .start op (.ident .start x) e) ⟨⟨.symbol .rparen, u :: us⟩, []⟩ := by
    have hname : op.kind.assignment? = none := by cases op <;> rfl
    refine (expression_of_operand (operand_name hx hname)).trans ?_
    refine (extend_go hlevel (continuation_binary (by simp) hright)).trans ?_
    exact extend_stop hu
  exact (expression_of_operand (operand_assign hx (by simp) hbinary)).trans (extend_stop hu)

/-- A program that assigns to a name. -/
theorem run_assign (hx : IsName x) (h : expression n [{}] Level.lowest ⟨⟨.word x, us⟩, []⟩ =
      .ok (.assign .start x e) ⟨⟨c, [.symbol .semicolon, .last]⟩, []⟩) :
    run (n + 3) (.word x :: us) = some (⟨[.expr .start x (.assign .start x e)]⟩, []) := by
  have hk := Token.word_kind_of_isName hx
  refine run_expr ?_ ?_ ?_ h
  · rw [hk]
    decide
  · rw [hk]
    decide
  · simp [Frames.check, Frames.checkTarget, Frame.checkFresh, Stmt.target?, Expr.target?,
      Frames.resolvesToConst]

end Parse

/-! ## Programs -/

/-- The tokens are accepted as the program. -/
def Parse.Accepts (ts : List Token) (p : Program) : Prop :=
  Parse.run (Parse.fuel ts) ts = some (p, [])

theorem parse_of_accepts {source : String} {p : Program} (h : Parse.Accepts (tokens source) p) :
    parse source = (p, []) := by
  rw [Parse.Accepts, (parse_reads source).1] at h
  exact Option.some.inj h

/-- **Compound assignment.** Let the tokens of a value be one expression. With a name and a compound
operator in front and a semicolon behind, they are accepted, wherever the tokens stand. Up to
positions the tree is that of the assignment in which the operator is written between the name and
the value in parentheses, and the whole value is the right operand. -/
theorem compound_assignment_desugars {x : String} (hx : IsName x) {k : Kind} {op : BinaryOp}
    (hk : k.assignment? = some (some op)) {value : List Token} {e : Expr}
    (hvalue : Parse.ReadsWhole value e) {a b : List Token}
    (ha : a.map Token.bare =
      .word x :: .symbol k :: (value.map Token.bare ++ [.symbol .semicolon, .last]))
    (hb : b.map Token.bare = .word x :: .symbol .assign :: .word x :: .symbol op.kind ::
      .symbol .lparen ::
        (value.map Token.bare ++ [.symbol .rparen, .symbol .semicolon, .last])) :
    ∃ p q, Parse.Accepts a p ∧ Parse.Accepts b q ∧
      p.mark (.moved fun _ => .start) = q.mark (.moved fun _ => .start) ∧
      p.mark (.moved fun _ => .start) = ⟨[.expr .start x (.assign .start x
        (.binary .start op (.ident .start x) (e.mark (.moved fun _ => .start))))]⟩ := by
  obtain ⟨n, c, hsemicolon, hparen⟩ := hvalue.bare
  have hcompound := Parse.run_assign hx
    (Parse.expression_compound hx hk (by simp [Endings.old]) (Nat.le_refl _) hsemicolon)
  have hspelled := Parse.run_assign hx
    (Parse.expression_spelled_out hx op (by simp [Endings.new]) (Nat.le_refl _) hparen)
  obtain ⟨p, hp, hpmark⟩ :=
    run_of_bare ha (.append (_ :: _ :: _) ⟨.last, rfl, rfl⟩) hcompound
  obtain ⟨q, hq, hqmark⟩ :=
    run_of_bare hb (.append (_ :: _ :: _ :: _ :: _ :: _) ⟨.last, rfl, rfl⟩) hspelled
  exact ⟨p, q, hp, hq, hpmark.trans hqmark.symm, hpmark⟩

/-- The tokens of `y = func(z) {return z;}(w)`: an assignment, a block and a call. -/
def nestedValue : List Token :=
  [.word "y", .symbol .assign, .word "func", .symbol .lparen, .word "z", .symbol .rparen,
    .symbol .lbrace, .word "return", .word "z", .symbol .semicolon, .symbol .rbrace,
    .symbol .lparen, .word "w", .symbol .rparen]

def nestedTree : Expr :=
  .assign .start "y" (.call .start
    (.func .start ["z"] (.mk .start [.return .start (some (.ident .start "z"))]))
    [.ident .start "w"])

theorem compound_assignment_desugars_nested : ∃ p q,
    parse "x += y = func(z) \x7b return z; \x7d(w);" = (p, []) ∧
      parse "x = x + (y = func(z) \x7b return z; \x7d(w));" = (q, []) ∧
      p.mark (.moved fun _ => .start) = q.mark (.moved fun _ => .start) := by
  have hx : IsName "x" := ⟨⟨'x', [], rfl, rfl, by simp⟩, by decide⟩
  have hk : Kind.plusAssign.assignment? = some (some .add) := rfl
  have hvalue : Parse.ReadsWhole nestedValue nestedTree := ⟨20, .symbol .rparen, by rfl⟩
  obtain ⟨p, q, hp, hq, hmark, -⟩ :=
    compound_assignment_desugars hx hk hvalue
      (a := tokens "x += y = func(z) \x7b return z; \x7d(w);")
      (b := tokens "x = x + (y = func(z) \x7b return z; \x7d(w));")
      (by decide +kernel) (by decide +kernel)
  exact ⟨p, q, parse_of_accepts hp, parse_of_accepts hq, hmark⟩

end Vorn
