import Vorn.Proofs.Grammar.Forms
import Vorn.Proofs.Grammar.ScopePass

/-!
# Reading the tokens of a tree

The grammar reads the tokens of a printable tree as that tree, marked as a reader marks it
(`Marking.printed`). An operand is read up to the place where operators may extend it, so that the
statement about an expression covers every token that may follow it:

* `Expr.reread`: `expression` on the tokens of `e` goes on as `extend` does with `e` in hand;
* `Block.reread`, `Stmt.reread`: blocks and statements, which end with their last token;
* `Program.reread`: a whole program.

The fuel that is needed is bounded by the number of tokens.
-/

namespace Vorn

open Parse

/-- The marks of a tree that was read from its tokens alone. -/
def Marking.printed : Marking :=
  ⟨fun _ => .start, fun e _ => (e.tokens.headD .last).literal⟩

@[simp] theorem Marking.printed_pos (p : Pos) : Marking.printed.pos p = .start := rfl

/-! ## What may follow an expression -/

/-- The kinds behind which an expression is complete. -/
def Kind.isClosing : Kind → Bool
  | .rparen | .rbracket | .rbrace | .comma | .semicolon | .colon => true
  | _ => false

/-- The token does not become part of the last operand of the expression. An assignment takes
every operator behind it for its value. -/
structure Expr.Follow (e : Expr) (u : Token) : Prop where
  assignment : u.kind.assignment? = none
  notElse : u.kind ≠ .kwElse
  low : e.isAssign = true → u.kind.level ≤ Level.lowest

theorem level_of_isClosing {u : Token} (h : u.kind.isClosing = true) :
    u.kind.level = Level.lowest := by
  revert h
  cases u.kind <;> simp [Kind.isClosing, Kind.level, Kind.binary?]

theorem Expr.follow_of_isClosing (e : Expr) {u : Token} (h : u.kind.isClosing = true) :
    e.Follow u := by
  refine ⟨?_, ?_, fun _ => Nat.le_of_eq (level_of_isClosing h)⟩
  · revert h
    cases u.kind <;> simp [Kind.isClosing, Kind.assignment?]
  · intro hk
    simp [hk, Kind.isClosing] at h

/-- Reading the tokens of the expression at any level that a unary operator allows, and in front of
any token that may follow, leads to `extend` with the expression in hand. -/
def Expr.Rereads (fs : Frames) (e : Expr) : Prop :=
  ∀ n, 16 * e.tokens.length ≤ n → ∀ level, level ≤ Level.unary → ∀ u us es, e.Follow u →
    ∃ m c, n ≤ m + 16 * e.tokens.length ∧ c.kind ≠ .semicolon ∧
      expression n fs level ⟨.ofTokens (e.tokens ++ u :: us), es⟩ =
        extend m fs level (e.mark .printed) ⟨⟨c, u :: us⟩, es⟩

namespace Expr.Rereads

variable {fs : Frames} {e : Expr}

/-- In front of a closing token the expression is complete. -/
theorem closed (h : e.Rereads fs) {n : Nat} (hn : 16 * e.tokens.length < n) {level : Nat}
    (hl : Level.lowest ≤ level) (hl' : level ≤ Level.unary) {u : Token}
    (hu : u.kind.isClosing = true) (us : List Token) (es : List ParseError) :
    ∃ c, c.kind ≠ .semicolon ∧ expression n fs level ⟨.ofTokens (e.tokens ++ u :: us), es⟩ =
      .ok (e.mark .printed) ⟨⟨c, u :: us⟩, es⟩ := by
  obtain ⟨m, c, hm, hc, hrun⟩ := h n (Nat.le_of_lt hn) level hl' u us es (e.follow_of_isClosing hu)
  obtain ⟨m, rfl⟩ : ∃ k, m = k + 1 := ⟨m - 1, by omega⟩
  refine ⟨c, hc, hrun.trans (extend_stop ?_)⟩
  rw [level_of_isClosing hu]
  exact hl

/-- An expression of one token. -/
theorem leaf {t : Token} (ht : e.tokens = [t]) (hk : t.kind ≠ .semicolon)
    (h : ∀ n u us es, u.kind.assignment? = none →
      operand (n + 2) fs ⟨⟨t, u :: us⟩, es⟩ = .ok (e.mark .printed) ⟨⟨t, u :: us⟩, es⟩) :
    e.Rereads fs := by
  intro n hn level _ u us es hu
  rw [ht] at hn ⊢
  obtain ⟨n, rfl⟩ : ∃ k, n = k + 3 := ⟨n - 3, by simp at hn; omega⟩
  exact ⟨n + 2, t, by simp, hk, expression_of_operand (h n u us es hu.assignment)⟩

/-- An expression that is written with parentheses around it. -/
theorem paren (inner : List Token)
    (ht : e.tokens = .symbol .lparen :: (inner ++ [.symbol .rparen])) (hne : inner ≠ [])
    (h : ∀ n, 16 * (inner.length + 1) ≤ n → ∀ us es, ∃ c,
      expression n fs Level.lowest ⟨.ofTokens (inner ++ .symbol .rparen :: us), es⟩ =
        .ok (e.mark .printed) ⟨⟨c, .symbol .rparen :: us⟩, es⟩) :
    e.Rereads fs := by
  intro n hn level _ u us es _
  rw [ht] at hn ⊢
  simp only [List.length_cons, List.length_append, List.length_nil] at hn ⊢
  obtain ⟨n, rfl⟩ : ∃ k, n = k + 2 := ⟨n - 2, by omega⟩
  obtain ⟨c, hc⟩ := h n (by omega) (u :: us) es
  have hrun := operand_paren (by simp [hne]) hc
  refine ⟨n + 1, .symbol .rparen, by omega, by simp, ?_⟩
  simpa [Stream.ofTokens] using expression_of_operand hrun

variable {p : Pos} {l r k : Expr} {args : List Expr} {x : String}

theorem ident (hx : IsName x) : (Expr.ident p x).Rereads fs :=
  leaf rfl (by simp [Token.word_kind_of_isName hx]) fun _ _ _ _ hu => operand_name hx hu

theorem assign (hx : IsName x) (hr : r.Rereads fs) :
    (Expr.assign p x r).Rereads fs := by
  intro n hn level _ u us es hu
  simp only [Expr.tokens, List.length_cons, List.cons_append] at hn ⊢
  obtain ⟨n, rfl⟩ : ∃ k, n = k + 3 := ⟨n - 3, by omega⟩
  -- The value takes all that follows, and `u` binds too loosely to be part of it.
  have hu' : r.Follow u := ⟨hu.assignment, hu.notElse, fun _ => hu.low rfl⟩
  obtain ⟨m, c, hm, hc, hrun⟩ := hr n (by omega) Level.lowest (by decide) u us es hu'
  obtain ⟨m, rfl⟩ : ∃ k, m = k + 1 := ⟨m - 1, by omega⟩
  rw [extend_stop (hu.low rfl)] at hrun
  exact ⟨n + 2, c, by omega, hc, expression_of_operand (operand_assign hx (by simp) hrun)⟩

theorem unary {op : UnaryOp} (hr : r.Rereads fs) : (Expr.unary p op r).Rereads fs := by
  refine paren (.symbol op.kind :: r.tokens) rfl (by simp) fun n hn us es => ?_
  simp only [List.length_cons] at hn
  obtain ⟨n, rfl⟩ : ∃ k, n = k + 3 := ⟨n - 3, by omega⟩
  obtain ⟨c, -, hrun⟩ := hr.closed (n := n) (by omega) (by decide) (Nat.le_refl _)
    (u := .symbol .rparen) rfl us es
  refine ⟨c, (expression_of_operand (operand_unary (by simp) hrun)).trans ?_⟩
  exact extend_stop (by decide)

theorem stepBefore {op : StepOp} (hx : IsName x) : (Expr.step p op x true).Rereads fs := by
  refine paren ([.symbol op.kind, .word x]) rfl (by simp) fun n hn us es => ?_
  simp only [List.length_cons, List.length_nil] at hn
  obtain ⟨n, rfl⟩ : ∃ k, n = k + 2 := ⟨n - 2, by omega⟩
  refine ⟨.word x, (expression_of_operand (operand_stepBefore hx op)).trans ?_⟩
  obtain ⟨n, rfl⟩ : ∃ k, n = k + 1 := ⟨n - 1, by omega⟩
  exact extend_stop (by decide)

theorem stepBehind {op : StepOp} (hx : IsName x) : (Expr.step p op x false).Rereads fs := by
  refine paren ([.word x, .symbol op.kind]) rfl (by simp) fun n hn us es => ?_
  simp only [List.length_cons, List.length_nil] at hn
  have hu : (Expr.ident p x).Follow (.symbol op.kind) := by
    cases op <;> exact ⟨rfl, by decide, by simp [Expr.isAssign]⟩
  have hl : Level.lowest < (Token.symbol op.kind).kind.level := by cases op <;> decide
  obtain ⟨m, c, hm, -, hrun⟩ := ident (p := p) hx n (by simp [Expr.tokens]; omega) Level.lowest
    (by decide) (.symbol op.kind) (.symbol .rparen :: us) es hu
  simp only [Expr.tokens, List.length_cons, List.length_nil] at hm
  obtain ⟨m, rfl⟩ : ∃ k, m = k + 2 := ⟨m - 2, by omega⟩
  refine ⟨.symbol op.kind, hrun.trans ((extend_go hl (continuation_stepBehind op)).trans ?_)⟩
  exact extend_stop (by decide)

theorem binary {op : BinaryOp} (hl : l.Rereads fs) (hplain : l.isAssign = false)
    (hr : r.Rereads fs) : (Expr.binary p op l r).Rereads fs := by
  refine paren (l.tokens ++ .symbol op.kind :: r.tokens) (by simp [Expr.tokens])
    (by simp) fun n hn us es => ?_
  simp only [List.length_append, List.length_cons] at hn
  have hop : op.kind.assignment? = none ∧ op.kind ≠ .kwElse ∧ op.kind.level = op.level := by
    cases op <;> decide
  have hlevel : Level.lowest < op.level ∧ op.level ≤ Level.unary := by cases op <;> decide
  have hu : l.Follow (.symbol op.kind) := ⟨hop.1, hop.2.1, by simp [hplain]⟩
  obtain ⟨m, c, hm, -, hrun⟩ := hl n (by omega) Level.lowest (by decide) (.symbol op.kind)
    (r.tokens ++ .symbol .rparen :: us) es hu
  obtain ⟨m, rfl⟩ : ∃ k, m = k + 2 := ⟨m - 2, by omega⟩
  obtain ⟨d, -, hright⟩ := hr.closed (n := m) (by omega) (Nat.le_of_lt hlevel.1) hlevel.2
    (u := .symbol .rparen) rfl us es
  refine ⟨d, ?_⟩
  simp only [List.append_assoc, List.cons_append]
  rw [hrun, extend_go (by simp [hop.2.2, hlevel.1]) (continuation_binary (by simp) hright)]
  exact extend_stop (by decide)

theorem index (hl : l.Rereads fs) (hplain : l.isAssign = false) (hr : r.Rereads fs) :
    (Expr.index p l r).Rereads fs := by
  refine paren (l.tokens ++ .symbol .lbracket :: (r.tokens ++ [.symbol .rbracket]))
    (by simp [Expr.tokens]) (by simp) fun n hn us es => ?_
  simp only [List.length_append, List.length_cons, List.length_nil] at hn
  have hu : l.Follow (.symbol .lbracket) := ⟨rfl, by decide, by simp [hplain]⟩
  obtain ⟨m, c, hm, -, hrun⟩ := hl n (by omega) Level.lowest (by decide) (.symbol .lbracket)
    (r.tokens ++ .symbol .rbracket :: .symbol .rparen :: us) es hu
  obtain ⟨m, rfl⟩ : ∃ k, m = k + 2 := ⟨m - 2, by omega⟩
  obtain ⟨d, -, hkey⟩ := hr.closed (n := m) (by omega) (Nat.le_refl _) (by decide)
    (u := .symbol .rbracket) rfl (.symbol .rparen :: us) es
  refine ⟨.symbol .rbracket, ?_⟩
  simp only [List.append_assoc, List.cons_append, List.nil_append]
  rw [hrun, extend_go (by decide) (continuation_index (by simp) hkey)]
  exact extend_stop (by decide)

theorem member {q : Pos} (hl : l.Rereads fs) (hplain : l.isAssign = false) (hx : IsName x) :
    (Expr.member p l q x).Rereads fs := by
  refine paren (l.tokens ++ [.symbol .dot, .word x]) (by simp [Expr.tokens]) (by simp)
    fun n hn us es => ?_
  simp only [List.length_append, List.length_cons, List.length_nil] at hn
  have hu : l.Follow (.symbol .dot) := ⟨rfl, by decide, by simp [hplain]⟩
  obtain ⟨m, c, hm, -, hrun⟩ := hl n (by omega) Level.lowest (by decide) (.symbol .dot)
    (.word x :: .symbol .rparen :: us) es hu
  obtain ⟨m, rfl⟩ : ∃ k, m = k + 2 := ⟨m - 2, by omega⟩
  refine ⟨.word x, ?_⟩
  simp only [List.append_assoc, List.cons_append, List.nil_append]
  rw [hrun, extend_go (by decide) (continuation_member hx (by simp))]
  exact extend_stop (by decide)

end Expr.Rereads

/-! ## Expressions with lists or blocks inside -/

/-- The same of expressions between commas, up to the closing token. -/
def Expr.RereadsAll (fs : Frames) (args : List Expr) : Prop :=
  ∀ n, 16 * (Expr.tokensOfAll args).length + 1 < n → ∀ close : Kind, close.isClosing = true →
    close ≠ .comma → ∀ c us es,
      items n fs close ⟨⟨c, Expr.tokensOfAll args ++ .symbol close :: us⟩, es⟩ =
        .ok (Expr.markAll .printed args) ⟨⟨.symbol close, us⟩, es⟩

/-- The same of the pairs of a hash. -/
def Expr.RereadsPairs (fs : Frames) (ps : List (Expr × Expr)) : Prop :=
  ∀ n, 16 * (Expr.tokensOfPairs ps).length < n → ∀ c us es,
    pairs n fs ⟨⟨c, Expr.tokensOfPairs ps ++ .symbol .rbrace :: us⟩, es⟩ =
      .ok (Expr.markPairs .printed ps) ⟨⟨.symbol .rbrace, us⟩, es⟩

/-- The same of a block, from its opening brace on. -/
def Block.Rereads (fs : Frames) (xs : List String) (b : Block) : Prop :=
  ∀ n, 16 * b.tokens.length ≤ n → ∀ us es,
    block n fs xs ⟨⟨.symbol .lbrace, Stmt.tokensOfAll b.statements ++ .symbol .rbrace :: us⟩, es⟩ =
      .ok (b.mark .printed) ⟨⟨.symbol .rbrace, us⟩, es⟩

theorem length_le_paramTokens (xs : List String) : xs.length ≤ (paramTokens xs).length := by
  have hflat : ∀ ys : List String, ys.length ≤
      (ys.flatMap fun y => [Token.symbol .comma, .word y]).length := by
    intro ys
    induction ys with
    | nil => simp
    | cons y ys ih =>
      rw [List.flatMap_cons, List.length_append, List.length_cons]
      exact Nat.le_trans (Nat.succ_le_succ ih) (by simp only [List.length_cons]; omega)
  cases xs with
  | nil => simp
  | cons x xs =>
    have h := hflat xs
    simp only [paramTokens, nameTokens, List.length_cons, List.length_append]
    omega

theorem Block.tokens_append (b : Block) (ts : List Token) :
    b.tokens ++ ts =
      .symbol .lbrace :: (Stmt.tokensOfAll b.statements ++ .symbol .rbrace :: ts) := by
  obtain ⟨p, ss⟩ := b
  simp [Block.tokens, Block.statements]

namespace Expr.Rereads

variable {fs : Frames} {p : Pos} {e l : Expr} {args : List Expr} {x : String} {xs : List String}
  {b a : Block}

theorem method {q q' : Pos} (hl : l.Rereads fs) (hplain : l.isAssign = false) (hx : IsName x)
    (hargs : RereadsAll fs args) : (Expr.method p l q x q' args).Rereads fs := by
  refine paren (l.tokens ++ .symbol .dot :: .word x :: .symbol .lparen ::
    (Expr.tokensOfAll args ++ [.symbol .rparen])) (by simp [Expr.tokens]) (by simp)
    fun n hn us es => ?_
  simp only [List.length_append, List.length_cons, List.length_nil] at hn
  have hu : l.Follow (.symbol .dot) := ⟨rfl, by decide, by simp [hplain]⟩
  obtain ⟨m, c, hm, -, hrun⟩ := hl n (by omega) Level.lowest (by decide) (.symbol .dot)
    (.word x :: .symbol .lparen :: (Expr.tokensOfAll args ++ .symbol .rparen :: .symbol .rparen :: us))
    es hu
  obtain ⟨m, rfl⟩ : ∃ k, m = k + 2 := ⟨m - 2, by omega⟩
  have hitems := hargs m (by omega) .rparen rfl (by decide) (.symbol .lparen)
    (.symbol .rparen :: us) es
  refine ⟨.symbol .rparen, ?_⟩
  simp only [List.append_assoc, List.cons_append, List.nil_append]
  rw [hrun, extend_go (by decide) (continuation_method hx hitems)]
  exact extend_stop (by decide)

/-- A call has no parentheses around it: its callee is read at the level asked for. -/
theorem call (hl : l.Rereads fs) (hplain : l.isAssign = false) (hargs : RereadsAll fs args) :
    (Expr.call p l args).Rereads fs := by
  intro n hn level hlevel u us es _
  simp only [Expr.tokens, List.length_append, List.length_cons, List.length_nil] at hn ⊢
  have hu : l.Follow (.symbol .lparen) := ⟨rfl, by decide, by simp [hplain]⟩
  obtain ⟨m, c, hm, -, hrun⟩ := hl n (by omega) level hlevel (.symbol .lparen)
    (Expr.tokensOfAll args ++ .symbol .rparen :: u :: us) es hu
  obtain ⟨m, rfl⟩ : ∃ k, m = k + 2 := ⟨m - 2, by omega⟩
  have hitems := hargs m (by omega) .rparen rfl (by decide) (.symbol .lparen) (u :: us) es
  refine ⟨m + 1, .symbol .rparen, by omega, by simp, ?_⟩
  simp only [List.append_assoc, List.cons_append, List.nil_append]
  rw [hrun]
  exact extend_go (Nat.lt_of_le_of_lt hlevel (by decide)) (continuation_call hitems)

theorem array (hargs : RereadsAll fs args) : (Expr.array p args).Rereads fs := by
  intro n hn level _ u us es _
  simp only [Expr.tokens, List.length_append, List.length_cons, List.length_nil] at hn ⊢
  obtain ⟨n, rfl⟩ : ∃ k, n = k + 2 := ⟨n - 2, by omega⟩
  have hitems := hargs n (by omega) .rbracket rfl (by decide) (.symbol .lbracket) (u :: us) es
  refine ⟨n + 1, .symbol .rbracket, by omega, by simp, ?_⟩
  simp only [List.cons_append, List.append_assoc, List.nil_append]
  exact expression_of_operand (operand_array hitems)

theorem hash {ps : List (Expr × Expr)} (hps : RereadsPairs fs ps) : (Expr.hash p ps).Rereads fs := by
  intro n hn level _ u us es _
  simp only [Expr.tokens, List.length_append, List.length_cons, List.length_nil] at hn ⊢
  obtain ⟨n, rfl⟩ : ∃ k, n = k + 2 := ⟨n - 2, by omega⟩
  have hpairs := hps n (by omega) (.symbol .lbrace) (u :: us) es
  refine ⟨n + 1, .symbol .rbrace, by omega, by simp, ?_⟩
  simp only [List.cons_append, List.append_assoc, List.nil_append]
  exact expression_of_operand (operand_hash hpairs)

theorem func (hxs : ∀ x ∈ xs, IsName x) (hb : b.Rereads fs xs) : (Expr.func p xs b).Rereads fs := by
  intro n hn level _ u us es _
  have hlen := length_le_paramTokens xs
  simp only [Expr.tokens, List.length_append, List.length_cons] at hn ⊢
  obtain ⟨n, rfl⟩ : ∃ k, n = k + 2 := ⟨n - 2, by omega⟩
  have hrun := operand_func hxs (by omega) (hb n (by omega) (u :: us) es)
  refine ⟨n + 1, .symbol .rbrace, by omega, by simp, ?_⟩
  rw [List.cons_append, List.append_assoc, Block.tokens_append]
  exact expression_of_operand hrun

theorem cond_none (he : e.Rereads fs) (hb : b.Rereads fs []) :
    (Expr.cond p (some e) b none).Rereads fs := by
  intro n hn level _ u us es hu
  simp only [Expr.tokens, tokensOfOption, Block.tokensOfOption, List.length_append, List.length_cons,
    List.append_nil] at hn ⊢
  obtain ⟨n, rfl⟩ : ∃ k, n = k + 3 := ⟨n - 3, by omega⟩
  obtain ⟨c, -, hrun⟩ := he.closed (n := n) (by omega) (Nat.le_refl _) (by decide)
    (u := .symbol .rparen) rfl (b.tokens ++ u :: us) es
  rw [Block.tokens_append] at hrun
  have hoperand := operand_if_none (by simp) hu.notElse hrun (hb n (by omega) (u :: us) es)
  refine ⟨n + 2, .symbol .rbrace, by omega, by simp, ?_⟩
  simp only [List.cons_append, List.append_assoc, Block.tokens_append]
  exact expression_of_operand hoperand

theorem cond_some (he : e.Rereads fs) (hb : b.Rereads fs []) (ha : a.Rereads fs []) :
    (Expr.cond p (some e) b (some a)).Rereads fs := by
  intro n hn level _ u us es hu
  simp only [Expr.tokens, tokensOfOption, Block.tokensOfOption, List.length_append, List.length_cons]
    at hn ⊢
  obtain ⟨n, rfl⟩ : ∃ k, n = k + 4 := ⟨n - 4, by omega⟩
  obtain ⟨c, -, hrun⟩ := he.closed (n := n + 1) (by omega) (Nat.le_refl _) (by decide)
    (u := .symbol .rparen) rfl (b.tokens ++ .word "else" :: (a.tokens ++ u :: us)) es
  rw [Block.tokens_append, Block.tokens_append] at hrun
  have hoperand := operand_if_some (by simp) hrun (hb (n + 1) (by omega) _ es)
    (ha n (by omega) (u :: us) es)
  refine ⟨n + 3, .symbol .rbrace, by omega, by simp, ?_⟩
  simp only [List.cons_append, List.append_assoc, Block.tokens_append]
  exact expression_of_operand hoperand

end Expr.Rereads

/-! ## Statements -/

/-- Reading the tokens of the statement gives the statement and stops at its last token. -/
def Stmt.Rereads (fs : Frames) (s : Stmt) : Prop :=
  ∀ n, 16 * s.tokens.length ≤ n → ∀ us es, ∃ c,
    statement n fs ⟨.ofTokens (s.tokens ++ us), es⟩ =
      .ok (some (s.mark .printed)) ⟨⟨c, us⟩, es⟩

/-- The same of the first clause of a `for`. -/
def Stmt.RereadsInit (fs : Frames) (s : Option Stmt) : Prop :=
  ∀ n, 16 * (Stmt.tokensOfInit s).length ≤ n → ∀ us es,
    forInit n fs ⟨.ofTokens (Stmt.tokensOfInit s ++ us), es⟩ =
      .ok (Stmt.markOption .printed s) ⟨⟨.symbol .semicolon, us⟩, es⟩

theorem Stmt.tokens_eq_cons (s : Stmt) (h : Printable s.nodes) :
    ∃ t ts, s.tokens = t :: ts ∧ t.kind ≠ .rbrace ∧ t.kind ≠ .eof := by
  cases s with
  | expr p literal e =>
    simp only [Stmt.nodes, Printable.cons_iff] at h
    obtain ⟨t, ts, hts, -, hstart, -⟩ := e.tokens_eq_cons h.2
    refine ⟨t, ts ++ [.symbol .semicolon], by rw [Stmt.tokens, hts, List.cons_append], ?_, ?_⟩ <;>
      intro hk <;> simp [hk, Kind.startsExpr] at hstart
  | declare p isConst name e => exact ⟨_, _, rfl, by cases isConst <;> simp, by cases isConst <;> simp⟩
  | _ => exact ⟨_, _, rfl, by simp, by simp⟩

/-- The literal that a reader stores for an expression statement. -/
theorem Marking.printed_literal {e : Expr} {t : Token} {ts : List Token} (h : e.tokens = t :: ts)
    (literal : String) : Marking.printed.literal e literal = t.literal := by
  simp [Marking.printed, h]

namespace Stmt.Rereads

variable {fs : Frames} {p : Pos} {e : Expr} {x : String} {xs : List String} {b : Block}

theorem declare {isConst : Bool} (hx : IsName x) (he : e.Rereads fs) :
    (Stmt.declare p isConst x e).Rereads fs := by
  intro n hn us es
  simp only [Stmt.tokens, List.length_cons, List.length_append, List.length_nil] at hn
  obtain ⟨n, rfl⟩ : ∃ k, n = k + 2 := ⟨n - 2, by omega⟩
  obtain ⟨c, hc, hrun⟩ := he.closed (n := n) (by omega) (Nat.le_refl _) (by decide)
    (u := .symbol .semicolon) rfl us es
  refine ⟨.symbol .semicolon, ?_⟩
  simp only [Stmt.tokens, List.cons_append, List.append_assoc, List.nil_append]
  exact statement_declare hx (by simp) hc hrun

theorem return_none : (Stmt.return p none).Rereads fs := by
  intro n hn us es
  simp only [Stmt.tokens, List.length_cons] at hn
  obtain ⟨n, rfl⟩ : ∃ k, n = k + 2 := ⟨n - 2, by omega⟩
  exact ⟨.symbol .semicolon, statement_return_none⟩

theorem return_some (hp : Printable e.nodes) (he : e.Rereads fs) :
    (Stmt.return p (some e)).Rereads fs := by
  intro n hn us es
  simp only [Stmt.tokens, Expr.tokensOfOption, List.length_cons, List.length_append,
    List.length_nil] at hn
  obtain ⟨n, rfl⟩ : ∃ k, n = k + 2 := ⟨n - 2, by omega⟩
  obtain ⟨c, hc, hrun⟩ := he.closed (n := n) (by omega) (Nat.le_refl _) (by decide)
    (u := .symbol .semicolon) rfl us es
  obtain ⟨t, ts, hts, -, hstart, -⟩ := e.tokens_eq_cons hp
  refine ⟨.symbol .semicolon, ?_⟩
  simp only [Stmt.tokens, Expr.tokensOfOption, List.cons_append, List.append_assoc, hts,
    List.nil_append] at hrun ⊢
  exact statement_return_some hstart hc hrun

theorem expr {literal : String} (hp : Printable e.nodes) (he : e.Rereads fs) :
    (Stmt.expr p literal e).Rereads fs := by
  intro n hn us es
  simp only [Stmt.tokens, List.length_cons, List.length_append, List.length_nil] at hn
  obtain ⟨n, rfl⟩ : ∃ k, n = k + 2 := ⟨n - 2, by omega⟩
  obtain ⟨c, hc, hrun⟩ := he.closed (n := n) (by omega) (Nat.le_refl _) (by decide)
    (u := .symbol .semicolon) rfl us es
  obtain ⟨t, ts, hts, hpos, hstart, hfunc⟩ := e.tokens_eq_cons hp
  refine ⟨.symbol .semicolon, ?_⟩
  have hfunc' : t.kind = .kwFunc → (ts ++ .symbol .semicolon :: us).head? = some (.symbol .lparen) := by
    intro hk
    rw [List.head?_append, hfunc hk]
    rfl
  simp only [Stmt.tokens, Stmt.mark, Marking.printed_literal hts, Marking.printed_pos,
    List.cons_append, List.append_assoc, hts, List.nil_append] at hrun ⊢
  rw [← hpos]
  exact statement_expr hstart hfunc' hrun

theorem func (hx : IsName x) (hxs : ∀ x ∈ xs, IsName x) (hb : b.Rereads fs xs) :
    (Stmt.func p x xs b).Rereads fs := by
  intro n hn us es
  have hlen := length_le_paramTokens xs
  simp only [Stmt.tokens, List.length_cons, List.length_append] at hn
  obtain ⟨n, rfl⟩ : ∃ k, n = k + 2 := ⟨n - 2, by omega⟩
  refine ⟨.symbol .rbrace, ?_⟩
  simp only [Stmt.tokens, List.cons_append, List.append_assoc, Block.tokens_append]
  exact statement_func hx hxs (by omega) (hb n (by omega) us es)

theorem while_some (he : e.Rereads fs) (hb : b.Rereads fs []) :
    (Stmt.while p (some e) b).Rereads fs := by
  intro n hn us es
  simp only [Stmt.tokens, Expr.tokensOfOption, List.length_cons, List.length_append] at hn
  obtain ⟨n, rfl⟩ : ∃ k, n = k + 2 := ⟨n - 2, by omega⟩
  obtain ⟨c, -, hrun⟩ := he.closed (n := n) (by omega) (Nat.le_refl _) (by decide)
    (u := .symbol .rparen) rfl (b.tokens ++ us) es
  rw [Block.tokens_append] at hrun
  refine ⟨.symbol .rbrace, ?_⟩
  simp only [Stmt.tokens, Expr.tokensOfOption, List.cons_append, List.append_assoc,
    Block.tokens_append]
  exact statement_while (by simp) hrun (hb n (by omega) us es)

end Stmt.Rereads

/-! ## The clauses of a `for` -/

section Clauses

variable {fs : Frames} {p : Pos} {e : Expr} {x : String} {n : Nat}

theorem Stmt.rereadsInit_none : Stmt.RereadsInit fs none := by
  intro n hn us es
  simp only [Stmt.tokensOfInit, List.length_cons] at hn
  obtain ⟨n, rfl⟩ : ∃ k, n = k + 1 := ⟨n - 1, by omega⟩
  exact forInit_none

theorem Stmt.rereadsInit_declare {isConst : Bool} (hx : IsName x) (he : e.Rereads ({} :: fs)) :
    Stmt.RereadsInit fs (some (.declare p isConst x e)) := by
  intro n hn us es
  simp only [Stmt.tokensOfInit, Stmt.tokens, List.length_cons, List.length_append,
    List.length_nil] at hn
  obtain ⟨n, rfl⟩ : ∃ k, n = k + 2 := ⟨n - 2, by omega⟩
  obtain ⟨c, hc, hrun⟩ := he.closed (n := n) (by omega) (Nat.le_refl _) (by decide)
    (u := .symbol .semicolon) rfl us es
  simp only [Stmt.tokensOfInit, Stmt.tokens, List.cons_append, List.append_assoc, List.nil_append]
  exact forInit_declare hx (by simp) hc hrun

theorem Stmt.rereadsInit_expr {literal : String} (hp : Printable e.nodes)
    (he : e.Rereads ({} :: fs)) (hcheck : Frames.checkTarget ({} :: fs) e.target? = []) :
    Stmt.RereadsInit fs (some (.expr p literal e)) := by
  intro n hn us es
  simp only [Stmt.tokensOfInit, Stmt.tokens, List.length_cons, List.length_append,
    List.length_nil] at hn
  obtain ⟨n, rfl⟩ : ∃ k, n = k + 2 := ⟨n - 2, by omega⟩
  obtain ⟨c, -, hrun⟩ := he.closed (n := n) (by omega) (Nat.le_refl _) (by decide)
    (u := .symbol .semicolon) rfl us es
  obtain ⟨t, ts, hts, hpos, hstart, -⟩ := e.tokens_eq_cons hp
  have hcheck' : Frames.checkTarget ({} :: fs) (e.mark .printed).target? = [] := by
    rw [Expr.target?_mark, Frames.checkTarget_map, hcheck]
    rfl
  simp only [Stmt.tokensOfInit, Stmt.markOption, Stmt.tokens, Stmt.mark, Marking.printed_pos,
    Marking.printed_literal hts, List.cons_append, List.append_assoc, hts, List.nil_append]
    at hrun ⊢
  rw [← hpos]
  exact forInit_expr hstart hcheck' hrun

theorem Expr.forCondition_run {e : Option Expr} (hp : Printable (Expr.nodesOfOption e))
    (he : ∀ c ∈ e, c.Rereads fs) (hn : 16 * ((Expr.tokensOfOption e).length + 1) ≤ n)
    (us : List Token) (es : List ParseError) :
    forCondition n fs ⟨.ofTokens (Expr.tokensOfOption e ++ .symbol .semicolon :: us), es⟩ =
      .ok (Expr.markOption .printed e) ⟨⟨.symbol .semicolon, us⟩, es⟩ := by
  obtain ⟨n, rfl⟩ : ∃ k, n = k + 1 := ⟨n - 1, by omega⟩
  cases e with
  | none => exact forCondition_none
  | some e =>
    simp only [Expr.tokensOfOption] at hn ⊢
    obtain ⟨c, -, hrun⟩ := (he e rfl).closed (n := n) (by omega) (Nat.le_refl _) (by decide)
      (u := .symbol .semicolon) rfl us es
    obtain ⟨t, ts, hts, -, hstart, -⟩ := e.tokens_eq_cons hp
    rw [hts] at hrun ⊢
    exact forCondition_some hstart hrun

theorem Expr.forUpdate_run {e : Option Expr} (hp : Printable (Expr.nodesOfOption e))
    (he : ∀ c ∈ e, c.Rereads fs) (hcheck : Frames.checkTarget fs (e.bind Expr.target?) = [])
    (hn : 16 * ((Expr.tokensOfOption e).length + 1) ≤ n) (us : List Token) (es : List ParseError) :
    forUpdate n fs ⟨.ofTokens (Expr.tokensOfOption e ++ .symbol .rparen :: us), es⟩ =
      .ok (Expr.markOption .printed e) ⟨⟨.symbol .rparen, us⟩, es⟩ := by
  obtain ⟨n, rfl⟩ : ∃ k, n = k + 1 := ⟨n - 1, by omega⟩
  cases e with
  | none => exact forUpdate_none
  | some e =>
    simp only [Expr.tokensOfOption] at hn ⊢
    obtain ⟨c, -, hrun⟩ := (he e rfl).closed (n := n) (by omega) (Nat.le_refl _) (by decide)
      (u := .symbol .rparen) rfl us es
    obtain ⟨t, ts, hts, -, hstart, -⟩ := e.tokens_eq_cons hp
    have hcheck' : Frames.checkTarget fs (e.mark .printed).target? = [] := by
      rw [Expr.target?_mark, Frames.checkTarget_map]
      simpa using hcheck
    rw [hts] at hrun ⊢
    exact forUpdate_some hstart hcheck' hrun

theorem Stmt.Rereads.for {i : Option Stmt} {c u : Option Expr} {b : Block}
    (hpc : Printable (Expr.nodesOfOption c)) (hpu : Printable (Expr.nodesOfOption u)) (hi : Stmt.RereadsInit fs i)
    (hc : ∀ e ∈ c, e.Rereads ((i.map (Frame.add {})).getD {} :: fs))
    (hu : ∀ e ∈ u, e.Rereads ((i.map (Frame.add {})).getD {} :: fs))
    (hcheck : Frames.checkTarget ((i.map (Frame.add {})).getD {} :: fs)
      (u.bind Expr.target?) = [])
    (hb : b.Rereads ((i.map (Frame.add {})).getD {} :: fs) []) :
    (Stmt.for p i c u b).Rereads fs := by
  intro n hn us es
  simp only [Stmt.tokens, List.length_cons, List.length_append] at hn
  obtain ⟨n, rfl⟩ : ∃ k, n = k + 2 := ⟨n - 2, by omega⟩
  refine ⟨.symbol .rbrace, ?_⟩
  have hown : ((Stmt.markOption .printed i).map (Frame.add {})).getD {} =
      (i.map (Frame.add {})).getD {} := by
    cases i <;> simp
  rw [← hown] at hc hu hcheck hb
  have hbody := hb n (by omega) us es
  have hupdate := Expr.forUpdate_run hpu hu hcheck (n := n) (by omega) (b.tokens ++ us) es
  have hcond := Expr.forCondition_run hpc hc (n := n) (by omega)
    (Expr.tokensOfOption u ++ .symbol .rparen :: (b.tokens ++ us)) es
  have hinit := hi n (by omega) (Expr.tokensOfOption c ++ .symbol .semicolon ::
    (Expr.tokensOfOption u ++ .symbol .rparen :: (b.tokens ++ us))) es
  rw [Block.tokens_append] at hupdate hcond hinit
  simp only [Stmt.tokens, List.cons_append, List.append_assoc, Block.tokens_append]
  exact statement_for (by simp) (by simp) (by simp) hinit hcond hupdate hbody

end Clauses

/-! ## Trees -/

/-- The expressions behind the first, up to the closing token. -/
def Expr.RereadsBehind (fs : Frames) (args : List Expr) : Prop :=
  ∀ n, 16 * (Expr.tokensBehind args).length < n → ∀ close : Kind, close.isClosing = true →
    close ≠ .comma → ∀ c us es,
      moreItems n fs close ⟨⟨c, Expr.tokensBehind args ++ .symbol close :: us⟩, es⟩ =
        .ok (Expr.markAll .printed args) ⟨⟨.symbol close, us⟩, es⟩

/-- A closing token stands behind the last of the expressions, and a comma behind the others. -/
theorem Expr.tokensBehind_append (args : List Expr) {close : Kind} (h : close.isClosing = true)
    (us : List Token) : ∃ u vs, Expr.tokensBehind args ++ .symbol close :: us = u :: vs ∧
      u.kind.isClosing = true := by
  cases args with
  | nil => exact ⟨_, _, rfl, h⟩
  | cons e args => exact ⟨_, _, rfl, rfl⟩

theorem Expr.rereadsAll_cons {fs : Frames} {e : Expr} {args : List Expr} (hp : Printable e.nodes)
    (he : e.Rereads fs) (hargs : Expr.RereadsBehind fs args) : Expr.RereadsAll fs (e :: args) := by
  intro n hn close hclose hcomma c us es
  simp only [Expr.tokensOfAll, List.length_append] at hn
  obtain ⟨t, ts, hts, -, hstart, -⟩ := e.tokens_eq_cons hp
  obtain ⟨u, vs, hvs, hu⟩ := Expr.tokensBehind_append args hclose us
  have hlen : 0 < e.tokens.length := by simp [hts]
  obtain ⟨n, rfl⟩ : ∃ k, n = k + 1 := ⟨n - 1, by omega⟩
  obtain ⟨d, -, hrun⟩ := he.closed (n := n) (by omega) (Nat.le_refl _) (by decide) hu vs es
  have hmore := hargs n (by omega) close hclose hcomma d us es
  have hk : t.kind ≠ close := by
    rintro rfl
    revert hstart hclose
    cases t.kind <;> simp [Kind.startsExpr, Kind.isClosing]
  rw [← hvs, hts] at hrun
  rw [Expr.tokensOfAll, List.append_assoc, hts]
  exact items_cons hk hrun hmore

theorem Expr.rereadsBehind_cons {fs : Frames} {e : Expr} {args : List Expr}
    (he : e.Rereads fs) (hargs : Expr.RereadsBehind fs args) :
    Expr.RereadsBehind fs (e :: args) := by
  intro n hn close hclose hcomma c us es
  simp only [Expr.tokensBehind, List.length_cons, List.length_append] at hn
  obtain ⟨u, vs, hvs, hu⟩ := Expr.tokensBehind_append args hclose us
  obtain ⟨n, rfl⟩ : ∃ k, n = k + 1 := ⟨n - 1, by omega⟩
  obtain ⟨d, -, hrun⟩ := he.closed (n := n) (by omega) (Nat.le_refl _) (by decide) hu vs es
  have hmore := hargs n (by omega) close hclose hcomma d us es
  rw [← hvs] at hrun
  rw [Expr.tokensBehind, List.cons_append, List.append_assoc]
  exact moreItems_cons (by simp) hrun hmore

theorem Expr.rereadsPairs_cons {fs : Frames} {k v : Expr} {ps : List (Expr × Expr)}
    (hp : Printable k.nodes) (hk : k.Rereads fs) (hv : v.Rereads fs)
    (hps : Expr.RereadsPairs fs ps) : Expr.RereadsPairs fs ((k, v) :: ps) := by
  intro n hn c us es
  simp only [Expr.tokensOfPairs, List.length_append, List.length_cons] at hn
  obtain ⟨t, ts, hts, -, hstart, -⟩ := k.tokens_eq_cons hp
  obtain ⟨n, rfl⟩ : ∃ k, n = k + 1 := ⟨n - 1, by omega⟩
  have hbrace : t.kind ≠ .rbrace := by
    intro h
    simp [h, Kind.startsExpr] at hstart
  cases ps with
  | nil =>
    simp only [Expr.tokensOfPairsBehind, List.length_nil] at hn
    obtain ⟨d, -, hvrun⟩ := hv.closed (n := n) (by omega) (Nat.le_refl _) (by decide)
      (u := .symbol .rbrace) rfl us es
    obtain ⟨d', -, hkrun⟩ := hk.closed (n := n) (by omega) (Nat.le_refl _) (by decide)
      (u := .symbol .colon) rfl (v.tokens ++ .symbol .rbrace :: us) es
    have hmore := hps n (by simp [Expr.tokensOfPairs]; omega) d us es
    rw [hts] at hkrun
    simp only [Expr.tokensOfPairs, Expr.tokensOfPairsBehind, List.append_assoc, List.cons_append,
      List.append_nil, hts]
    exact pairs_last hbrace (by simp) hkrun hvrun rfl hmore
  | cons q qs =>
    obtain ⟨k', v'⟩ := q
    have hbehind : Expr.tokensOfPairsBehind ((k', v') :: qs) =
        .symbol .comma :: Expr.tokensOfPairs ((k', v') :: qs) := rfl
    rw [hbehind, List.length_cons] at hn
    obtain ⟨d, -, hvrun⟩ := hv.closed (n := n) (by omega) (Nat.le_refl _) (by decide)
      (u := .symbol .comma) rfl
      (Expr.tokensOfPairs ((k', v') :: qs) ++ .symbol .rbrace :: us) es
    obtain ⟨d', -, hkrun⟩ := hk.closed (n := n) (by omega) (Nat.le_refl _) (by decide)
      (u := .symbol .colon) rfl (v.tokens ++ .symbol .comma ::
        (Expr.tokensOfPairs ((k', v') :: qs) ++ .symbol .rbrace :: us)) es
    have hmore := hps n (by omega) (.symbol .comma) us es
    rw [hts] at hkrun
    rw [Expr.tokensOfPairs, hbehind, hts]
    simp only [List.append_assoc, List.cons_append]
    exact pairs_cons hbrace (by simp) hkrun hvrun hmore

/-- The statements of a list with the frame `own` so far, up to the closing brace. -/
def Stmt.RereadsAll (fs : Frames) (own : Frame) (ss : List Stmt) : Prop :=
  ∀ n, 16 * (Stmt.tokensOfAll ss).length < n → ∀ us es,
    blockStatements n fs own ⟨.ofTokens (Stmt.tokensOfAll ss ++ .symbol .rbrace :: us), es⟩ =
      .ok (Stmt.markAll .printed ss) ⟨⟨.symbol .rbrace, us⟩, es⟩

theorem Stmt.rereadsAll_cons {fs : Frames} {own : Frame} {s : Stmt} {ss : List Stmt}
    (hp : Printable s.nodes) (hs : s.Rereads (own :: fs)) (hcheck : Frames.check own fs s = [])
    (hss : Stmt.RereadsAll fs (own.add s) ss) : Stmt.RereadsAll fs own (s :: ss) := by
  intro n hn us es
  simp only [Stmt.tokensOfAll, List.length_append] at hn
  obtain ⟨t, ts, hts, hk⟩ := s.tokens_eq_cons hp
  have hlen : 0 < s.tokens.length := by simp [hts]
  obtain ⟨n, rfl⟩ : ∃ k, n = k + 1 := ⟨n - 1, by omega⟩
  obtain ⟨c, hrun⟩ := hs n (by omega) (Stmt.tokensOfAll ss ++ .symbol .rbrace :: us) es
  have hcheck' : Frames.check own fs (s.mark .printed) = [] := by
    rw [Frames.check_mark, hcheck]
    rfl
  have hmore := hss n (by omega) us es
  rw [← Frame.add_mark .printed] at hmore
  rw [hts] at hrun
  rw [Stmt.tokensOfAll, List.append_assoc, hts]
  exact blockStatements_cons hk (by simp) hrun hcheck' hmore

mutual

theorem Expr.reread : ∀ e : Expr, Printable e.nodes → ∀ fs : Frames, e.scopeErrors fs = [] →
    e.Rereads fs
  | .ident _ x, h, fs, _ => by
    simp only [Expr.nodes, Printable.cons_iff] at h
    exact .ident h.1.1
  | .int _ written value, h, fs, _ => by
    simp only [Expr.nodes, Printable.cons_iff] at h
    refine .leaf rfl (by simp) fun n u us es _ => ?_
    simp [operand, integer, Reader.run_bind, h.1.1.2, Expr.mark]
  | .float _ written value, h, fs, _ => by
    simp only [Expr.nodes, Printable.cons_iff] at h
    refine .leaf rfl (by simp) fun n u us es _ => ?_
    simp [operand, Parse.float, Reader.run_bind, h.1.1.2, Expr.mark]
  | .bool _ value, _, fs, _ => by
    refine .leaf rfl (by cases value <;> simp) fun n u us es _ => ?_
    cases value <;> simp [operand, Reader.run_bind, Expr.mark]
  | .null _, _, fs, _ => .leaf rfl (by simp) fun n u us es _ => by
    simp [operand, Reader.run_bind, Expr.mark]
  | .break _, _, fs, _ => .leaf rfl (by simp) fun n u us es _ => by
    simp [operand, Reader.run_bind, Expr.mark]
  | .continue _, _, fs, _ => .leaf rfl (by simp) fun n u us es _ => by
    simp [operand, Reader.run_bind, Expr.mark]
  | .string _ value, _, fs, _ => .leaf rfl (by simp) fun n u us es _ => by
    simp [operand, Reader.run_bind, Expr.mark]
  | .array _ args, h, fs, herr => by
    simp only [Expr.nodes, Printable.cons_iff] at h
    exact .array (Expr.rereadAll args h.2 fs herr)
  | .hash _ ps, h, fs, herr => by
    simp only [Expr.nodes, Printable.cons_iff] at h
    exact .hash (Expr.rereadPairs ps h.2 fs herr)
  | .func _ xs b, h, fs, herr => by
    simp only [Expr.nodes, Printable.cons_iff] at h
    exact .func h.1.1 (Block.reread b h.2 fs xs herr)
  | .unary _ op e, h, fs, herr => by
    simp only [Expr.nodes, Printable.cons_iff] at h
    exact .unary (Expr.reread e h.2 fs herr)
  | .binary _ op l r, h, fs, herr => by
    simp only [Expr.nodes, Printable.cons_iff, Printable.append_iff] at h
    obtain ⟨hl, hr⟩ := List.append_eq_nil_iff.mp herr
    exact .binary (Expr.reread l h.2.1 fs hl) (by simpa [Node.plainHead] using h.1.2)
      (Expr.reread r h.2.2 fs hr)
  | .cond _ none b a, h, fs, _ => by
    simp only [Expr.nodes, Printable.cons_iff] at h
    simpa [Node.WellFormed] using h.1.1
  | .cond _ (some e) b none, h, fs, herr => by
    simp only [Expr.nodes, Printable.cons_iff, Printable.append_iff] at h
    simp only [Expr.scopeErrors, List.append_eq_nil_iff] at herr
    exact .cond_none (Expr.reread e h.2.1 fs herr.1) (Block.reread b h.2.2.1 fs [] herr.2.1)
  | .cond _ (some e) b (some a), h, fs, herr => by
    simp only [Expr.nodes, Printable.cons_iff, Printable.append_iff] at h
    simp only [Expr.scopeErrors, List.append_eq_nil_iff] at herr
    exact .cond_some (Expr.reread e h.2.1 fs herr.1) (Block.reread b h.2.2.1 fs [] herr.2.1)
      (Block.reread a h.2.2.2 fs [] herr.2.2)
  | .call _ l args, h, fs, herr => by
    simp only [Expr.nodes, Printable.cons_iff, Printable.append_iff] at h
    obtain ⟨hl, hargs⟩ := List.append_eq_nil_iff.mp herr
    exact .call (Expr.reread l h.2.1 fs hl) (by simpa [Node.plainHead] using h.1.2)
      (Expr.rereadAll args h.2.2 fs hargs)
  | .index _ l r, h, fs, herr => by
    simp only [Expr.nodes, Printable.cons_iff, Printable.append_iff] at h
    obtain ⟨hl, hr⟩ := List.append_eq_nil_iff.mp herr
    exact .index (Expr.reread l h.2.1 fs hl) (by simpa [Node.plainHead] using h.1.2)
      (Expr.reread r h.2.2 fs hr)
  | .member _ l _ x, h, fs, herr => by
    simp only [Expr.nodes, Printable.cons_iff, Node.plainHead, Bool.and_eq_true,
      Bool.not_eq_true'] at h
    exact .member (Expr.reread l h.2 fs herr) h.1.2.1 h.1.1
  | .method _ l _ x _ args, h, fs, herr => by
    simp only [Expr.nodes, Printable.cons_iff, Printable.append_iff, Node.plainHead,
      Bool.and_eq_true, Bool.not_eq_true'] at h
    obtain ⟨hl, hargs⟩ := List.append_eq_nil_iff.mp herr
    exact .method (Expr.reread l h.2.1 fs hl) h.1.2.1 h.1.1 (Expr.rereadAll args h.2.2 fs hargs)
  | .assign _ x e, h, fs, herr => by
    simp only [Expr.nodes, Printable.cons_iff] at h
    exact .assign h.1.1 (Expr.reread e h.2 fs herr)
  | .step _ op x true, h, fs, _ => by
    simp only [Expr.nodes, Printable.cons_iff] at h
    exact .stepBefore h.1.1
  | .step _ op x false, h, fs, _ => by
    simp only [Expr.nodes, Printable.cons_iff] at h
    exact .stepBehind h.1.1

theorem Expr.rereadAll : ∀ args : List Expr, Printable (Expr.nodesOfAll args) → ∀ fs : Frames,
    Expr.scopeErrorsOfAll fs args = [] → Expr.RereadsAll fs args
  | [], _, fs, _ => by
    intro n hn close _ _ c us es
    obtain ⟨n, rfl⟩ : ∃ k, n = k + 1 := ⟨n - 1, by omega⟩
    exact items_nil rfl
  | e :: args, h, fs, herr => by
    simp only [Expr.nodesOfAll, Printable.append_iff] at h
    obtain ⟨he, hargs⟩ := List.append_eq_nil_iff.mp herr
    exact Expr.rereadsAll_cons h.1 (Expr.reread e h.1 fs he) (Expr.rereadBehind args h.2 fs hargs)

theorem Expr.rereadBehind : ∀ args : List Expr, Printable (Expr.nodesOfAll args) → ∀ fs : Frames,
    Expr.scopeErrorsOfAll fs args = [] → Expr.RereadsBehind fs args
  | [], _, fs, _ => by
    intro n hn close _ hcomma c us es
    obtain ⟨n, rfl⟩ : ∃ k, n = k + 1 := ⟨n - 1, by omega⟩
    exact moreItems_nil rfl hcomma
  | e :: args, h, fs, herr => by
    simp only [Expr.nodesOfAll, Printable.append_iff] at h
    obtain ⟨he, hargs⟩ := List.append_eq_nil_iff.mp herr
    exact Expr.rereadsBehind_cons (Expr.reread e h.1 fs he) (Expr.rereadBehind args h.2 fs hargs)

theorem Expr.rereadPairs : ∀ ps : List (Expr × Expr), Printable (Expr.nodesOfPairs ps) →
    ∀ fs : Frames, Expr.scopeErrorsOfPairs fs ps = [] → Expr.RereadsPairs fs ps
  | [], _, fs, _ => by
    intro n hn c us es
    obtain ⟨n, rfl⟩ : ∃ k, n = k + 1 := ⟨n - 1, by omega⟩
    exact pairs_nil
  | (k, v) :: ps, h, fs, herr => by
    simp only [Expr.nodesOfPairs, Printable.append_iff] at h
    simp only [Expr.scopeErrorsOfPairs, List.append_eq_nil_iff] at herr
    exact Expr.rereadsPairs_cons h.1 (Expr.reread k h.1 fs herr.1)
      (Expr.reread v h.2.1 fs herr.2.1) (Expr.rereadPairs ps h.2.2 fs herr.2.2)

theorem Expr.rereadOption : ∀ e : Option Expr, Printable (Expr.nodesOfOption e) → ∀ fs : Frames,
    Expr.scopeErrorsOfOption fs e = [] → ∀ c ∈ e, c.Rereads fs
  | none, _, _, _ => nofun
  | some e, h, fs, herr => by
    rintro c ⟨⟩
    exact Expr.reread e h fs herr

theorem Block.reread : ∀ b : Block, Printable b.nodes → ∀ (fs : Frames) (xs : List String),
    b.scopeErrors fs xs = [] → b.Rereads fs xs
  | .mk p ss, h, fs, xs, herr => by
    have hss := Stmt.rereadAll ss h fs { params := xs } herr
    intro n hn us es
    simp only [Block.tokens, List.length_cons, List.length_append, List.length_nil] at hn
    obtain ⟨n, rfl⟩ : ∃ k, n = k + 1 := ⟨n - 1, by omega⟩
    exact block_braces (by simp) (hss n (by omega) us es)

theorem Stmt.reread : ∀ s : Stmt, Printable s.nodes → ∀ fs : Frames, s.scopeErrors fs = [] →
    s.Rereads fs
  | .expr _ _ e, h, fs, herr => by
    simp only [Stmt.nodes, Printable.cons_iff] at h
    exact .expr h.2 (Expr.reread e h.2 fs herr)
  | .declare _ _ x e, h, fs, herr => by
    simp only [Stmt.nodes, Printable.cons_iff] at h
    exact .declare h.1.1 (Expr.reread e h.2 fs herr)
  | .return _ none, _, fs, _ => .return_none
  | .return _ (some e), h, fs, herr => by
    simp only [Stmt.nodes, Printable.cons_iff] at h
    exact .return_some h.2 (Expr.reread e h.2 fs herr)
  | .while _ none b, h, fs, _ => by
    simp only [Stmt.nodes, Printable.cons_iff] at h
    simpa [Node.WellFormed] using h.1.1
  | .while _ (some e) b, h, fs, herr => by
    simp only [Stmt.nodes, Printable.cons_iff, Printable.append_iff] at h
    obtain ⟨he, hb⟩ := List.append_eq_nil_iff.mp herr
    exact .while_some (Expr.reread e h.2.1 fs he) (Block.reread b h.2.2 fs [] hb)
  | .for _ i c u b, h, fs, herr => by
    simp only [Stmt.nodes, Printable.cons_iff, Printable.append_iff] at h
    simp only [Stmt.scopeErrors, List.append_eq_nil_iff] at herr
    exact .for h.2.2.1 h.2.2.2.1 (Stmt.rereadInit i h.2.1 h.1.1 fs herr.1)
      (Expr.rereadOption c h.2.2.1 _ herr.2.1) (Expr.rereadOption u h.2.2.2.1 _ herr.2.2.1)
      herr.2.2.2.1 (Block.reread b h.2.2.2.2 _ [] herr.2.2.2.2)
  | .func _ x xs b, h, fs, herr => by
    simp only [Stmt.nodes, Printable.cons_iff] at h
    exact .func h.1.1.1 h.1.1.2 (Block.reread b h.2 fs xs herr)

theorem Stmt.rereadAll : ∀ ss : List Stmt, Printable (Stmt.nodesOfAll ss) →
    ∀ (fs : Frames) (own : Frame), Stmt.scopeErrorsOfAll fs own ss = [] →
      Stmt.RereadsAll fs own ss
  | [], _, fs, own, _ => by
    intro n hn us es
    obtain ⟨n, rfl⟩ : ∃ k, n = k + 1 := ⟨n - 1, by omega⟩
    exact blockStatements_nil
  | s :: ss, h, fs, own, herr => by
    simp only [Stmt.nodesOfAll, Printable.append_iff] at h
    simp only [Stmt.scopeErrorsOfAll, List.append_eq_nil_iff] at herr
    exact Stmt.rereadsAll_cons h.1 (Stmt.reread s h.1 _ herr.1) herr.2.1
      (Stmt.rereadAll ss h.2 fs _ herr.2.2)

theorem Stmt.rereadInit : ∀ s : Option Stmt, Printable (Stmt.nodesOfOption s) →
    (∀ c ∈ s, c.isClause = true) → ∀ fs : Frames, Stmt.scopeErrorsOfInit fs s = [] →
      Stmt.RereadsInit fs s
  | none, _, _, fs, _ => Stmt.rereadsInit_none
  | some (.expr _ _ e), h, _, fs, herr => by
    simp only [Stmt.nodesOfOption, Stmt.nodes, Printable.cons_iff] at h
    obtain ⟨he, hcheck⟩ := List.append_eq_nil_iff.mp herr
    exact Stmt.rereadsInit_expr h.2 (Expr.reread e h.2 _ he) hcheck
  | some (.declare _ _ x e), h, _, fs, herr => by
    simp only [Stmt.nodesOfOption, Stmt.nodes, Printable.cons_iff] at h
    obtain ⟨he, -⟩ := List.append_eq_nil_iff.mp herr
    exact Stmt.rereadsInit_declare h.1.1 (Expr.reread e h.2 _ he)
  | some (.return _ _), _, hclause, _, _ | some (.while _ _ _), _, hclause, _, _
  | some (.for _ _ _ _ _), _, hclause, _, _ | some (.func _ _ _ _), _, hclause, _, _ => by
    simp [Stmt.isClause] at hclause

end

/-- The statements of a program, up to the last token. -/
theorem Stmt.reread_programStatements : ∀ {ss : List Stmt}, Printable (Stmt.nodesOfAll ss) →
    ∀ {own : Frame}, Stmt.scopeErrorsOfAll [] own ss = [] → ∀ {n : Nat},
      16 * (Stmt.tokensOfAll ss).length < n → ∀ es,
        programStatements n own ⟨.ofTokens (Stmt.tokensOfAll ss ++ [.last]), es⟩ =
          .ok (Stmt.markAll .printed ss) ⟨⟨.last, []⟩, es⟩
  | [], _, own, _, n + 1, _, es => by
    simp [programStatements, Reader.run_bind, Stmt.tokensOfAll, Stream.ofTokens, Token.last,
      Stmt.markAll]
  | s :: ss, h, own, herr, n + 1, hn, es => by
    simp only [Stmt.nodesOfAll, Printable.append_iff] at h
    simp only [Stmt.scopeErrorsOfAll, List.append_eq_nil_iff] at herr
    simp only [Stmt.tokensOfAll, List.length_append] at hn
    obtain ⟨t, ts, hts, hk⟩ := s.tokens_eq_cons h.1
    have hlen : 0 < s.tokens.length := by simp [hts]
    obtain ⟨c, hrun⟩ := Stmt.reread s h.1 _ herr.1 n (by omega) (Stmt.tokensOfAll ss ++ [.last]) es
    have hcheck : Frames.check own [] (s.mark .printed) = [] := by
      rw [Frames.check_mark, herr.2.1]
      rfl
    have hmore := Stmt.reread_programStatements h.2 herr.2.2 (n := n) (by omega) es
    rw [← Frame.add_mark .printed] at hmore
    rw [hts] at hrun
    rw [Stmt.tokensOfAll, List.append_assoc, hts]
    exact programStatements_cons hk.2 (by simp) hrun hcheck hmore

/-- The tokens of a printable program that breaks no rule on names are read as that program, and
nothing is reported. -/
theorem Program.reread {p : Program} (h : Printable p.nodes) (herr : p.scopeErrors = []) :
    Parse.run (Parse.fuel p.tokens) p.tokens = some (p.mark .printed, []) := by
  have hn : 16 * (Stmt.tokensOfAll p.statements).length < Parse.fuel p.tokens := by
    simp only [Parse.fuel, Program.tokens, List.length_append, List.length_cons, List.length_nil]
    omega
  have hrun := Stmt.reread_programStatements h herr hn []
  rw [← Program.tokens] at hrun
  simp [Parse.run, hrun, Program.mark]

end Vorn
