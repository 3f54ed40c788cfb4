import Vorn.Grammar.Parse
import Vorn.Proofs.Grammar.Locality

/-!
# The grammar does not look beyond a form

What an expression or a statement is read as does not depend on the tokens behind it, as long as one
token of the text follows, or the form ends with a semicolon. An expression that is read without
errors ends neither at a semicolon nor at the end, so that a look at the next token is a look into
the text.

* `Parse.locals`: every function of the grammar, by induction on the fuel;
* `Parse.follows_programStatements`: the statements of a text.
-/

namespace Vorn

/-- A token at which an expression may end. -/
abbrev Kind.Inner (k : Kind) : Prop := k ≠ .semicolon ∧ k ≠ .eof

theorem Kind.inner_of_eq {k c : Kind} (h : k = c) (hc : c.Inner) : k.Inner := h ▸ hc

namespace Parse

open Reader (FollowsAt Follows)
open Reader.FollowsAt

variable {e : Token} {new : List Token} {φ : Prop} {s : ReaderState} {n n' : Nat}

/-! ## Forms without expressions inside -/

theorem follows_moreParams : ∀ {n n' : Nat}, n ≤ n' → ∀ {φ : Prop} {s : ReaderState},
    (φ → s.stream.current.kind ≠ .semicolon) →
    FollowsAt e new φ s (moreParams n) (moreParams n') fun _ _ => True
  | 0, _, _, _, _, _ => outOfFuel
  | n + 1, n' + 1, hn, φ, s, hs => by
    rw [moreParams, moreParams]
    refine (skipPeek .comma hs).bind fun b s₁ => ite (fun _ => ?_) fun _ => ?_
    · refine (expectPeek .ident).bind fun _ s₂ => current_bind ?_
      refine (follows_moreParams (Nat.le_of_succ_le_succ hn) fun h => ?_).bind fun xs s₃ =>
        pure fun _ => trivial
      rw [h.2]
      decide
    · exact (expectPeek .rparen).bind fun _ s₂ => pure fun _ => trivial

theorem follows_params (hn : n ≤ n') (hs : φ → s.stream.current.kind ≠ .semicolon) :
    FollowsAt e new φ s (params n) (params n') fun _ _ => True := by
  rw [params, params]
  refine (skipPeek .rparen hs).bind fun b s₁ => ite (fun _ => pure fun _ => trivial) fun _ => ?_
  refine (expectPeek .ident).bind fun _ s₂ => current_bind ?_
  refine (follows_moreParams hn fun h => ?_).bind fun xs s₃ => pure fun _ => trivial
  rw [h.2]
  decide

theorem follows_integer (t : Token) (hs : s.stream.current.kind.Inner) :
    FollowsAt e new φ s (integer t) (integer t) fun _ => Kind.Inner := by
  unfold integer
  split
  · exact pure fun _ => hs
  · exact fail _ _ _ _

theorem follows_stepBefore (t : Token) (op : StepOp) :
    FollowsAt e new φ s (stepBefore t op) (stepBefore t op) fun _ => Kind.Inner := by
  refine advance.bind fun _ s₁ => current_bind (ite (fun hk => ?_) fun _ => fail _ _ _ _)
  exact pure fun _ => Kind.inner_of_eq hk (by decide)

theorem follows_stepBehind (t : Token) (op : StepOp) (left : Expr)
    (hs : s.stream.current.kind.Inner) :
    FollowsAt e new φ s (stepBehind t op left) (stepBehind t op left) fun _ => Kind.Inner := by
  unfold stepBehind
  split
  · exact pure fun _ => hs
  · exact fail _ _ _ _

/-! ## The grammar -/

theorem follows_listed {fs fs' : Frames} {own own' : Frame} {one one' : Reader (Option Stmt)}
    {rest rest' : Frame → Reader (List Stmt)} {P : Option Stmt → Kind → Prop}
    {Q : List Stmt → Kind → Prop} (hone : FollowsAt e new φ s one one' P)
    (hrest : ∀ {φ : Prop} own own' s, FollowsAt e new φ s (rest own) (rest' own') fun _ k =>
      ∀ ss, Q ss k) :
    FollowsAt e new φ s (listed fs own one rest) (listed fs' own' one' rest') Q := by
  refine (attempt hone).bind fun o s₁ => ?_
  rcases o with _ | _ | x
  · exact advance.bind fun _ s₂ => (hrest own own' s₂).weaken fun ss k h => h ss
  · exact advance.bind fun _ s₂ => (hrest own own' s₂).weaken fun ss k h => h ss
  · refine (report _ _).bind fun _ s₂ => advance.bind fun _ s₃ => ?_
    exact (hrest _ _ s₃).bind fun ss s₄ => pure fun h => h.2 _

/-- Every function of the grammar with the fuel `n`, and with the fuel `n'` and other frames. -/
structure Local (e : Token) (new : List Token) (n n' : Nat) : Prop where
  le : n ≤ n'
  expression : ∀ {φ : Prop} fs fs' level,
    Follows e new φ (expression n fs level) (expression n' fs' level) fun _ => Kind.Inner
  extend : ∀ {φ : Prop} fs fs' level left s, (φ → s.stream.current.kind.Inner) →
    FollowsAt e new φ s (extend n fs level left) (extend n' fs' level left) fun _ => Kind.Inner
  continuation : ∀ {φ : Prop} fs fs' left,
    Follows e new φ (continuation n fs left) (continuation n' fs' left) fun _ => Kind.Inner
  operand : ∀ {φ : Prop} fs fs',
    Follows e new φ (operand n fs) (operand n' fs') fun _ => Kind.Inner
  unaryOperand : ∀ {φ : Prop} fs fs',
    Follows e new φ (unaryOperand n fs) (unaryOperand n' fs') fun _ => Kind.Inner
  nameOrAssign : ∀ {φ : Prop} fs fs' t s, (φ → s.stream.current.kind.Inner) →
    FollowsAt e new φ s (nameOrAssign n fs t) (nameOrAssign n' fs' t) fun _ => Kind.Inner
  items : ∀ {φ : Prop} fs fs' close s, (φ → s.stream.current.kind ≠ .semicolon) →
    FollowsAt e new φ s (items n fs close) (items n' fs' close) fun _ k => k = close
  moreItems : ∀ {φ : Prop} fs fs' close s, (φ → s.stream.current.kind ≠ .semicolon) →
    FollowsAt e new φ s (moreItems n fs close) (moreItems n' fs' close) fun _ k => k = close
  pairs : ∀ {φ : Prop} fs fs' s, (φ → s.stream.current.kind ≠ .semicolon) →
    FollowsAt e new φ s (pairs n fs) (pairs n' fs') fun _ k => k = .rbrace
  conditional : ∀ {φ : Prop} fs fs',
    Follows e new φ (conditional n fs) (conditional n' fs') fun _ => Kind.Inner
  alternative : ∀ {φ : Prop} fs fs' s, (φ → s.stream.current.kind ≠ .semicolon) →
    FollowsAt e new φ s (alternative n fs) (alternative n' fs') fun _ => Kind.Inner
  block : ∀ {φ : Prop} fs fs' ps,
    Follows e new φ (block n fs ps) (block n' fs' ps) fun _ k => k = .rbrace
  blockStatements : ∀ {φ : Prop} fs fs' own own',
    Follows e new φ (blockStatements n fs own) (blockStatements n' fs' own') fun _ k =>
      k = .rbrace ∨ k = .eof
  statement : ∀ {φ : Prop} fs fs',
    Follows e new φ (statement n fs) (statement n' fs') fun _ k => k ≠ .eof
  declaration : ∀ {φ : Prop} fs fs' isConst,
    Follows e new φ (declaration n fs isConst) (declaration n' fs' isConst) fun _ k => k ≠ .eof
  returnStatement : ∀ {φ : Prop} fs fs' s, (φ → s.stream.current.kind.Inner) →
    FollowsAt e new φ s (returnStatement n fs) (returnStatement n' fs') fun _ k => k ≠ .eof
  expressionStatement : ∀ {φ : Prop} fs fs',
    Follows e new φ (expressionStatement n fs) (expressionStatement n' fs') fun _ k => k ≠ .eof
  functionStatement : ∀ {φ : Prop} fs fs',
    Follows e new φ (functionStatement n fs) (functionStatement n' fs') fun _ k => k ≠ .eof
  whileStatement : ∀ {φ : Prop} fs fs',
    Follows e new φ (whileStatement n fs) (whileStatement n' fs') fun _ k => k ≠ .eof
  forStatement : ∀ {φ : Prop} fs fs',
    Follows e new φ (forStatement n fs) (forStatement n' fs') fun _ k => k ≠ .eof
  forInit : ∀ {φ : Prop} fs fs', Follows e new φ (forInit n fs) (forInit n' fs') fun _ _ => True
  forCondition : ∀ {φ : Prop} fs fs',
    Follows e new φ (forCondition n fs) (forCondition n' fs') fun _ _ => True
  forUpdate : ∀ {φ : Prop} fs fs',
    Follows e new φ (forUpdate n fs) (forUpdate n' fs') fun _ _ => True

theorem local_zero (n' : Nat) : Local e new 0 n' := by
  constructor
  case le => exact Nat.zero_le n'
  all_goals intros
  all_goals first | exact outOfFuel | exact fun _ => outOfFuel

namespace Local

variable (ih : Local e new n n') (fs fs' : Frames)

include ih

theorem expression_succ (level : Nat) : Follows e new φ (Parse.expression (n + 1) fs level)
    (Parse.expression (n' + 1) fs' level) fun _ => Kind.Inner := by
  intro s
  rw [Parse.expression, Parse.expression]
  exact (ih.operand fs fs' s).bind fun left s₁ => ih.extend fs fs' level left s₁ And.right

theorem extend_succ (level : Nat) (left : Expr) (s : ReaderState)
    (hs : φ → s.stream.current.kind.Inner) :
    FollowsAt e new φ s (Parse.extend (n + 1) fs level left)
      (Parse.extend (n' + 1) fs' level left) fun _ => Kind.Inner := by
  rw [Parse.extend, Parse.extend]
  refine (peek fun hφ => (hs hφ).1).bind fun t s₁ => ite (fun _ => ?_) fun _ => ?_
  · refine advance.bind fun _ s₂ => (ih.continuation fs fs' left s₂).bind fun x s₃ => ?_
    exact ih.extend fs fs' level x s₃ And.right
  · exact pure fun h => h.2 ▸ hs h.1

theorem continuation_succ (left : Expr) :
    Follows e new φ (Parse.continuation (n + 1) fs left)
      (Parse.continuation (n' + 1) fs' left) fun _ => Kind.Inner := by
  intro s
  rw [Parse.continuation, Parse.continuation]
  refine current_bind ?_
  split
  · rename_i hk
    refine (ih.items fs fs' .rparen s fun _ => by rw [hk]; decide).bind fun es s₁ => ?_
    exact pure fun h => Kind.inner_of_eq h.2 (by decide)
  · refine advance.bind fun _ s₁ => (ih.expression fs fs' _ s₁).bind fun key s₂ => ?_
    refine (expectPeek .rbracket).bind fun _ s₃ => ?_
    exact pure fun h => Kind.inner_of_eq h.2 (by decide)
  · refine (expectPeek .ident).bind fun _ s₁ => current_bind ?_
    have hname : (φ ∧ s₁.stream.current.kind = .ident) → s₁.stream.current.kind.Inner :=
      fun h => Kind.inner_of_eq h.2 (by decide)
    refine (skipPeek .lparen fun h => (hname h).1).bind fun b s₂ => ?_
    refine ite (fun hb => current_bind ?_) fun hb => pure fun h => ?_
    · refine (ih.items fs fs' .rparen s₂ fun h => ?_).bind fun es s₃ => ?_
      · rw [h.2, if_pos hb]
        decide
      · exact pure fun h => Kind.inner_of_eq h.2 (by decide)
    · rw [h.2, if_neg hb]
      exact hname h.1
  · rename_i hk
    exact follows_stepBehind _ .increment left (Kind.inner_of_eq hk (by decide))
  · rename_i hk
    exact follows_stepBehind _ .decrement left (Kind.inner_of_eq hk (by decide))
  · split
    · refine advance.bind fun _ s₁ => (ih.expression fs fs' _ s₁).bind fun x s₂ => ?_
      exact pure And.right
    · exact fail _ _ _ _

theorem operand_succ : Follows e new φ (Parse.operand (n + 1) fs) (Parse.operand (n' + 1) fs')
    fun _ => Kind.Inner := by
  intro s
  rw [Parse.operand, Parse.operand]
  refine current_bind ?_
  have hunary : ∀ op, FollowsAt e new φ s
      (do return Expr.unary s.stream.current.pos op (← Parse.unaryOperand n fs))
      (do return Expr.unary s.stream.current.pos op (← Parse.unaryOperand n' fs'))
      fun _ => Kind.Inner :=
    fun op => (ih.unaryOperand fs fs' s).bind fun x s₁ => pure And.right
  split <;> rename_i hk
  · exact ih.nameOrAssign fs fs' _ s fun _ => Kind.inner_of_eq hk (by decide)
  · exact follows_integer _ (Kind.inner_of_eq hk (by decide))
  · exact pure fun _ => Kind.inner_of_eq hk (by decide)
  · exact pure fun _ => Kind.inner_of_eq hk (by decide)
  · exact pure fun _ => Kind.inner_of_eq hk (by decide)
  · exact pure fun _ => Kind.inner_of_eq hk (by decide)
  · exact pure fun _ => Kind.inner_of_eq hk (by decide)
  · exact pure fun _ => Kind.inner_of_eq hk (by decide)
  · exact pure fun _ => Kind.inner_of_eq hk (by decide)
  · exact hunary .not
  · exact hunary .negate
  · exact hunary .complement
  · exact follows_stepBefore _ .increment
  · exact follows_stepBefore _ .decrement
  · refine advance.bind fun _ s₁ => (attempt (ih.expression fs fs' _ s₁)).bind fun o s₂ => ?_
    refine (expectPeek .rparen).bind fun _ s₃ => ?_
    refine (require fun h => ?_).conseq id fun x k h hx => ?_
    · obtain ⟨x, rfl, -⟩ := h.1.2
      rfl
    · rw [hx.2]
      exact Kind.inner_of_eq h.2 (by decide)
  · exact ih.conditional fs fs' s
  · refine (expectPeek .lparen).bind fun _ s₁ => ?_
    refine (follows_params ih.le fun h => by rw [h.2]; decide).bind fun ps s₂ => ?_
    refine (expectPeek .lbrace).bind fun _ s₃ => (ih.block fs fs' ps s₃).bind fun b s₄ => ?_
    exact pure fun h => Kind.inner_of_eq h.2 (by decide)
  · refine (ih.items fs fs' .rbracket s fun _ => by rw [hk]; decide).bind fun es s₁ => ?_
    exact pure fun h => Kind.inner_of_eq h.2 (by decide)
  · refine (ih.pairs fs fs' s fun _ => by rw [hk]; decide).bind fun ps s₁ => ?_
    exact pure fun h => Kind.inner_of_eq h.2 (by decide)
  · exact fail _ _ _ _

theorem unaryOperand_succ : Follows e new φ (Parse.unaryOperand (n + 1) fs)
    (Parse.unaryOperand (n' + 1) fs') fun _ => Kind.Inner := by
  intro s
  rw [Parse.unaryOperand, Parse.unaryOperand]
  exact advance.bind fun _ s₁ => (ih.expression fs fs' _ s₁).weaken fun _ _ h => h

theorem nameOrAssign_succ (t : Token) (s : ReaderState) (hs : φ → s.stream.current.kind.Inner) :
    FollowsAt e new φ s (Parse.nameOrAssign (n + 1) fs t) (Parse.nameOrAssign (n' + 1) fs' t)
      fun _ => Kind.Inner := by
  rw [Parse.nameOrAssign, Parse.nameOrAssign]
  refine (peek fun hφ => (hs hφ).1).bind fun op s₁ => ?_
  cases op.kind.assignment? with
  | none => exact pure fun h => h.2 ▸ hs h.1
  | some apply =>
    refine advance.bind fun _ s₂ => advance.bind fun _ s₃ => ?_
    exact (ih.expression fs fs' _ s₃).bind fun value s₄ => pure And.right

theorem items_succ (close : Kind) (s : ReaderState)
    (hs : φ → s.stream.current.kind ≠ .semicolon) :
    FollowsAt e new φ s (Parse.items (n + 1) fs close) (Parse.items (n' + 1) fs' close)
      fun _ k => k = close := by
  rw [Parse.items, Parse.items]
  refine (skipPeek close hs).bind fun b s₁ => ite (fun hb => pure fun h => ?_) fun _ => ?_
  · rw [h.2, if_pos hb]
  · refine advance.bind fun _ s₂ => (ih.expression fs fs' _ s₂).bind fun x s₃ => ?_
    refine (ih.moreItems fs fs' close s₃ fun h => h.2.1).bind fun xs s₄ => ?_
    exact pure And.right

theorem moreItems_succ (close : Kind) (s : ReaderState)
    (hs : φ → s.stream.current.kind ≠ .semicolon) :
    FollowsAt e new φ s (Parse.moreItems (n + 1) fs close) (Parse.moreItems (n' + 1) fs' close)
      fun _ k => k = close := by
  rw [Parse.moreItems, Parse.moreItems]
  refine (skipPeek .comma hs).bind fun b s₁ => ite (fun _ => ?_) fun _ => ?_
  · refine advance.bind fun _ s₂ => (ih.expression fs fs' _ s₂).bind fun x s₃ => ?_
    refine (ih.moreItems fs fs' close s₃ fun h => h.2.1).bind fun xs s₄ => ?_
    exact pure And.right
  · exact (expectPeek close).bind fun _ s₂ => pure And.right

theorem pairs_succ (s : ReaderState) (hs : φ → s.stream.current.kind ≠ .semicolon) :
    FollowsAt e new φ s (Parse.pairs (n + 1) fs) (Parse.pairs (n' + 1) fs')
      fun _ k => k = .rbrace := by
  rw [Parse.pairs, Parse.pairs]
  refine (skipPeek .rbrace hs).bind fun b s₁ => ite (fun hb => pure fun h => ?_) fun _ => ?_
  · rw [h.2, if_pos hb]
  refine advance.bind fun _ s₂ => (ih.expression fs fs' _ s₂).bind fun key s₃ => ?_
  refine (expectPeek .colon).bind fun _ s₄ => advance.bind fun _ s₅ => ?_
  refine (ih.expression fs fs' _ s₅).bind fun value s₆ => ?_
  refine (peekIs .rbrace fun h => h.2.1).bind fun b s₇ => ite (fun _ => ?_) fun _ => ?_
  · refine (ih.pairs fs fs' s₇ fun h => ?_).bind fun ps s₈ => pure And.right
    rw [h.2]
    exact h.1.2.1
  · refine (expectPeek .comma).bind fun _ s₈ => ?_
    refine (ih.pairs fs fs' s₈ fun h => ?_).bind fun ps s₉ => pure And.right
    rw [h.2]
    decide

theorem conditional_succ : Follows e new φ (Parse.conditional (n + 1) fs)
    (Parse.conditional (n' + 1) fs') fun _ => Kind.Inner := by
  intro s
  rw [Parse.conditional, Parse.conditional]
  refine current_bind ((expectPeek .lparen).bind fun _ s₁ => advance.bind fun _ s₂ => ?_)
  refine (attempt (ih.expression fs fs' _ s₂)).bind fun c s₃ => ?_
  refine (expectPeek .rparen).bind fun _ s₄ => (expectPeek .lbrace).bind fun _ s₅ => ?_
  refine (ih.block fs fs' [] s₅).bind fun b s₆ => ?_
  refine (skipPeek .kwElse fun h => by rw [h.2]; decide).bind fun found s₇ => ?_
  refine ite (fun hfound => ?_) fun hfound => pure fun h => ?_
  · refine (ih.alternative fs fs' s₇ fun h => ?_).bind fun a s₈ => pure And.right
    rw [h.2, if_pos hfound]
    decide
  · refine Kind.inner_of_eq (c := .rbrace) ?_ (by decide)
    rw [h.2, if_neg hfound]
    exact h.1.2

theorem alternative_succ (s : ReaderState) (hs : φ → s.stream.current.kind ≠ .semicolon) :
    FollowsAt e new φ s (Parse.alternative (n + 1) fs) (Parse.alternative (n' + 1) fs')
      fun _ => Kind.Inner := by
  rw [Parse.alternative, Parse.alternative]
  refine (skipPeek .kwIf hs).bind fun b s₁ => ite (fun _ => current_bind ?_) fun _ => ?_
  · exact (ih.conditional _ _ s₁).bind fun x s₂ => pure And.right
  · refine (expectPeek .lbrace).bind fun _ s₂ => (ih.block fs fs' [] s₂).weaken fun _ k h => ?_
    exact Kind.inner_of_eq h (by decide)

theorem block_succ (ps : List String) : Follows e new φ (Parse.block (n + 1) fs ps)
    (Parse.block (n' + 1) fs' ps) fun _ k => k = .rbrace := by
  intro s
  rw [Parse.block, Parse.block]
  refine current_bind (advance.bind fun _ s₁ => ?_)
  refine (ih.blockStatements fs fs' _ _ s₁).bind fun ss s₂ => ?_
  refine (currentIs .eof).bind fun b s₃ => ite (fun hb => current_bind ?_) fun hb => ?_
  · -- an error is reported, so nothing is left to show
    exact (report _ _).bind fun _ s₄ => pure fun h => absurd h.2.1 (List.cons_ne_nil _ _)
  · refine pure fun h => ?_
    obtain ⟨⟨-, hk⟩, hk₃, rfl⟩ := h
    rcases hk with hk | hk
    · rw [hk₃, hk]
    · rw [hk₃, hk] at hb
      simp at hb

theorem blockStatements_succ (own own' : Frame) :
    Follows e new φ (Parse.blockStatements (n + 1) fs own)
      (Parse.blockStatements (n' + 1) fs' own') fun _ k => k = .rbrace ∨ k = .eof := by
  intro s
  rw [Parse.blockStatements, Parse.blockStatements]
  refine current_bind (ite (fun hk => pure fun _ => hk) fun _ => ?_)
  exact follows_listed (ih.statement _ _ s) fun own own' s =>
    (ih.blockStatements fs fs' own own' s).weaken fun _ k h _ => h

theorem statement_succ : Follows e new φ (Parse.statement (n + 1) fs)
    (Parse.statement (n' + 1) fs') fun _ k => k ≠ .eof := by
  intro s
  rw [Parse.statement, Parse.statement]
  refine current_bind ?_
  split <;> rename_i hk
  · exact (ih.declaration fs fs' false s).bind fun x s₁ => pure And.right
  · exact (ih.declaration fs fs' true s).bind fun x s₁ => pure And.right
  · refine (ih.returnStatement fs fs' s fun _ => ?_).bind fun x s₁ => pure And.right
    exact Kind.inner_of_eq hk (by decide)
  · exact (ih.whileStatement fs fs' s).bind fun x s₁ => pure And.right
  · exact (ih.forStatement fs fs' s).bind fun x s₁ => pure And.right
  · exact pure fun _ => by rw [hk]; decide
  · refine (peekIs .ident fun _ => by rw [hk]; decide).bind fun b s₁ => ?_
    refine ite (fun _ => ?_) fun _ => ?_
    · exact (ih.functionStatement fs fs' s₁).bind fun x s₂ => pure And.right
    · exact (ih.expressionStatement fs fs' s₁).bind fun x s₂ => pure And.right
  · exact (ih.expressionStatement fs fs' s).bind fun x s₁ => pure And.right

theorem declaration_succ (isConst : Bool) : Follows e new φ (Parse.declaration (n + 1) fs isConst)
    (Parse.declaration (n' + 1) fs' isConst) fun _ k => k ≠ .eof := by
  intro s
  rw [Parse.declaration, Parse.declaration]
  refine current_bind ((expectPeek .ident).bind fun _ s₁ => current_bind ?_)
  refine (expectPeek .assign).bind fun _ s₂ => advance.bind fun _ s₃ => ?_
  refine (attempt (ih.expression fs fs' _ s₃)).bind fun o s₄ => ?_
  refine skipToSemicolon.bind fun _ s₅ => ?_
  have hread : ((((φ ∧ s₁.stream.current.kind = .ident) ∧ s₂.stream.current.kind = .assign) ∧
      s₃.stream.current.kind = s₂.stream.peek.kind) ∧
      ∃ x, o = some x ∧ s₄.stream.current.kind.Inner) → o.isSome = true := by
    rintro ⟨-, x, rfl, -⟩
    rfl
  refine (require fun h => hread h.1).bind fun x s₆ => pure fun h => ?_
  rw [h.2.2]
  obtain ⟨⟨⟨-, x, -, hinner⟩, hk⟩, -⟩ := h
  exact hk hinner.2

theorem returnStatement_succ (s : ReaderState) (hs : φ → s.stream.current.kind.Inner) :
    FollowsAt e new φ s (Parse.returnStatement (n + 1) fs) (Parse.returnStatement (n' + 1) fs')
      fun _ k => k ≠ .eof := by
  rw [Parse.returnStatement, Parse.returnStatement]
  refine current_bind ((skipPeek .semicolon fun hφ => (hs hφ).1).bind fun b s₁ => ?_)
  refine ite (fun hb => pure fun h => ?_) fun hb => ?_
  · rw [h.2, if_pos hb]
    decide
  have hinner : (φ ∧ s₁.stream.current.kind =
      if b then .semicolon else s.stream.current.kind) → s₁.stream.current.kind.Inner := by
    intro h
    rw [h.2, if_neg hb]
    exact hs h.1
  refine (peek fun h => (hinner h).1).bind fun next s₂ => ?_
  refine ite (fun _ => pure fun h => ?_) fun _ => ?_
  · rw [h.2]
    exact (hinner h.1).2
  refine advance.bind fun _ s₃ => (attempt (ih.expression fs fs' _ s₃)).bind fun o s₄ => ?_
  refine skipToSemicolon.bind fun _ s₅ => pure fun h => ?_
  obtain ⟨⟨-, x, -, hinner⟩, hk⟩ := h
  exact hk hinner.2

theorem expressionStatement_succ : Follows e new φ (Parse.expressionStatement (n + 1) fs)
    (Parse.expressionStatement (n' + 1) fs') fun _ k => k ≠ .eof := by
  intro s
  rw [Parse.expressionStatement, Parse.expressionStatement]
  refine current_bind ((attempt (ih.expression fs fs' _ s)).bind fun o s₁ => ?_)
  refine (skipPeek .semicolon fun h => ?_).bind fun b s₂ => ?_
  · obtain ⟨-, x, -, hinner⟩ := h
    exact hinner.1
  refine (require fun h => ?_).bind fun x s₃ => pure fun h => ?_
  · obtain ⟨⟨-, x, rfl, -⟩, -⟩ := h
    rfl
  · rw [h.2.2]
    obtain ⟨⟨⟨-, x, -, hinner⟩, hk⟩, -⟩ := h
    rw [hk]
    split
    · decide
    · exact hinner.2

theorem functionStatement_succ : Follows e new φ (Parse.functionStatement (n + 1) fs)
    (Parse.functionStatement (n' + 1) fs') fun _ k => k ≠ .eof := by
  intro s
  rw [Parse.functionStatement, Parse.functionStatement]
  refine current_bind (advance.bind fun _ s₁ => current_bind ?_)
  refine (expectPeek .lparen).bind fun _ s₂ => ?_
  refine (follows_params ih.le fun h => by rw [h.2]; decide).bind fun ps s₃ => ?_
  refine (expectPeek .lbrace).bind fun _ s₄ => (ih.block fs fs' ps s₄).bind fun b s₅ => ?_
  exact pure fun h => (Kind.inner_of_eq h.2 (by decide)).2

theorem whileStatement_succ : Follows e new φ (Parse.whileStatement (n + 1) fs)
    (Parse.whileStatement (n' + 1) fs') fun _ k => k ≠ .eof := by
  intro s
  rw [Parse.whileStatement, Parse.whileStatement]
  refine current_bind ((expectPeek .lparen).bind fun _ s₁ => advance.bind fun _ s₂ => ?_)
  refine (attempt (ih.expression fs fs' _ s₂)).bind fun c s₃ => ?_
  refine (expectPeek .rparen).bind fun _ s₄ => (expectPeek .lbrace).bind fun _ s₅ => ?_
  refine (ih.block fs fs' [] s₅).bind fun b s₆ => ?_
  exact pure fun h => (Kind.inner_of_eq h.2 (by decide)).2

theorem forStatement_succ : Follows e new φ (Parse.forStatement (n + 1) fs)
    (Parse.forStatement (n' + 1) fs') fun _ k => k ≠ .eof := by
  intro s
  rw [Parse.forStatement, Parse.forStatement]
  refine current_bind ((expectPeek .lparen).bind fun _ s₁ => advance.bind fun _ s₂ => ?_)
  refine (ih.forInit fs fs' s₂).bind fun init s₃ => advance.bind fun _ s₄ => ?_
  refine (ih.forCondition _ _ s₄).bind fun condition s₅ => advance.bind fun _ s₆ => ?_
  refine (ih.forUpdate _ _ s₆).bind fun update s₇ => (expectPeek .lbrace).bind fun _ s₈ => ?_
  refine (ih.block _ _ [] s₈).bind fun b s₉ => ?_
  exact pure fun h => (Kind.inner_of_eq h.2 (by decide)).2

theorem forInit_succ : Follows e new φ (Parse.forInit (n + 1) fs) (Parse.forInit (n' + 1) fs')
    fun _ _ => True := by
  intro s
  rw [Parse.forInit, Parse.forInit]
  refine current_bind (ite (fun _ => pure fun _ => trivial) fun _ => ?_)
  refine ite (fun _ => (ih.declaration _ _ _ s).bind fun init s₁ => ?_) fun _ =>
    (ih.expressionStatement _ _ s).bind fun init s₁ => ?_
  all_goals
    refine (report _ _).bind fun _ s₂ => (currentIs .semicolon).bind fun b s₃ => ?_
    refine ite (fun _ => pure fun _ => trivial) fun _ => ?_
    exact (expectPeek .semicolon).bind fun _ s₄ => pure fun _ => trivial

theorem forCondition_succ : Follows e new φ (Parse.forCondition (n + 1) fs)
    (Parse.forCondition (n' + 1) fs') fun _ _ => True := by
  intro s
  rw [Parse.forCondition, Parse.forCondition]
  refine (currentIs .semicolon).bind fun b s₁ => ite (fun _ => pure fun _ => trivial) fun _ => ?_
  refine (attempt (ih.expression fs fs' _ s₁)).bind fun o s₂ => ?_
  exact (expectPeek .semicolon).bind fun _ s₃ => pure fun _ => trivial

theorem forUpdate_succ : Follows e new φ (Parse.forUpdate (n + 1) fs)
    (Parse.forUpdate (n' + 1) fs') fun _ _ => True := by
  intro s
  rw [Parse.forUpdate, Parse.forUpdate]
  refine (currentIs .rparen).bind fun b s₁ => ite (fun _ => pure fun _ => trivial) fun _ => ?_
  refine (attempt (ih.expression fs fs' _ s₁)).bind fun o s₂ => (report _ _).bind fun _ s₃ => ?_
  exact (expectPeek .rparen).bind fun _ s₄ => pure fun _ => trivial

end Local

theorem locals : ∀ {n n' : Nat}, n ≤ n' → Local e new n n'
  | 0, n', _ => local_zero n'
  | _ + 1, _ + 1, hn =>
    have ih := locals (Nat.le_of_succ_le_succ hn)
    { le := hn
      expression := ih.expression_succ
      extend := ih.extend_succ
      continuation := ih.continuation_succ
      operand := ih.operand_succ
      unaryOperand := ih.unaryOperand_succ
      nameOrAssign := ih.nameOrAssign_succ
      items := ih.items_succ
      moreItems := ih.moreItems_succ
      pairs := ih.pairs_succ
      conditional := ih.conditional_succ
      alternative := ih.alternative_succ
      block := ih.block_succ
      blockStatements := ih.blockStatements_succ
      statement := ih.statement_succ
      declaration := ih.declaration_succ
      returnStatement := ih.returnStatement_succ
      expressionStatement := ih.expressionStatement_succ
      functionStatement := ih.functionStatement_succ
      whileStatement := ih.whileStatement_succ
      forStatement := ih.forStatement_succ
      forInit := ih.forInit_succ
      forCondition := ih.forCondition_succ
      forUpdate := ih.forUpdate_succ }

theorem follows_programStatements : ∀ {n n' : Nat}, n ≤ n' → ∀ {φ : Prop} own own',
    Follows e new φ (programStatements n own) (programStatements n' own') fun _ _ => True
  | 0, _, _, _, _, _ => fun _ => outOfFuel
  | n + 1, n' + 1, hn, φ, own, own' => by
    intro s
    rw [programStatements, programStatements]
    have hn := Nat.le_of_succ_le_succ hn
    refine (currentIs .eof).bind fun b s₁ => ite (fun _ => pure fun _ => trivial) fun _ => ?_
    exact follows_listed ((locals hn).statement _ _ s₁) fun own own' s =>
      (follows_programStatements hn own own' s).weaken fun _ _ _ _ => trivial

end Parse

end Vorn
