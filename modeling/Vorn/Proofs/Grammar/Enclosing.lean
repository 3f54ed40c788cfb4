import Vorn.Proofs.Grammar.Closing

/-!
# Every form is closed by a parenthesis

`Parse.closing` goes through the functions of the grammar: each of them reads in front of a closing
parenthesis what it reads in front of a semicolon, by induction on the fuel. The functions that look
at the token behind a form are `extend`, for which neither of the two is an operator, `nameOrAssign`,
for which neither is an assignment, and those that skip a token. `Parse.expression_paren` is what
this says of an expression.
-/

namespace Vorn

namespace Parse

open Reader (ClosesAt Closes)
open Reader.ClosesAt

variable {E : Endings} {n n' : Nat} {s : ReaderState}

/-! ## Forms without expressions inside -/

theorem closes_moreParams : ∀ {n n' : Nat}, n ≤ n' → Closes E (moreParams n) (moreParams n')
  | 0, _, _ => fun _ => outOfFuel
  | n + 1, n' + 1, hn => fun s => by
    rw [moreParams, moreParams]
    refine skipPeek_bind_of_ne (by decide) (fun s₁ => ?_) ?_
    · refine (expectPeek .ident).bind fun _ s₂ => current_bind ?_
      exact (closes_moreParams (Nat.le_of_succ_le_succ hn) s₂).bind fun xs s₃ => pure
    · exact (expectPeek .rparen).bind fun _ s₁ => pure

theorem closes_params (hn : n ≤ n') : Closes E (params n) (params n') := by
  intro s
  rw [params, params]
  refine skipPeek_bind (fun s₁ => pure) ?_ fun _ hnext => .expectPeek_bind (by decide) hnext
  refine (expectPeek .ident).bind fun _ s₁ => current_bind ?_
  exact (closes_moreParams hn s₁).bind fun xs s₂ => pure

theorem closes_integer (t : Token) : Closes E (integer t) (integer t) := by
  intro s
  unfold integer
  split
  · exact pure
  · exact fail _ _ _ _

theorem closes_stepBefore (t : Token) (op : StepOp) :
    Closes E (stepBefore t op) (stepBefore t op) :=
  fun _ => advance.bind fun _ _ => current_bind (ite (fun _ => pure) fun _ => fail _ _ _ _)

theorem closes_stepBehind (t : Token) (op : StepOp) (left : Expr) :
    Closes E (stepBehind t op left) (stepBehind t op left) := by
  intro s
  unfold stepBehind
  split
  · exact pure
  · exact fail _ _ _ _

/-! ## The grammar -/

-- What is left of the other locality result, whatever stands behind.

theorem later_of_expression {fs : Frames} {level : Nat} {e : Expr} {s s₁ : ReaderState}
    (h : expression n fs level s = .ok e s₁) : s.Later s₁ :=
  have hlocal : Local default [] n n := locals (Nat.le_refl n)
  (hlocal.expression (φ := True) fs fs level s).later h

theorem errors_of_expression_misfit {fs : Frames} {level : Nat} {s s₁ : ReaderState}
    (h : expression n fs level s = .error .misfit s₁) : s₁.errors ≠ s.errors :=
  have hlocal : Local default [] n n := locals (Nat.le_refl n)
  (hlocal.expression fs fs level s).errors_ne h

theorem errors_of_statement_misfit {fs : Frames} {s s₁ : ReaderState}
    (h : statement n fs s = .error .misfit s₁) : s₁.errors ≠ s.errors :=
  have hlocal : Local default [] n n := locals (Nat.le_refl n)
  (hlocal.statement fs fs s).errors_ne h

/-- Every function of the grammar with the fuel `n`, and with the fuel `n'`. -/
structure Closing (E : Endings) (n n' : Nat) : Prop where
  le : n ≤ n'
  expression : ∀ fs level, Closes E (expression n fs level) (expression n' fs level)
  extend : ∀ fs level left, Closes E (extend n fs level left) (extend n' fs level left)
  continuation : ∀ fs left, Closes E (continuation n fs left) (continuation n' fs left)
  operand : ∀ fs, Closes E (operand n fs) (operand n' fs)
  unaryOperand : ∀ fs, Closes E (unaryOperand n fs) (unaryOperand n' fs)
  nameOrAssign : ∀ fs t, Closes E (nameOrAssign n fs t) (nameOrAssign n' fs t)
  items : ∀ fs close, Closes E (items n fs close) (items n' fs close)
  moreItems : ∀ fs close, Closes E (moreItems n fs close) (moreItems n' fs close)
  pairs : ∀ fs, Closes E (pairs n fs) (pairs n' fs)
  conditional : ∀ fs, Closes E (conditional n fs) (conditional n' fs)
  alternative : ∀ fs, Closes E (alternative n fs) (alternative n' fs)
  block : ∀ fs ps, Closes E (block n fs ps) (block n' fs ps)
  blockStatements : ∀ fs own, Closes E (blockStatements n fs own) (blockStatements n' fs own)
  statement : ∀ fs, Closes E (statement n fs) (statement n' fs)
  declaration : ∀ fs isConst, Closes E (declaration n fs isConst) (declaration n' fs isConst)
  returnStatement : ∀ fs, Closes E (returnStatement n fs) (returnStatement n' fs)
  expressionStatement : ∀ fs, Closes E (expressionStatement n fs) (expressionStatement n' fs)
  functionStatement : ∀ fs, Closes E (functionStatement n fs) (functionStatement n' fs)
  whileStatement : ∀ fs, Closes E (whileStatement n fs) (whileStatement n' fs)
  forStatement : ∀ fs, Closes E (forStatement n fs) (forStatement n' fs)
  forInit : ∀ fs, Closes E (forInit n fs) (forInit n' fs)
  forCondition : ∀ fs, Closes E (forCondition n fs) (forCondition n' fs)
  forUpdate : ∀ fs, Closes E (forUpdate n fs) (forUpdate n' fs)

theorem closing_zero (n' : Nat) : Closing E 0 n' := by
  constructor
  case le => exact Nat.zero_le n'
  all_goals
    intros
    exact fun _ => outOfFuel

namespace Closing

variable (ih : Closing E n n') (fs : Frames)

include ih

theorem attempt_expression : Closes E (Reader.attempt (Parse.expression n fs Level.lowest))
    (Reader.attempt (Parse.expression n' fs Level.lowest)) :=
  fun s => attempt (ih.expression fs _ s) fun _ => errors_of_expression_misfit

theorem expression_succ (level : Nat) :
    Closes E (Parse.expression (n + 1) fs level) (Parse.expression (n' + 1) fs level) := by
  intro s
  rw [Parse.expression, Parse.expression]
  exact (ih.operand fs s).bind fun left => ih.extend fs level left

/-- Neither of the two tokens continues an expression. -/
theorem extend_succ (level : Nat) (left : Expr) :
    Closes E (Parse.extend (n + 1) fs level left) (Parse.extend (n' + 1) fs level left) := by
  intro s
  rw [Parse.extend, Parse.extend]
  refine peek_bind fun t' ht' => ?_
  rw [ht'.level]
  refine ite (fun _ => advance.bind fun _ s₁ => ?_) fun _ => pure
  exact (ih.continuation fs left s₁).bind fun x => ih.extend fs level x

theorem continuation_succ (left : Expr) :
    Closes E (Parse.continuation (n + 1) fs left) (Parse.continuation (n' + 1) fs left) := by
  intro s
  rw [Parse.continuation, Parse.continuation]
  refine current_bind ?_
  split
  · exact (ih.items fs .rparen s).bind fun es s₁ => pure
  · refine advance.bind fun _ s₁ => (ih.expression fs _ s₁).bind fun key s₂ => ?_
    exact (expectPeek .rbracket).bind fun _ s₃ => pure
  · refine (expectPeek .ident).bind fun _ s₁ => current_bind ?_
    refine skipPeek_bind_of_ne (by decide) (fun s₂ => current_bind ?_) pure
    exact (ih.items fs .rparen s₂).bind fun es s₃ => pure
  · exact closes_stepBehind _ .increment left s
  · exact closes_stepBehind _ .decrement left s
  · split
    · exact advance.bind fun _ s₁ => (ih.expression fs _ s₁).bind fun x s₂ => pure
    · exact fail _ _ _ _

theorem operand_succ : Closes E (Parse.operand (n + 1) fs) (Parse.operand (n' + 1) fs) := by
  intro s
  rw [Parse.operand, Parse.operand]
  refine current_bind ?_
  have hunary (op : UnaryOp) : ClosesAt E s
      (do return Expr.unary s.stream.current.pos op (← Parse.unaryOperand n fs))
      (do return Expr.unary s.stream.current.pos op (← Parse.unaryOperand n' fs)) :=
    (ih.unaryOperand fs s).bind fun x s₁ => pure
  split
  · exact ih.nameOrAssign fs _ s
  · exact closes_integer _ s
  · exact pure
  · exact pure
  · exact pure
  · exact pure
  · exact pure
  · exact pure
  · exact pure
  · exact hunary .not
  · exact hunary .negate
  · exact hunary .complement
  · exact closes_stepBefore _ .increment s
  · exact closes_stepBefore _ .decrement s
  · refine advance.bind fun _ s₁ => (ih.attempt_expression fs s₁).bind fun o s₂ => ?_
    exact (expectPeek .rparen).bind fun _ s₃ => require o
  · exact ih.conditional fs s
  · refine (expectPeek .lparen).bind fun _ s₁ => (closes_params ih.le s₁).bind fun ps s₂ => ?_
    exact (expectPeek .lbrace).bind fun _ s₃ => (ih.block fs ps s₃).bind fun b s₄ => pure
  · exact (ih.items fs .rbracket s).bind fun es s₁ => pure
  · exact (ih.pairs fs s).bind fun ps s₁ => pure
  · exact fail _ _ _ _

theorem unaryOperand_succ :
    Closes E (Parse.unaryOperand (n + 1) fs) (Parse.unaryOperand (n' + 1) fs) := by
  intro s
  rw [Parse.unaryOperand, Parse.unaryOperand]
  exact advance.bind fun _ => ih.expression fs _

/-- Neither of the two tokens is an assignment operator. -/
theorem nameOrAssign_succ (t : Token) :
    Closes E (Parse.nameOrAssign (n + 1) fs t) (Parse.nameOrAssign (n' + 1) fs t) := by
  intro s
  rw [Parse.nameOrAssign, Parse.nameOrAssign]
  refine peek_bind fun op' hop' => ?_
  rcases hop' with rfl | ⟨hk, hk'⟩
  · cases s.stream.peek.kind.assignment? with
    | none => exact pure
    | some apply =>
      refine advance.bind fun _ s₁ => advance.bind fun _ s₂ => ?_
      exact (ih.expression fs _ s₂).bind fun value s₃ => pure
  · rw [hk, hk']
    exact pure

theorem items_succ (close : Kind) :
    Closes E (Parse.items (n + 1) fs close) (Parse.items (n' + 1) fs close) := by
  have hitems : Closes E
      (do
        let e ← Parse.expression n fs Level.lowest
        return e :: (← Parse.moreItems n fs close))
      (do
        let e ← Parse.expression n' fs Level.lowest
        return e :: (← Parse.moreItems n' fs close)) := fun s =>
    (ih.expression fs _ s).bind fun x s₁ => (ih.moreItems fs close s₁).bind fun xs s₂ => pure
  intro s
  rw [Parse.items, Parse.items]
  exact skipPeek_bind (fun s₁ => pure) (advance.bind fun _ => hitems) fun _ hnext =>
    .advance_bind hnext hitems

theorem moreItems_succ (close : Kind) :
    Closes E (Parse.moreItems (n + 1) fs close) (Parse.moreItems (n' + 1) fs close) := by
  intro s
  rw [Parse.moreItems, Parse.moreItems]
  refine skipPeek_bind_of_ne (by decide) (fun s₁ => advance.bind fun _ s₂ => ?_) ?_
  · refine (ih.expression fs _ s₂).bind fun x s₃ => ?_
    exact (ih.moreItems fs close s₃).bind fun xs s₄ => pure
  · exact (expectPeek close).bind fun _ s₁ => pure

theorem pairs_succ : Closes E (Parse.pairs (n + 1) fs) (Parse.pairs (n' + 1) fs) := by
  intro s
  rw [Parse.pairs, Parse.pairs]
  refine skipPeek_bind_of_ne (by decide) (fun s₁ => pure) (advance.bind fun _ s₁ => ?_)
  refine (ih.expression fs _ s₁).bind fun key s₂ => (expectPeek .colon).bind fun _ s₃ => ?_
  refine advance.bind fun _ s₄ => (ih.expression fs _ s₄).bind fun value s₅ => ?_
  refine peekIs_bind (by decide) (by decide) fun b => ite (fun _ => ?_) fun _ => ?_
  · exact (ih.pairs fs s₅).bind fun ps s₆ => pure
  · refine (expectPeek .comma).bind fun _ s₆ => ?_
    exact (ih.pairs fs s₆).bind fun ps s₇ => pure

theorem conditional_succ :
    Closes E (Parse.conditional (n + 1) fs) (Parse.conditional (n' + 1) fs) := by
  intro s
  rw [Parse.conditional, Parse.conditional]
  refine current_bind ((expectPeek .lparen).bind fun _ s₁ => advance.bind fun _ s₂ => ?_)
  refine (ih.attempt_expression fs s₂).bind fun c s₃ => (expectPeek .rparen).bind fun _ s₄ => ?_
  refine (expectPeek .lbrace).bind fun _ s₅ => (ih.block fs [] s₅).bind fun b s₆ => ?_
  refine skipPeek_bind_of_ne (by decide) (fun s₇ => ?_) pure
  exact (ih.alternative fs s₇).bind fun a s₈ => pure

theorem alternative_succ :
    Closes E (Parse.alternative (n + 1) fs) (Parse.alternative (n' + 1) fs) := by
  intro s
  rw [Parse.alternative, Parse.alternative]
  refine skipPeek_bind_of_ne (by decide) (fun s₁ => current_bind ?_) ?_
  · exact (ih.conditional _ s₁).bind fun x s₂ => pure
  · exact (expectPeek .lbrace).bind fun _ => ih.block fs []

theorem block_succ (ps : List String) :
    Closes E (Parse.block (n + 1) fs ps) (Parse.block (n' + 1) fs ps) := by
  intro s
  rw [Parse.block, Parse.block]
  refine current_bind (advance.bind fun _ s₁ => (ih.blockStatements fs _ s₁).bind fun ss s₂ => ?_)
  refine currentIs_bind fun b => ite (fun _ => current_bind ?_) fun _ => pure
  exact (report _).bind fun _ s₃ => pure

theorem closes_listed {own : Frame} {rest rest' : Frame → Reader (List Stmt)}
    (hrest : ∀ own, Closes E (rest own) (rest' own)) :
    Closes E (Parse.listed fs own (Parse.statement n (own :: fs)) rest)
      (Parse.listed fs own (Parse.statement n' (own :: fs)) rest') := by
  intro s
  have hone := attempt (ih.statement (own :: fs) s) fun _ => errors_of_statement_misfit
  refine hone.bind fun o s₁ => ?_
  rcases o with _ | _ | x
  · exact advance.bind fun _ => hrest own
  · exact advance.bind fun _ => hrest own
  · refine (report _).bind fun _ s₂ => advance.bind fun _ s₃ => ?_
    exact (hrest _ s₃).bind fun ss s₄ => pure

theorem blockStatements_succ (own : Frame) :
    Closes E (Parse.blockStatements (n + 1) fs own) (Parse.blockStatements (n' + 1) fs own) := by
  intro s
  rw [Parse.blockStatements, Parse.blockStatements]
  refine current_bind (ite (fun _ => pure) fun _ => ?_)
  exact ih.closes_listed fs (fun own => ih.blockStatements fs own) s

theorem statement_succ : Closes E (Parse.statement (n + 1) fs) (Parse.statement (n' + 1) fs) := by
  intro s
  rw [Parse.statement, Parse.statement]
  refine current_bind ?_
  split
  · exact (ih.declaration fs false s).bind fun x s₁ => pure
  · exact (ih.declaration fs true s).bind fun x s₁ => pure
  · exact (ih.returnStatement fs s).bind fun x s₁ => pure
  · exact (ih.whileStatement fs s).bind fun x s₁ => pure
  · exact (ih.forStatement fs s).bind fun x s₁ => pure
  · exact pure
  · refine peekIs_bind (by decide) (by decide) fun b => ite (fun _ => ?_) fun _ => ?_
    · exact (ih.functionStatement fs s).bind fun x s₁ => pure
    · exact (ih.expressionStatement fs s).bind fun x s₁ => pure
  · exact (ih.expressionStatement fs s).bind fun x s₁ => pure

theorem declaration_succ (isConst : Bool) :
    Closes E (Parse.declaration (n + 1) fs isConst) (Parse.declaration (n' + 1) fs isConst) := by
  intro s
  rw [Parse.declaration, Parse.declaration]
  refine current_bind ((expectPeek .ident).bind fun _ s₁ => current_bind ?_)
  refine (expectPeek .assign).bind fun _ s₂ => advance.bind fun _ s₃ => ?_
  refine (ih.attempt_expression fs s₃).bind fun o s₄ => skipToSemicolon.bind fun _ s₅ => ?_
  exact (require o).bind fun x s₆ => pure

theorem returnStatement_succ :
    Closes E (Parse.returnStatement (n + 1) fs) (Parse.returnStatement (n' + 1) fs) := by
  intro s
  rw [Parse.returnStatement, Parse.returnStatement]
  refine current_bind (skipPeek_bind_of_ne (by decide) (fun s₁ => pure) ?_)
  refine peek_bind fun t' ht' => ?_
  have hends : t'.kind = .rbrace ∨ t'.kind = .eof ↔
      s.stream.peek.kind = .rbrace ∨ s.stream.peek.kind = .eof :=
    or_congr (ht'.kind_eq (by decide) (by decide)) (ht'.kind_eq (by decide) (by decide))
  simp only [hends]
  refine ite (fun _ => pure) fun _ => advance.bind fun _ s₁ => ?_
  refine (ih.attempt_expression fs s₁).bind fun o s₂ => skipToSemicolon.bind fun _ s₃ => pure

theorem expressionStatement_succ :
    Closes E (Parse.expressionStatement (n + 1) fs) (Parse.expressionStatement (n' + 1) fs) := by
  intro s
  rw [Parse.expressionStatement, Parse.expressionStatement]
  refine current_bind ((ih.attempt_expression fs s).bind fun o s₁ => ?_)
  refine skipPeek_bind_of_ne (by decide) (fun s₂ => ?_) ?_
  · exact (require o).bind fun x s₃ => pure
  · exact (require o).bind fun x s₂ => pure

theorem functionStatement_succ :
    Closes E (Parse.functionStatement (n + 1) fs) (Parse.functionStatement (n' + 1) fs) := by
  intro s
  rw [Parse.functionStatement, Parse.functionStatement]
  refine current_bind (advance.bind fun _ s₁ => current_bind ?_)
  refine (expectPeek .lparen).bind fun _ s₂ => (closes_params ih.le s₂).bind fun ps s₃ => ?_
  exact (expectPeek .lbrace).bind fun _ s₄ => (ih.block fs ps s₄).bind fun b s₅ => pure

theorem whileStatement_succ :
    Closes E (Parse.whileStatement (n + 1) fs) (Parse.whileStatement (n' + 1) fs) := by
  intro s
  rw [Parse.whileStatement, Parse.whileStatement]
  refine current_bind ((expectPeek .lparen).bind fun _ s₁ => advance.bind fun _ s₂ => ?_)
  refine (ih.attempt_expression fs s₂).bind fun c s₃ => (expectPeek .rparen).bind fun _ s₄ => ?_
  exact (expectPeek .lbrace).bind fun _ s₅ => (ih.block fs [] s₅).bind fun b s₆ => pure

theorem forStatement_succ :
    Closes E (Parse.forStatement (n + 1) fs) (Parse.forStatement (n' + 1) fs) := by
  intro s
  rw [Parse.forStatement, Parse.forStatement]
  refine current_bind ((expectPeek .lparen).bind fun _ s₁ => advance.bind fun _ s₂ => ?_)
  refine (ih.forInit fs s₂).bind fun init s₃ => advance.bind fun _ s₄ => ?_
  refine (ih.forCondition _ s₄).bind fun condition s₅ => advance.bind fun _ s₆ => ?_
  refine (ih.forUpdate _ s₆).bind fun update s₇ => (expectPeek .lbrace).bind fun _ s₈ => ?_
  exact (ih.block _ [] s₈).bind fun b s₉ => pure

theorem forInit_succ : Closes E (Parse.forInit (n + 1) fs) (Parse.forInit (n' + 1) fs) := by
  intro s
  rw [Parse.forInit, Parse.forInit]
  refine current_bind (ite (fun _ => pure) fun _ => ?_)
  refine ite (fun _ => (ih.declaration _ _ s).bind fun init s₁ => ?_) fun _ =>
    (ih.expressionStatement _ s).bind fun init s₁ => ?_
  all_goals
    refine (report _).bind fun _ s₂ => currentIs_bind fun b => ite (fun _ => pure) fun _ => ?_
    exact (expectPeek .semicolon).bind fun _ s₃ => pure

theorem forCondition_succ :
    Closes E (Parse.forCondition (n + 1) fs) (Parse.forCondition (n' + 1) fs) := by
  intro s
  rw [Parse.forCondition, Parse.forCondition]
  refine currentIs_bind fun b => ite (fun _ => pure) fun _ => ?_
  refine (ih.attempt_expression fs s).bind fun o s₁ => ?_
  exact (expectPeek .semicolon).bind fun _ s₂ => pure

theorem forUpdate_succ : Closes E (Parse.forUpdate (n + 1) fs) (Parse.forUpdate (n' + 1) fs) := by
  intro s
  rw [Parse.forUpdate, Parse.forUpdate]
  refine currentIs_bind fun b => ite (fun _ => pure) fun _ => ?_
  refine (ih.attempt_expression fs s).bind fun o s₁ => (report _).bind fun _ s₂ => ?_
  exact (expectPeek .rparen).bind fun _ s₃ => pure

end Closing

theorem closing : ∀ {n n' : Nat}, n ≤ n' → Closing E n n'
  | 0, n', _ => closing_zero n'
  | _ + 1, _ + 1, hn =>
    have ih := closing (Nat.le_of_succ_le_succ hn)
    { le := hn
      expression := ih.expression_succ
      extend := ih.extend_succ
      continuation := ih.continuation_succ
      operand := ih.operand_succ
      unaryOperand := ih.unaryOperand_succ
      nameOrAssign := ih.nameOrAssign_succ
      items := ih.items_succ
      moreItems := ih.moreItems_succ
      pairs := ih.pairs_succ
      conditional := ih.conditional_succ
      alternative := ih.alternative_succ
      block := ih.block_succ
      blockStatements := ih.blockStatements_succ
      statement := ih.statement_succ
      declaration := ih.declaration_succ
      returnStatement := ih.returnStatement_succ
      expressionStatement := ih.expressionStatement_succ
      functionStatement := ih.functionStatement_succ
      whileStatement := ih.whileStatement_succ
      forStatement := ih.forStatement_succ
      forInit := ih.forInit_succ
      forCondition := ih.forCondition_succ
      forUpdate := ih.forUpdate_succ }

/-- **An expression in front of a semicolon is the same expression in front of a closing
parenthesis**, if it is read without errors. -/
theorem expression_paren {t c : Token} {ts : List Token} {fs : Frames} {level : Nat} {e : Expr}
    (h : expression n fs level ⟨⟨t, ts ++ E.old⟩, []⟩ = .ok e ⟨⟨c, E.old⟩, []⟩) :
    expression n fs level ⟨⟨t, ts ++ E.new⟩, []⟩ = .ok e ⟨⟨c, E.new⟩, []⟩ := by
  have hcloses := (closing (E := E) (Nat.le_refl n)).expression fs level ⟨⟨t, ts ++ E.old⟩, []⟩
  unfold ClosesAt at hcloses
  rw [h] at hcloses
  obtain ⟨s', hrun, hs'⟩ := hcloses.2 rfl (Nat.le_refl _) ⟨⟨t, ts ++ E.new⟩, []⟩
    ⟨rfl, ⟨ts, rfl, rfl⟩, rfl⟩
  obtain ⟨ahead, hrest, hrest'⟩ := hs'.rest
  have hnone : ahead = [] := List.self_eq_append_left.mp hrest
  obtain ⟨⟨c', us'⟩, es'⟩ := s'
  have hcurrent : c' = c := hs'.current
  have herrors : es' = [] := hs'.errors
  rw [hrun, hcurrent, herrors, show us' = E.new by rw [hnone] at hrest'; exact hrest']

end Parse

end Vorn
