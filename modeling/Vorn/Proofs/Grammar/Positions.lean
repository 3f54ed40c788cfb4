import Vorn.Grammar.Parse
import Vorn.Proofs.Grammar.Provenance
import Vorn.Proofs.Grammar.Run
import Vorn.Proofs.Grammar.ScopePass
import Vorn.Proofs.Token.Lexing
import Vorn.Proofs.Tree.Places

/-!
# Neither positions nor spare fuel steer the grammar

If every token of a stream is moved to another place, then the grammar reads the same tree with
its positions moved, and reports the same errors at the moved places. It also does so with more fuel
than was enough:

* `Reader.Moves`: a reader on a moved stream does what another one does on the stream as it was,
  unless that one runs out of fuel;
* `Parse.moved`: every function of the grammar, by induction on the fuel;
* `Parse.run_move`: a whole program;
* `Parse.run_mono`: a whole program whose tokens stay where they are;
* `run_move_tokens`: a whole text;
* `run_of_bare`, `parse_of_bare`: tokens, or a text, that are known but for the places.
-/

namespace Vorn

def Stream.move (f : Pos → Pos) (s : Stream) : Stream :=
  ⟨s.current.move f, s.rest.map (Token.move f)⟩

def ReaderState.move (f : Pos → Pos) (s : ReaderState) : ReaderState :=
  ⟨s.stream.move f, s.errors.map (.move f)⟩

section Stream

variable (f : Pos → Pos) (s : Stream)

@[simp] theorem Stream.current_move : (s.move f).current = s.current.move f := rfl

@[simp] theorem Stream.rest_move : (s.move f).rest = s.rest.map (Token.move f) := rfl

@[simp] theorem Stream.peek_move : (s.move f).peek = s.peek.move f := by
  obtain ⟨current, rest⟩ := s
  cases rest <;> rfl

@[simp] theorem Stream.advance_move : (s.move f).advance = s.advance.move f := by
  obtain ⟨current, rest⟩ := s
  cases rest <;> rfl

theorem Stream.toSemicolon_move : ∀ (current : Token) (rest : List Token),
    Stream.toSemicolon (current.move f) (rest.map (Token.move f)) =
      (Stream.toSemicolon current rest).move f
  | _, [] => rfl
  | current, t :: rest => by
    rw [List.map_cons, Stream.toSemicolon, Stream.toSemicolon]
    by_cases h : current.kind = .semicolon ∨ t.kind = .eof ∨ t.kind = .rbrace
    · rw [if_pos h, if_pos (by simpa using h)]
      rfl
    · rw [if_neg h, if_neg (by simpa using h)]
      exact toSemicolon_move t rest

end Stream

namespace Reader

/-- The result of a run on a moved stream, if `m` moves the value. -/
def moveResult {α : Type} (f : Pos → Pos) (m : α → α) :
    EStateM.Result Failure ReaderState α → EStateM.Result Failure ReaderState α
  | .ok a s => .ok (m a) (s.move f)
  | .error e s => .error e (s.move f)

/-- `r'` does on a moved stream what `r` does on the stream as it was, unless `r` runs out of
fuel. -/
def Moves {α : Type} (f : Pos → Pos) (m : α → α) (r r' : Reader α) : Prop :=
  ∀ s, (∃ s', r s = .error .outOfFuel s') ∨ r' (s.move f) = moveResult f m (r s)

namespace Moves

variable {α β : Type} {f : Pos → Pos} {m : α → α} {l : β → β} {r r' : Reader α}
  {k k' : α → Reader β}

theorem bind (hr : Moves f m r r') (hk : ∀ a, Moves f l (k a) (k' (m a))) :
    Moves f l (r >>= k) (r' >>= k') := by
  intro s
  rw [run_bind, run_bind]
  obtain ⟨s', hout⟩ | hrun := hr s
  · exact .inl ⟨s', by rw [hout]⟩
  · rw [hrun]
    cases r s with
    | ok a s' => exact hk a s'
    | error e s' => exact .inr rfl

theorem pure (a : α) : Moves f m (Pure.pure a) (Pure.pure (m a)) := fun _ => .inr rfl

theorem throw (e : Failure) : Moves f m (throw e) (throw e) := fun _ => .inr rfl

/-- Nothing is said of a reader behind the end of its fuel. -/
theorem outOfFuel : Moves f m (MonadExcept.throw .outOfFuel) r' := fun s => .inl ⟨s, rfl⟩

theorem ite {c : Prop} [Decidable c] {u u' : Reader α} (ht : Moves f m r r')
    (he : Moves f m u u') : Moves f m (if c then r else u) (if c then r' else u') := by
  split
  · exact ht
  · exact he

theorem current : Moves f (Token.move f) Reader.current Reader.current := fun _ => .inr rfl

theorem peek : Moves f (Token.move f) Reader.peek Reader.peek := fun s => .inr <| by
  simp [ReaderState.move, moveResult]

theorem currentIs (k : Kind) : Moves f id (Reader.currentIs k) (Reader.currentIs k) :=
  fun _ => .inr rfl

theorem peekIs (k : Kind) : Moves f id (Reader.peekIs k) (Reader.peekIs k) := fun s => .inr <| by
  simp [ReaderState.move, moveResult]

theorem advance : Moves f id Reader.advance Reader.advance := fun s => .inr <| by
  simp [ReaderState.move, moveResult]

theorem skipToSemicolon : Moves f id Reader.skipToSemicolon Reader.skipToSemicolon := fun s => .inr <| by
  simp [ReaderState.move, moveResult, Stream.toSemicolon_move]

theorem report {es es' : List ParseError} (h : es' = es.map (.move f)) :
    Moves f id (Reader.report es) (Reader.report es') := fun s => .inr <| by
  simp [ReaderState.move, moveResult, h]

theorem fail (p : Pos) (misfit : Misfit) :
    Moves f m (Reader.fail p misfit) (Reader.fail (f p) misfit) := fun _ => .inr rfl

theorem expectPeek (k : Kind) : Moves f id (Reader.expectPeek k) (Reader.expectPeek k) :=
  bind peek fun t => ite advance (fail t.pos (.expected k t.kind))

theorem skipPeek (k : Kind) : Moves f id (Reader.skipPeek k) (Reader.skipPeek k) :=
  bind (peekIs k) fun _ => ite (bind advance fun _ => pure true) (pure false)

theorem attempt (hr : Moves f m r r') :
    Moves f (Option.map m) (Reader.attempt r) (Reader.attempt r') := by
  intro s
  rw [run_attempt, run_attempt]
  obtain ⟨s', hout⟩ | hrun := hr s
  · exact .inl ⟨s', by rw [hout]⟩
  · rw [hrun]
    cases r s with
    | ok a s' => exact .inr rfl
    | error e s' => cases e <;> exact .inr rfl

theorem require (o : Option α) : Moves f m (Reader.require o) (Reader.require (o.map m)) := by
  cases o with
  | none => exact throw .misfit
  | some a => exact pure a

end Moves

end Reader

namespace Parse

open Reader Reader.Moves

variable {f : Pos → Pos} {n n' : Nat}

/-! ## Forms without expressions inside -/

theorem moves_moreParams : ∀ {n n'}, n ≤ n' → Moves f id (moreParams n) (moreParams n')
  | 0, _, _ => outOfFuel
  | n + 1, n' + 1, h => by
    rw [moreParams, moreParams]
    refine bind (skipPeek .comma) fun _ => ite ?_ (bind (expectPeek .rparen) fun _ => pure [])
    exact bind (expectPeek .ident) fun _ => bind current fun t =>
      bind (moves_moreParams (Nat.le_of_succ_le_succ h)) fun xs => pure (t.literal :: xs)

theorem moves_params (h : n ≤ n') : Moves f id (params n) (params n') := by
  rw [params, params]
  refine bind (skipPeek .rparen) fun _ => ite (pure []) ?_
  exact bind (expectPeek .ident) fun _ => bind current fun t =>
    bind (moves_moreParams h) fun xs => pure (t.literal :: xs)

theorem moves_integer (t : Token) :
    Moves f (Expr.mark (.moved f)) (integer t) (integer (t.move f)) := by
  unfold integer
  rw [Token.move_literal]
  split
  · exact pure (Expr.int t.pos t.literal _)
  · exact fail t.pos _

theorem moves_stepBefore (t : Token) (op : StepOp) :
    Moves f (Expr.mark (.moved f)) (stepBefore t op) (stepBefore (t.move f) op) :=
  bind advance fun _ => bind current fun target =>
    ite (pure (Expr.step t.pos op target.literal true)) (fail target.pos _)

theorem moves_stepBehind (t : Token) (op : StepOp) (left : Expr) :
    Moves f (Expr.mark (.moved f)) (stepBehind t op left)
      (stepBehind (t.move f) op (left.mark (.moved f))) := by
  cases left
  case ident p name => exact pure (Expr.step t.pos op name false)
  all_goals exact fail t.pos _

theorem assigned_move (name op : Token) (apply : Option BinaryOp) (value : Expr) :
    assigned (name.move f) (op.move f) apply (value.mark (.moved f)) =
      (assigned name op apply value).mark (.moved f) := by
  cases apply <;> rfl

/-! ## The grammar -/

theorem moves_listed {fs : Frames} {own : Frame} {one one' : Reader (Option Stmt)}
    {rest rest' : Frame → Reader (List Stmt)}
    (hone : Moves f (Stmt.markOption (.moved f)) one one')
    (hrest : ∀ own, Moves f (Stmt.markAll (.moved f)) (rest own) (rest' own)) :
    Moves f (Stmt.markAll (.moved f)) (listed fs own one rest) (listed fs own one' rest') := by
  refine bind (attempt hone) fun o => ?_
  rcases o with _ | _ | s
  · exact bind advance fun _ => hrest own
  · exact bind advance fun _ => hrest own
  · refine bind (report (Frames.check_mark (.moved f) own fs s)) fun _ => bind advance fun _ => ?_
    rw [Frame.add_mark]
    exact bind (hrest _) fun ss => pure (s :: ss)

/-- Every function of the grammar with the fuel `n`, and with `n'` on a moved stream. -/
structure Moved (f : Pos → Pos) (n n' : Nat) : Prop where
  le : n ≤ n'
  expression : ∀ fs level,
    Moves f (Expr.mark (.moved f)) (expression n fs level) (expression n' fs level)
  extend : ∀ fs level left, Moves f (Expr.mark (.moved f)) (extend n fs level left)
    (extend n' fs level (left.mark (.moved f)))
  continuation : ∀ fs left, Moves f (Expr.mark (.moved f)) (continuation n fs left)
    (continuation n' fs (left.mark (.moved f)))
  operand : ∀ fs, Moves f (Expr.mark (.moved f)) (operand n fs) (operand n' fs)
  unaryOperand : ∀ fs, Moves f (Expr.mark (.moved f)) (unaryOperand n fs) (unaryOperand n' fs)
  nameOrAssign : ∀ fs t, Moves f (Expr.mark (.moved f)) (nameOrAssign n fs t)
    (nameOrAssign n' fs (t.move f))
  items : ∀ fs close, Moves f (Expr.markAll (.moved f)) (items n fs close) (items n' fs close)
  moreItems : ∀ fs close,
    Moves f (Expr.markAll (.moved f)) (moreItems n fs close) (moreItems n' fs close)
  pairs : ∀ fs, Moves f (Expr.markPairs (.moved f)) (pairs n fs) (pairs n' fs)
  conditional : ∀ fs, Moves f (Expr.mark (.moved f)) (conditional n fs) (conditional n' fs)
  alternative : ∀ fs, Moves f (Block.mark (.moved f)) (alternative n fs) (alternative n' fs)
  block : ∀ fs ps, Moves f (Block.mark (.moved f)) (block n fs ps) (block n' fs ps)
  blockStatements : ∀ fs own,
    Moves f (Stmt.markAll (.moved f)) (blockStatements n fs own) (blockStatements n' fs own)
  statement : ∀ fs, Moves f (Stmt.markOption (.moved f)) (statement n fs) (statement n' fs)
  declaration : ∀ fs isConst,
    Moves f (Stmt.mark (.moved f)) (declaration n fs isConst) (declaration n' fs isConst)
  returnStatement : ∀ fs,
    Moves f (Stmt.mark (.moved f)) (returnStatement n fs) (returnStatement n' fs)
  expressionStatement : ∀ fs,
    Moves f (Stmt.mark (.moved f)) (expressionStatement n fs) (expressionStatement n' fs)
  functionStatement : ∀ fs,
    Moves f (Stmt.mark (.moved f)) (functionStatement n fs) (functionStatement n' fs)
  whileStatement : ∀ fs,
    Moves f (Stmt.mark (.moved f)) (whileStatement n fs) (whileStatement n' fs)
  forStatement : ∀ fs, Moves f (Stmt.mark (.moved f)) (forStatement n fs) (forStatement n' fs)
  forInit : ∀ fs, Moves f (Stmt.markOption (.moved f)) (forInit n fs) (forInit n' fs)
  forCondition : ∀ fs,
    Moves f (Expr.markOption (.moved f)) (forCondition n fs) (forCondition n' fs)
  forUpdate : ∀ fs, Moves f (Expr.markOption (.moved f)) (forUpdate n fs) (forUpdate n' fs)

theorem moved_zero (n' : Nat) : Moved f 0 n' := by
  constructor
  · exact Nat.zero_le n'
  all_goals intros; exact outOfFuel

namespace Moved

variable (ih : Moved f n n') (fs : Frames)

include ih

theorem expression_succ (level : Nat) : Moves f (Expr.mark (.moved f))
    (Parse.expression (n + 1) fs level) (Parse.expression (n' + 1) fs level) := by
  rw [Parse.expression, Parse.expression]
  exact bind (ih.operand fs) fun left => ih.extend fs level left

theorem extend_succ (level : Nat) (left : Expr) : Moves f (Expr.mark (.moved f))
    (Parse.extend (n + 1) fs level left)
    (Parse.extend (n' + 1) fs level (left.mark (.moved f))) := by
  rw [Parse.extend, Parse.extend]
  refine bind peek fun t => ite (bind advance fun _ => ?_) (pure left)
  exact bind (ih.continuation fs left) fun e => ih.extend fs level e

theorem continuation_succ (left : Expr) : Moves f (Expr.mark (.moved f))
    (Parse.continuation (n + 1) fs left)
    (Parse.continuation (n' + 1) fs (left.mark (.moved f))) := by
  rw [Parse.continuation, Parse.continuation]
  refine bind current fun t => ?_
  rw [Token.move_kind]
  split
  · exact bind (ih.items fs .rparen) fun es => pure (Expr.call t.pos left es)
  · exact bind advance fun _ => bind (ih.expression fs _) fun key =>
      bind (expectPeek .rbracket) fun _ => pure (Expr.index t.pos left key)
  · refine bind (expectPeek .ident) fun _ => bind current fun name => ?_
    refine bind (skipPeek .lparen) fun _ => ite (bind current fun paren => ?_) ?_
    · exact bind (ih.items fs .rparen) fun es =>
        pure (Expr.method t.pos left name.pos name.literal paren.pos es)
    · exact pure (Expr.member t.pos left name.pos name.literal)
  · exact moves_stepBehind t .increment left
  · exact moves_stepBehind t .decrement left
  · cases t.kind.binary? with
    | none => exact fail t.pos _
    | some op =>
      exact bind advance fun _ => bind (ih.expression fs _) fun right =>
        pure (Expr.binary t.pos op left right)

theorem operand_succ : Moves f (Expr.mark (.moved f)) (Parse.operand (n + 1) fs)
    (Parse.operand (n' + 1) fs) := by
  rw [Parse.operand, Parse.operand]
  refine bind current fun t => ?_
  have hunary : ∀ op, Moves f (Expr.mark (.moved f))
      (do return .unary t.pos op (← Parse.unaryOperand n fs))
      (do return .unary (f t.pos) op (← Parse.unaryOperand n' fs)) :=
    fun op => bind (ih.unaryOperand fs) fun e => pure (Expr.unary t.pos op e)
  rw [Token.move_kind]
  split
  · exact ih.nameOrAssign fs t
  · exact moves_integer t
  · exact pure (Parse.float t)
  · exact pure (Expr.string t.pos t.literal)
  · exact pure (Expr.bool t.pos true)
  · exact pure (Expr.bool t.pos false)
  · exact pure (Expr.null t.pos)
  · exact pure (Expr.break t.pos)
  · exact pure (Expr.continue t.pos)
  · exact hunary .not
  · exact hunary .negate
  · exact hunary .complement
  · exact moves_stepBefore t .increment
  · exact moves_stepBefore t .decrement
  · exact bind advance fun _ => bind (attempt (ih.expression fs _)) fun e =>
      bind (expectPeek .rparen) fun _ => require e
  · exact ih.conditional fs
  · refine bind (expectPeek .lparen) fun _ => bind (moves_params ih.le) fun ps => ?_
    exact bind (expectPeek .lbrace) fun _ => bind (ih.block fs ps) fun b =>
      pure (Expr.func t.pos ps b)
  · exact bind (ih.items fs .rbracket) fun es => pure (Expr.array t.pos es)
  · exact bind (ih.pairs fs) fun ps => pure (Expr.hash t.pos ps)
  · exact fail t.pos _

theorem unaryOperand_succ : Moves f (Expr.mark (.moved f)) (Parse.unaryOperand (n + 1) fs)
    (Parse.unaryOperand (n' + 1) fs) := by
  rw [Parse.unaryOperand, Parse.unaryOperand]
  exact bind advance fun _ => ih.expression fs _

theorem nameOrAssign_succ (t : Token) : Moves f (Expr.mark (.moved f))
    (Parse.nameOrAssign (n + 1) fs t) (Parse.nameOrAssign (n' + 1) fs (t.move f)) := by
  rw [Parse.nameOrAssign, Parse.nameOrAssign]
  refine bind peek fun op => ?_
  rw [Token.move_kind]
  cases op.kind.assignment? with
  | none => exact pure (Expr.ident t.pos t.literal)
  | some apply =>
    refine bind advance fun _ => bind advance fun _ => bind (ih.expression fs _) fun value => ?_
    rw [assigned_move]
    exact pure (Expr.assign op.pos t.literal (assigned t op apply value))

theorem items_succ (close : Kind) : Moves f (Expr.markAll (.moved f))
    (Parse.items (n + 1) fs close) (Parse.items (n' + 1) fs close) := by
  rw [Parse.items, Parse.items]
  refine bind (skipPeek close) fun _ => ite (pure []) (bind advance fun _ => ?_)
  exact bind (ih.expression fs _) fun e => bind (ih.moreItems fs close) fun es => pure (e :: es)

theorem moreItems_succ (close : Kind) : Moves f (Expr.markAll (.moved f))
    (Parse.moreItems (n + 1) fs close) (Parse.moreItems (n' + 1) fs close) := by
  rw [Parse.moreItems, Parse.moreItems]
  refine bind (skipPeek .comma) fun _ =>
    ite (bind advance fun _ => ?_) (bind (expectPeek close) fun _ => pure [])
  exact bind (ih.expression fs _) fun e => bind (ih.moreItems fs close) fun es => pure (e :: es)

theorem pairs_succ : Moves f (Expr.markPairs (.moved f)) (Parse.pairs (n + 1) fs)
    (Parse.pairs (n' + 1) fs) := by
  rw [Parse.pairs, Parse.pairs]
  refine bind (skipPeek .rbrace) fun _ => ite (pure []) (bind advance fun _ => ?_)
  refine bind (ih.expression fs _) fun key => bind (expectPeek .colon) fun _ => ?_
  refine bind advance fun _ => bind (ih.expression fs _) fun value => ?_
  refine bind (peekIs .rbrace) fun _ => ite ?_ (bind (expectPeek .comma) fun _ => ?_)
  all_goals exact bind (ih.pairs fs) fun ps => pure ((key, value) :: ps)

theorem conditional_succ : Moves f (Expr.mark (.moved f)) (Parse.conditional (n + 1) fs)
    (Parse.conditional (n' + 1) fs) := by
  rw [Parse.conditional, Parse.conditional]
  refine bind current fun t => bind (expectPeek .lparen) fun _ => bind advance fun _ => ?_
  refine bind (attempt (ih.expression fs _)) fun c => bind (expectPeek .rparen) fun _ => ?_
  refine bind (expectPeek .lbrace) fun _ => bind (ih.block fs []) fun b => ?_
  rw [← Expr.markOption_eq_map]
  refine bind (skipPeek .kwElse) fun _ => ite ?_ (pure (Expr.cond t.pos c b none))
  exact bind (ih.alternative fs) fun a => pure (Expr.cond t.pos c b (some a))

theorem alternative_succ : Moves f (Block.mark (.moved f)) (Parse.alternative (n + 1) fs)
    (Parse.alternative (n' + 1) fs) := by
  rw [Parse.alternative, Parse.alternative]
  refine bind (skipPeek .kwIf) fun _ =>
    ite (bind current fun t => ?_) (bind (expectPeek .lbrace) fun _ => ih.block fs [])
  exact bind (ih.conditional _) fun e => pure (Block.mk t.pos [.expr t.pos t.literal e])

theorem block_succ (ps : List String) : Moves f (Block.mark (.moved f))
    (Parse.block (n + 1) fs ps) (Parse.block (n' + 1) fs ps) := by
  rw [Parse.block, Parse.block]
  refine bind current fun t => bind advance fun _ => bind (ih.blockStatements fs _) fun ss => ?_
  refine bind (currentIs .eof) fun _ => ite (bind current fun u => ?_) (pure (Block.mk t.pos ss))
  exact bind (report rfl) fun _ => pure (Block.mk t.pos ss)

theorem blockStatements_succ (own : Frame) : Moves f (Stmt.markAll (.moved f))
    (Parse.blockStatements (n + 1) fs own) (Parse.blockStatements (n' + 1) fs own) := by
  rw [Parse.blockStatements, Parse.blockStatements]
  refine bind current fun t => ite (pure []) ?_
  exact moves_listed (ih.statement _) (ih.blockStatements fs)

theorem declaration_succ (isConst : Bool) : Moves f (Stmt.mark (.moved f))
    (Parse.declaration (n + 1) fs isConst) (Parse.declaration (n' + 1) fs isConst) := by
  rw [Parse.declaration, Parse.declaration]
  refine bind current fun t => bind (expectPeek .ident) fun _ => bind current fun name => ?_
  refine bind (expectPeek .assign) fun _ => bind advance fun _ => ?_
  refine bind (attempt (ih.expression fs _)) fun o => bind skipToSemicolon fun _ => ?_
  exact bind (require o) fun e => pure (Stmt.declare t.pos isConst name.literal e)

theorem returnStatement_succ : Moves f (Stmt.mark (.moved f))
    (Parse.returnStatement (n + 1) fs) (Parse.returnStatement (n' + 1) fs) := by
  rw [Parse.returnStatement, Parse.returnStatement]
  refine bind current fun t => bind (skipPeek .semicolon) fun _ =>
    ite (pure (Stmt.return t.pos none)) (bind peek fun u => ?_)
  refine ite (pure (Stmt.return t.pos none)) (bind advance fun _ => ?_)
  refine bind (attempt (ih.expression fs _)) fun o => bind skipToSemicolon fun _ => ?_
  rw [← Expr.markOption_eq_map]
  exact pure (Stmt.return t.pos o)

theorem expressionStatement_succ : Moves f (Stmt.mark (.moved f))
    (Parse.expressionStatement (n + 1) fs) (Parse.expressionStatement (n' + 1) fs) := by
  rw [Parse.expressionStatement, Parse.expressionStatement]
  refine bind current fun t => bind (attempt (ih.expression fs _)) fun o => ?_
  exact bind (skipPeek .semicolon) fun _ => bind (require o) fun e =>
    pure (Stmt.expr t.pos t.literal e)

theorem functionStatement_succ : Moves f (Stmt.mark (.moved f))
    (Parse.functionStatement (n + 1) fs) (Parse.functionStatement (n' + 1) fs) := by
  rw [Parse.functionStatement, Parse.functionStatement]
  refine bind current fun t => bind advance fun _ => bind current fun name => ?_
  refine bind (expectPeek .lparen) fun _ => bind (moves_params ih.le) fun ps => ?_
  exact bind (expectPeek .lbrace) fun _ => bind (ih.block fs ps) fun b =>
    pure (Stmt.func t.pos name.literal ps b)

theorem whileStatement_succ : Moves f (Stmt.mark (.moved f))
    (Parse.whileStatement (n + 1) fs) (Parse.whileStatement (n' + 1) fs) := by
  rw [Parse.whileStatement, Parse.whileStatement]
  refine bind current fun t => bind (expectPeek .lparen) fun _ => bind advance fun _ => ?_
  refine bind (attempt (ih.expression fs _)) fun c => bind (expectPeek .rparen) fun _ => ?_
  rw [← Expr.markOption_eq_map]
  exact bind (expectPeek .lbrace) fun _ => bind (ih.block fs []) fun b =>
    pure (Stmt.while t.pos c b)

theorem forStatement_succ : Moves f (Stmt.mark (.moved f))
    (Parse.forStatement (n + 1) fs) (Parse.forStatement (n' + 1) fs) := by
  rw [Parse.forStatement, Parse.forStatement]
  refine bind current fun t => bind (expectPeek .lparen) fun _ => bind advance fun _ => ?_
  refine bind (ih.forInit fs) fun i => ?_
  have hown : ((Stmt.markOption (.moved f) i).map (Frame.add {})).getD {} =
      (i.map (Frame.add {})).getD {} := by
    cases i <;> simp
  rw [hown]
  refine bind advance fun _ => bind (ih.forCondition _) fun c => bind advance fun _ => ?_
  refine bind (ih.forUpdate _) fun u => bind (expectPeek .lbrace) fun _ => ?_
  exact bind (ih.block _ []) fun b => pure (Stmt.for t.pos i c u b)

theorem forInit_succ : Moves f (Stmt.markOption (.moved f)) (Parse.forInit (n + 1) fs)
    (Parse.forInit (n' + 1) fs) := by
  rw [Parse.forInit, Parse.forInit]
  refine bind current fun t => ite (pure none) ?_
  have htarget : ∀ s : Stmt, Frames.checkTarget ({} :: fs) (s.mark (.moved f)).target? =
      (Frames.checkTarget ({} :: fs) s.target?).map (.move f) := by
    intro s
    rw [Stmt.target?_mark, Frames.checkTarget_map]
    rfl
  refine ite (bind (ih.declaration _ _) fun s => ?_) (bind (ih.expressionStatement _) fun s => ?_)
  all_goals
    refine bind (report (htarget s)) fun _ => bind (currentIs .semicolon) fun _ => ?_
    exact ite (pure (some s)) (bind (expectPeek .semicolon) fun _ => pure (some s))

theorem forCondition_succ : Moves f (Expr.markOption (.moved f)) (Parse.forCondition (n + 1) fs)
    (Parse.forCondition (n' + 1) fs) := by
  rw [Parse.forCondition, Parse.forCondition]
  refine bind (currentIs .semicolon) fun _ => ite (pure none) ?_
  refine bind (attempt (ih.expression fs _)) fun o => bind (expectPeek .semicolon) fun _ => ?_
  rw [← Expr.markOption_eq_map]
  exact pure o

theorem forUpdate_succ : Moves f (Expr.markOption (.moved f)) (Parse.forUpdate (n + 1) fs)
    (Parse.forUpdate (n' + 1) fs) := by
  rw [Parse.forUpdate, Parse.forUpdate]
  refine bind (currentIs .rparen) fun _ => ite (pure none) ?_
  refine bind (attempt (ih.expression fs _)) fun o => ?_
  have htarget : Frames.checkTarget fs ((o.map (Expr.mark (.moved f))).bind Expr.target?) =
      (Frames.checkTarget fs (o.bind Expr.target?)).map (.move f) := by
    cases o with
    | none => rfl
    | some e =>
      rw [Option.map_some, Option.bind_some, Expr.target?_mark, Frames.checkTarget_map]
      rfl
  refine bind (report htarget) fun _ => bind (expectPeek .rparen) fun _ => ?_
  rw [← Expr.markOption_eq_map]
  exact pure o

theorem statement_succ : Moves f (Stmt.markOption (.moved f)) (Parse.statement (n + 1) fs)
    (Parse.statement (n' + 1) fs) := by
  rw [Parse.statement, Parse.statement]
  refine bind current fun t => ?_
  rw [Token.move_kind]
  split
  · exact bind (ih.declaration fs false) fun s => pure (some s)
  · exact bind (ih.declaration fs true) fun s => pure (some s)
  · exact bind (ih.returnStatement fs) fun s => pure (some s)
  · exact bind (ih.whileStatement fs) fun s => pure (some s)
  · exact bind (ih.forStatement fs) fun s => pure (some s)
  · exact pure none
  · exact bind (peekIs .ident) fun _ => ite (bind (ih.functionStatement fs) fun s => pure (some s))
      (bind (ih.expressionStatement fs) fun s => pure (some s))
  · exact bind (ih.expressionStatement fs) fun s => pure (some s)

end Moved

theorem moved : ∀ {n n'}, n ≤ n' → Moved f n n'
  | 0, n', _ => moved_zero n'
  | _ + 1, _ + 1, h =>
    have ih := moved (Nat.le_of_succ_le_succ h)
    { le := h
      expression := ih.expression_succ
      extend := ih.extend_succ
      continuation := ih.continuation_succ
      operand := ih.operand_succ
      unaryOperand := ih.unaryOperand_succ
      nameOrAssign := ih.nameOrAssign_succ
      items := ih.items_succ
      moreItems := ih.moreItems_succ
      pairs := ih.pairs_succ
      conditional := ih.conditional_succ
      alternative := ih.alternative_succ
      block := ih.block_succ
      blockStatements := ih.blockStatements_succ
      statement := ih.statement_succ
      declaration := ih.declaration_succ
      returnStatement := ih.returnStatement_succ
      expressionStatement := ih.expressionStatement_succ
      functionStatement := ih.functionStatement_succ
      whileStatement := ih.whileStatement_succ
      forStatement := ih.forStatement_succ
      forInit := ih.forInit_succ
      forCondition := ih.forCondition_succ
      forUpdate := ih.forUpdate_succ }

theorem moves_programStatements : ∀ {n n'}, n ≤ n' → ∀ own : Frame,
    Moves f (Stmt.markAll (.moved f)) (programStatements n own) (programStatements n' own)
  | 0, _, _, _ => outOfFuel
  | n + 1, n' + 1, h, own => by
    have hn := Nat.le_of_succ_le_succ h
    rw [programStatements, programStatements]
    refine bind (currentIs .eof) fun _ => ite (pure []) ?_
    exact moves_listed ((moved hn).statement _) (moves_programStatements hn)

/-- A program whose tokens stand elsewhere, read with at least as much fuel as was enough. -/
theorem run_move (f : Pos → Pos) (h : n ≤ n') {ts : List Token} {r : Program × List ParseError}
    (hts : ts ≠ []) (hrun : run n ts = some r) :
    run n' (ts.map (Token.move f)) = some (r.1.mark (.moved f), r.2.map (.move f)) := by
  obtain ⟨t, ts, rfl⟩ := List.exists_cons_of_ne_nil hts
  have hmoves := moves_programStatements (f := f) h {} { stream := ⟨t, ts⟩ }
  have hstart : ReaderState.move f { stream := ⟨t, ts⟩ } =
      { stream := .ofTokens ((t :: ts).map (Token.move f)) } := rfl
  rw [hstart] at hmoves
  rw [run, Stream.ofTokens] at hrun
  cases hrest : programStatements n {} { stream := ⟨t, ts⟩ } with
  | error e s => simp [hrest] at hrun
  | ok ss s =>
    simp only [hrest, Option.some.injEq] at hrun
    subst hrun
    obtain ⟨s', hout⟩ | hmoved := hmoves
    · rw [hrest] at hout
      cases hout
    · rw [run, hmoved, hrest]
      simp [moveResult, ReaderState.move, Program.mark]

/-- More fuel than was enough changes neither the tree nor the errors. -/
theorem run_mono (h : n ≤ n') {ts : List Token} {r : Program × List ParseError} (hts : ts ≠ [])
    (hrun : run n ts = some r) : run n' ts = some r := by
  have hmoved := run_move id h hts hrun
  have htokens : ts.map (Token.move id) = ts := List.map_id' ts
  have herrors : r.2.map (ParseError.move id) = r.2 :=
    (List.map_congr_left fun e _ => by cases e <;> rfl).trans (List.map_id r.2)
  rwa [htokens, herrors, Program.mark_moved_id] at hmoved

end Parse

/-- What the grammar makes of the tokens of a text when they are moved. -/
theorem run_move_tokens (f : Pos → Pos) (source : String) {n : Nat}
    (h : Parse.fuel (tokens source) ≤ n) :
    Parse.run n ((tokens source).map (Token.move f)) =
      some ((parse source).1.mark (.moved f), (parse source).2.map (.move f)) :=
  Parse.run_move f h (tokens_ne_nil source) (parse_reads source).1

theorem endsWithEof_map_bare {a : List Token} :
    EndsWithEof (a.map Token.bare) ↔ EndsWithEof a := by
  unfold EndsWithEof
  rw [List.getLast?_map]
  cases a.getLast? <;> simp [Token.bare]

/-- What is read, up to positions, depends on the tokens without their places. -/
theorem run_of_bare {a ts : List Token} {n : Nat} {q : Program} (hts : a.map Token.bare = ts)
    (hlast : EndsWithEof ts) (hrun : Parse.run n ts = some (q, [])) :
    ∃ p, Parse.run (Parse.fuel a) a = some (p, []) ∧ p.mark (.moved fun _ => .start) = q := by
  subst hts
  have ha := endsWithEof_map_bare.mp hlast
  obtain ⟨⟨p, errors⟩, hreads, -⟩ := Parse.run_reads ha
  have hmoved := Parse.run_move (fun _ => .start) (Nat.le_max_left _ n) ha.ne_nil hreads
  have hmono := Parse.run_mono (Nat.le_max_right (Parse.fuel a) n) hlast.ne_nil hrun
  obtain ⟨hp, herrors⟩ : p.mark (.moved fun _ => .start) = q ∧ errors = [] := by
    simpa using hmoved.symm.trans hmono
  exact ⟨p, by rw [hreads, herrors], hp⟩

/-- The same of a text. -/
theorem parse_of_bare {source : String} {ts : List Token} {n : Nat} {q : Program}
    (hts : Scan.bare source.toList = ts) (hrun : Parse.run n ts = some (q, [])) :
    ∃ p, parse source = (p, []) ∧ p.mark (.moved fun _ => .start) = q := by
  have hlast : EndsWithEof ts := hts ▸ endsWithEof_map_bare.mpr (endsWithEof_tokens source)
  obtain ⟨p, hreads, hp⟩ := run_of_bare (a := tokens source) hts hlast hrun
  rw [(parse_reads source).1] at hreads
  exact ⟨p, Option.some.inj hreads, hp⟩

end Vorn
