import Vorn.Grammar.Parse
import Vorn.Proofs.Grammar.ScopePass
import Vorn.Proofs.Grammar.Triple
import Vorn.Proofs.Tree.WellFormed

/-!
# What the grammar makes of a text

If a text breaks no rule of the grammar, then its tree is made of well-formed nodes, and the errors
that were reported while it was read are those of a separate pass over the tree:

* `Parse.specs`: one triple for each function of the grammar, by induction on the fuel;
* `reads_of_parse`: both facts of a whole program;
* `wellFormed_of_accepted`, `scopeErrors_of_accepted`: an accepted program is well-formed and
  breaks no rule on names.
-/

namespace Vorn

/-- What was read are the nodes `ns`, all well-formed, and the errors reported meanwhile are those
that the pass over the tree finds. -/
structure Reads (ns : List Node) (errors new : List ParseError) : Prop where
  wellFormed : ∀ n ∈ ns, n.WellFormed
  errors : new = errors

namespace Reads

variable {n : Node} {ms ns : List Node} {es fs new more : List ParseError}

theorem nil : Reads [] [] [] := ⟨by simp, rfl⟩

theorem node (hn : n.WellFormed) (h : Reads ns es new) : Reads (n :: ns) es new :=
  ⟨List.forall_mem_cons.mpr ⟨hn, h.wellFormed⟩, h.errors⟩

theorem leaf (hn : n.WellFormed) : Reads [n] [] [] := nil.node hn

theorem append (h : Reads ms es new) (h' : Reads ns fs more) :
    Reads (ms ++ ns) (es ++ fs) (new ++ more) :=
  ⟨List.forall_mem_append.mpr ⟨h.wellFormed, h'.wellFormed⟩, by rw [h.errors, h'.errors]⟩

end Reads

namespace Parse

open Reader Reader.Meets

variable {φ : Prop} {n : Nat}

/-! ## Forms without expressions inside -/

theorem meets_moreParams : ∀ n, Meets φ (moreParams n) fun xs new =>
    (∀ x ∈ xs, IsName x) ∧ new = []
  | 0 => outOfFuel
  | n + 1 => by
    rw [moreParams]
    refine silent (skipPeek .comma) fun b => ite (fun _ => ?_) fun _ => ?_
    · refine expectPeek_current fun t ht hk => ?_
      refine bind (meets_moreParams n) fun xs new => pure ?_
      rintro ⟨-, hxs, rfl⟩
      simp only [Token.Valid, hk] at ht
      exact ⟨List.forall_mem_cons.mpr ⟨ht, hxs⟩, rfl⟩
    · exact silent (expectPeek .rparen) fun _ => pure fun _ => ⟨by simp, rfl⟩

theorem meets_params (n : Nat) : Meets φ (params n) fun xs new =>
    (∀ x ∈ xs, IsName x) ∧ new = [] := by
  rw [params]
  refine silent (skipPeek .rparen) fun b => ite (fun _ => pure fun _ => ⟨by simp, rfl⟩) fun _ => ?_
  refine expectPeek_current fun t ht hk => ?_
  refine bind (meets_moreParams n) fun xs new => pure ?_
  rintro ⟨-, hxs, rfl⟩
  simp only [Token.Valid, hk] at ht
  exact ⟨List.forall_mem_cons.mpr ⟨ht, hxs⟩, rfl⟩

theorem meets_integer {t : Token} (ht : IsWhole t.literal) (fs : Frames) :
    Meets φ (integer t) fun e new => Reads e.nodes (e.scopeErrors fs) new := by
  unfold integer
  split
  · rename_i value hvalue
    exact pure fun _ => .leaf ⟨ht, hvalue⟩
  · exact fail _ _

theorem meets_stepBefore (t : Token) (op : StepOp) (fs : Frames) :
    Meets φ (stepBefore t op) fun e new => Reads e.nodes (e.scopeErrors fs) new := by
  refine silent advance fun _ => current_bind fun target ht => ite (fun hk => ?_) fun _ => fail _ _
  simp only [Token.Valid, hk] at ht
  exact pure fun _ => .leaf ht

/-- A step behind a variable that has been read. -/
theorem meets_stepBehind (t : Token) (op : StepOp) (left : Expr) (fs : Frames) :
    Meets (∀ m ∈ left.nodes, m.WellFormed) (stepBehind t op left) fun e new =>
      Reads e.nodes (e.scopeErrors fs) (left.scopeErrors fs ++ new) := by
  unfold stepBehind
  split
  · rename_i p name
    exact pure fun h => .leaf (h (.expr (.ident p name)) (by simp [Expr.nodes]))
  · exact fail _ _

/-! ## The grammar -/

/-- What an expression was read as. -/
abbrev ReadsExpr (fs : Frames) (e : Expr) (new : List ParseError) : Prop :=
  Reads e.nodes (e.scopeErrors fs) new

/-- What a statement was read as. -/
abbrev ReadsStmt (fs : Frames) (s : Stmt) (new : List ParseError) : Prop :=
  Reads s.nodes (s.scopeErrors fs) new

/-- What the first clause of a `for` was read as. -/
abbrev ReadsClause (fs : Frames) (s : Stmt) (new : List ParseError) : Prop :=
  ReadsStmt fs s new ∧ s.isClause = true

theorem meets_listed {fs : Frames} {own : Frame} {one : Reader (Option Stmt)}
    {rest : Frame → Reader (List Stmt)}
    (hone : Meets φ one fun o new =>
      Reads (Stmt.nodesOfOption o) ((o.map (Stmt.scopeErrors (own :: fs))).getD []) new)
    (hrest : ∀ {φ : Prop} own, Meets φ (rest own) fun ss new =>
      Reads (Stmt.nodesOfAll ss) (Stmt.scopeErrorsOfAll fs own ss) new) :
    Meets φ (Parse.listed fs own one rest) fun ss new =>
      Reads (Stmt.nodesOfAll ss) (Stmt.scopeErrorsOfAll fs own ss) new := by
  refine bind (attempt hone) fun o new => ?_
  have hskip : Meets (φ ∧ o = some none ∧ new = []) (do Reader.advance; rest own) fun ss more =>
      Reads (Stmt.nodesOfAll ss) (Stmt.scopeErrorsOfAll fs own ss) (new ++ more) := by
    refine silent advance fun _ => (hrest own).conseq id ?_
    rintro ss more ⟨-, -, rfl⟩ hss
    exact hss
  rcases o with _ | _ | s
  · exact hskip.weaken (by rintro ⟨-, o, ⟨⟩, -⟩)
  · refine hskip.weaken ?_
    rintro ⟨hφ, o, heq, ho⟩
    obtain rfl : none = o := by simpa using heq
    exact ⟨hφ, rfl, ho.errors⟩
  · refine bind (report _) fun _ more => silent advance fun _ => ?_
    refine bind (hrest (own.add s)) fun ss last => pure ?_
    rintro ⟨⟨⟨-, o, heq, ho⟩, rfl, -⟩, hss⟩
    obtain rfl : some s = o := by simpa using heq
    have hcheck : Reads [] (Frames.check own fs s) (Frames.check own fs s) := ⟨by simp, rfl⟩
    rw [List.append_nil]
    exact Reads.append ho (hcheck.append hss)

/-- One triple for each function of the grammar, with the fuel `n`. -/
structure Specs (n : Nat) : Prop where
  expression : ∀ {φ : Prop} fs level, Meets φ (expression n fs level) (ReadsExpr fs)
  extend : ∀ fs level left, Meets (∀ m ∈ left.nodes, m.WellFormed) (extend n fs level left)
    fun e new => ReadsExpr fs e (left.scopeErrors fs ++ new)
  continuation : ∀ fs left, Meets (∀ m ∈ left.nodes, m.WellFormed) (continuation n fs left)
    fun e new => ReadsExpr fs e (left.scopeErrors fs ++ new)
  operand : ∀ {φ : Prop} fs, Meets φ (operand n fs) (ReadsExpr fs)
  unaryOperand : ∀ {φ : Prop} fs, Meets φ (unaryOperand n fs) (ReadsExpr fs)
  nameOrAssign : ∀ {φ : Prop} fs t, IsName t.literal →
    Meets φ (nameOrAssign n fs t) (ReadsExpr fs)
  items : ∀ {φ : Prop} fs close, Meets φ (items n fs close) fun es new =>
    Reads (Expr.nodesOfAll es) (Expr.scopeErrorsOfAll fs es) new
  moreItems : ∀ {φ : Prop} fs close, Meets φ (moreItems n fs close) fun es new =>
    Reads (Expr.nodesOfAll es) (Expr.scopeErrorsOfAll fs es) new
  pairs : ∀ {φ : Prop} fs, Meets φ (pairs n fs) fun ps new =>
    Reads (Expr.nodesOfPairs ps) (Expr.scopeErrorsOfPairs fs ps) new
  conditional : ∀ {φ : Prop} fs, Meets φ (conditional n fs) fun e new =>
    ReadsExpr fs e new ∧ e.target? = none
  alternative : ∀ {φ : Prop} fs, Meets φ (alternative n fs) fun b new =>
    Reads b.nodes (b.scopeErrors fs []) new
  block : ∀ {φ : Prop} fs ps, Meets φ (block n fs ps) fun b new =>
    Reads b.nodes (b.scopeErrors fs ps) new
  blockStatements : ∀ {φ : Prop} fs own, Meets φ (blockStatements n fs own) fun ss new =>
    Reads (Stmt.nodesOfAll ss) (Stmt.scopeErrorsOfAll fs own ss) new
  statement : ∀ {φ : Prop} fs, Meets φ (statement n fs) fun o new =>
    Reads (Stmt.nodesOfOption o) ((o.map (Stmt.scopeErrors fs)).getD []) new
  declaration : ∀ {φ : Prop} fs isConst, Meets φ (declaration n fs isConst) (ReadsClause fs)
  returnStatement : ∀ {φ : Prop} fs, Meets φ (returnStatement n fs) (ReadsStmt fs)
  expressionStatement : ∀ {φ : Prop} fs, Meets φ (expressionStatement n fs) (ReadsClause fs)
  functionStatement : ∀ {φ : Prop} fs (s : ReaderState), s.stream.Valid →
    s.stream.peek.kind = .ident → MeetsAt s φ (functionStatement n fs) (ReadsStmt fs)
  whileStatement : ∀ {φ : Prop} fs, Meets φ (whileStatement n fs) (ReadsStmt fs)
  forStatement : ∀ {φ : Prop} fs, Meets φ (forStatement n fs) (ReadsStmt fs)
  forInit : ∀ {φ : Prop} fs, Meets φ (forInit n fs) fun o new =>
    Reads (Stmt.nodesOfOption o) (Stmt.scopeErrorsOfInit fs o) new ∧ ∀ s ∈ o, s.isClause = true
  forCondition : ∀ {φ : Prop} fs, Meets φ (forCondition n fs) fun o new =>
    Reads (Expr.nodesOfOption o) (Expr.scopeErrorsOfOption fs o) new
  forUpdate : ∀ {φ : Prop} fs, Meets φ (forUpdate n fs) fun o new =>
    Reads (Expr.nodesOfOption o)
      (Expr.scopeErrorsOfOption fs o ++ Frames.checkTarget fs (o.bind Expr.target?)) new

/-- Without fuel nothing is read. -/
theorem specs_zero : Specs 0 := by
  constructor
  case functionStatement => exact fun _ s hs _ => outOfFuel s hs
  all_goals intros; exact outOfFuel

namespace Specs

/-! ### Expressions -/

variable (ih : Specs n) (fs : Frames)

include ih

theorem expression_succ (level : Nat) :
    Meets φ (Parse.expression (n + 1) fs level) (ReadsExpr fs) := by
  rw [Parse.expression]
  refine bind (ih.operand fs) fun left new => ?_
  refine (ih.extend fs level left).conseq (fun h => h.2.wellFormed) ?_
  rintro e more ⟨-, hleft⟩ he
  rwa [hleft.errors]

theorem extend_succ (level : Nat) (left : Expr) :
    Meets (∀ m ∈ left.nodes, m.WellFormed) (Parse.extend (n + 1) fs level left)
      fun e new => ReadsExpr fs e (left.scopeErrors fs ++ new) := by
  rw [Parse.extend]
  refine peek_bind fun t _ => ite (fun _ => ?_) fun _ => pure fun h => ⟨h, by simp⟩
  refine silent advance fun _ => bind (ih.continuation fs left) fun e new => ?_
  refine (ih.extend fs level e).conseq (fun h => h.2.wellFormed) ?_
  rintro e' more ⟨-, he⟩ he'
  rw [← List.append_assoc, he.errors]
  exact he'

theorem continuation_succ (left : Expr) :
    Meets (∀ m ∈ left.nodes, m.WellFormed) (Parse.continuation (n + 1) fs left)
      fun e new => ReadsExpr fs e (left.scopeErrors fs ++ new) := by
  rw [Parse.continuation]
  refine current_bind fun t _ => ?_
  split
  · refine bind (ih.items fs .rparen) fun es new => pure ?_
    rintro ⟨hleft, hes⟩
    rw [List.append_nil]
    exact .node trivial (.append ⟨hleft, rfl⟩ hes)
  · refine silent advance fun _ => bind (ih.expression fs _) fun key new => ?_
    refine silent (expectPeek .rbracket) fun _ => pure ?_
    rintro ⟨hleft, hkey⟩
    rw [List.append_nil]
    exact .node trivial (.append ⟨hleft, rfl⟩ hkey)
  · refine expectPeek_current fun name hname hk => ?_
    simp only [Token.Valid, hk] at hname
    refine silent (skipPeek .lparen) fun b => ite (fun _ => ?_) fun _ => pure fun hleft => ?_
    · refine current_bind fun paren _ => bind (ih.items fs .rparen) fun es new => pure ?_
      rintro ⟨hleft, hes⟩
      rw [List.append_nil]
      exact .node hname (.append ⟨hleft, rfl⟩ hes)
    · rw [List.append_nil]
      exact .node hname ⟨hleft, rfl⟩
  · exact meets_stepBehind t .increment left fs
  · exact meets_stepBehind t .decrement left fs
  · split
    · refine silent advance fun _ => bind (ih.expression fs _) fun right new => pure ?_
      rintro ⟨hleft, hright⟩
      rw [List.append_nil]
      exact .node trivial (.append ⟨hleft, rfl⟩ hright)
    · exact fail _ _

theorem unaryOperand_succ : Meets φ (Parse.unaryOperand (n + 1) fs) (ReadsExpr fs) := by
  rw [Parse.unaryOperand]
  exact silent advance fun _ => ih.expression fs _

theorem nameOrAssign_succ {t : Token} (ht : IsName t.literal) :
    Meets φ (Parse.nameOrAssign (n + 1) fs t) (ReadsExpr fs) := by
  rw [Parse.nameOrAssign]
  refine peek_bind fun op _ => ?_
  split
  · exact pure fun _ => .leaf ht
  · rename_i apply _
    refine silent advance fun _ => silent advance fun _ => ?_
    refine bind (ih.expression fs _) fun value new => pure ?_
    rintro ⟨-, hvalue⟩
    rw [List.append_nil]
    cases apply with
    | none => exact .node ht hvalue
    | some b =>
      have hname : ReadsExpr fs (.ident t.pos t.literal) [] := .leaf ht
      exact .node ht (.node trivial (hname.append hvalue))

theorem items_succ (close : Kind) : Meets φ (Parse.items (n + 1) fs close) fun es new =>
    Reads (Expr.nodesOfAll es) (Expr.scopeErrorsOfAll fs es) new := by
  rw [Parse.items]
  refine silent (skipPeek close) fun b => ite (fun _ => pure fun _ => .nil) fun _ => ?_
  refine silent advance fun _ => bind (ih.expression fs _) fun e new => ?_
  refine bind (ih.moreItems fs close) fun es more => pure ?_
  rintro ⟨⟨-, he⟩, hes⟩
  rw [List.append_nil]
  exact he.append hes

theorem moreItems_succ (close : Kind) : Meets φ (Parse.moreItems (n + 1) fs close) fun es new =>
    Reads (Expr.nodesOfAll es) (Expr.scopeErrorsOfAll fs es) new := by
  rw [Parse.moreItems]
  refine silent (skipPeek .comma) fun b => ite (fun _ => ?_) fun _ => ?_
  · refine silent advance fun _ => bind (ih.expression fs _) fun e new => ?_
    refine bind (ih.moreItems fs close) fun es more => pure ?_
    rintro ⟨⟨-, he⟩, hes⟩
    rw [List.append_nil]
    exact he.append hes
  · exact silent (expectPeek close) fun _ => pure fun _ => .nil

theorem pairs_succ : Meets φ (Parse.pairs (n + 1) fs) fun ps new =>
    Reads (Expr.nodesOfPairs ps) (Expr.scopeErrorsOfPairs fs ps) new := by
  rw [Parse.pairs]
  refine silent (skipPeek .rbrace) fun b => ite (fun _ => pure fun _ => .nil) fun _ => ?_
  refine silent advance fun _ => bind (ih.expression fs _) fun key new => ?_
  refine silent (expectPeek .colon) fun _ => silent advance fun _ => ?_
  refine bind (ih.expression fs _) fun value more => ?_
  have hrest : Meets ((φ ∧ ReadsExpr fs key new) ∧ ReadsExpr fs value more)
      (do return (key, value) :: (← Parse.pairs n fs)) fun ps last =>
      Reads (Expr.nodesOfPairs ps) (Expr.scopeErrorsOfPairs fs ps) (new ++ (more ++ last)) := by
    refine bind (ih.pairs fs) fun ps last => pure ?_
    rintro ⟨⟨⟨-, hkey⟩, hvalue⟩, hps⟩
    rw [List.append_nil]
    exact hkey.append (hvalue.append hps)
  exact silent (peekIs .rbrace) fun b => ite (fun _ => hrest) fun _ =>
    silent (expectPeek .comma) fun _ => hrest

theorem conditional_succ : Meets φ (Parse.conditional (n + 1) fs) fun e new =>
    ReadsExpr fs e new ∧ e.target? = none := by
  rw [Parse.conditional]
  refine current_bind fun t _ => silent (expectPeek .lparen) fun _ => silent advance fun _ => ?_
  refine bind (attempt (ih.expression fs _)) fun condition new => ?_
  refine silent (expectPeek .rparen) fun _ => silent (expectPeek .lbrace) fun _ => ?_
  refine bind (ih.block fs []) fun consequence more => ?_
  refine silent (skipPeek .kwElse) fun b => ite (fun _ => ?_) fun _ => pure ?_
  · refine bind (ih.alternative fs) fun alternative last => pure ?_
    rintro ⟨⟨⟨-, c, rfl, hc⟩, hb⟩, ha⟩
    rw [List.append_nil]
    exact ⟨.node rfl (hc.append (hb.append ha)), rfl⟩
  · rintro ⟨⟨-, c, rfl, hc⟩, hb⟩
    exact ⟨.node rfl (hc.append (hb.append .nil)), rfl⟩

theorem operand_succ : Meets φ (Parse.operand (n + 1) fs) (ReadsExpr fs) := by
  rw [Parse.operand]
  refine current_bind fun t ht => ?_
  have hunary : ∀ op, Meets φ (do return .unary t.pos op (← Parse.unaryOperand n fs))
      (ReadsExpr fs) := by
    intro op
    refine bind (ih.unaryOperand fs) fun e new => pure ?_
    rintro ⟨-, he⟩
    rw [List.append_nil]
    exact .node trivial he
  unfold Token.Valid at ht
  split <;> rename_i hk <;> simp only [hk] at ht
  · exact ih.nameOrAssign fs t ht
  · exact meets_integer ht fs
  · exact pure fun _ => .leaf ⟨ht, rfl⟩
  · exact pure fun _ => .leaf ht
  · exact pure fun _ => .leaf trivial
  · exact pure fun _ => .leaf trivial
  · exact pure fun _ => .leaf trivial
  · exact pure fun _ => .leaf trivial
  · exact pure fun _ => .leaf trivial
  · exact hunary .not
  · exact hunary .negate
  · exact hunary .complement
  · exact meets_stepBefore t .increment fs
  · exact meets_stepBefore t .decrement fs
  · refine silent advance fun _ => bind (attempt (ih.expression fs _)) fun o new => ?_
    refine silent (expectPeek .rparen) fun _ => ?_
    refine (require fun h => ?_).conseq id ?_
    · obtain ⟨-, e, rfl, -⟩ := h
      rfl
    · rintro e more ⟨-, e', rfl, he⟩ ⟨heq, rfl⟩
      obtain rfl : e' = e := by simpa using heq
      rwa [List.append_nil]
  · exact (ih.conditional fs).conseq id fun _ _ _ h => h.1
  · refine silent (expectPeek .lparen) fun _ => bind (meets_params n) fun ps new => ?_
    refine silent (expectPeek .lbrace) fun _ => bind (ih.block fs ps) fun b more => pure ?_
    rintro ⟨⟨-, hps, rfl⟩, hb⟩
    rw [List.append_nil, List.nil_append]
    exact .node hps hb
  · refine bind (ih.items fs .rbracket) fun es new => pure ?_
    rintro ⟨-, hes⟩
    rw [List.append_nil]
    exact .node trivial hes
  · refine bind (ih.pairs fs) fun ps new => pure ?_
    rintro ⟨-, hps⟩
    rw [List.append_nil]
    exact .node trivial hps
  · exact fail _ _

/-! ### Blocks and statements -/

theorem alternative_succ : Meets φ (Parse.alternative (n + 1) fs) fun b new =>
    Reads b.nodes (b.scopeErrors fs []) new := by
  rw [Parse.alternative]
  refine silent (skipPeek .kwIf) fun b => ite (fun _ => ?_) fun _ => ?_
  · refine current_bind fun t _ => bind (ih.conditional ({} :: fs)) fun e new => pure ?_
    rintro ⟨-, he, htarget⟩
    -- The block around the nested `if` declares nothing and assigns nothing.
    have hcheck : Frames.check {} fs (.expr t.pos t.literal e) = [] := by
      simp [Frames.check, Stmt.target?, htarget, Frames.checkTarget, Frame.checkFresh]
    have hs : ReadsStmt ({} :: fs) (.expr t.pos t.literal e) new := .node trivial he
    simpa [Block.nodes, Stmt.nodesOfAll, Block.scopeErrors, Stmt.scopeErrorsOfAll, hcheck] using hs
  · exact silent (expectPeek .lbrace) fun _ => ih.block fs []

theorem block_succ (ps : List String) : Meets φ (Parse.block (n + 1) fs ps) fun b new =>
    Reads b.nodes (b.scopeErrors fs ps) new := by
  rw [Parse.block]
  refine current_bind fun t _ => silent advance fun _ => ?_
  refine bind (ih.blockStatements fs { params := ps }) fun ss new => ?_
  refine silent (currentIs .eof) fun b => ite (fun _ => ?_) fun _ => pure ?_
  · refine current_bind fun u _ => bind (report _) fun _ more => pure ?_
    rintro ⟨-, rfl, hclean⟩
    exact (not_clean_grammar _ _ hclean).elim
  · rintro ⟨-, hss⟩
    rw [List.append_nil]
    exact hss

theorem blockStatements_succ (own : Frame) :
    Meets φ (Parse.blockStatements (n + 1) fs own) fun ss new =>
      Reads (Stmt.nodesOfAll ss) (Stmt.scopeErrorsOfAll fs own ss) new := by
  rw [Parse.blockStatements]
  refine current_bind fun t _ => ite (fun _ => pure fun _ => .nil) fun _ => ?_
  exact meets_listed (ih.statement _) fun own => ih.blockStatements fs own

theorem declaration_succ (isConst : Bool) :
    Meets φ (Parse.declaration (n + 1) fs isConst) (ReadsClause fs) := by
  rw [Parse.declaration]
  refine current_bind fun t _ => expectPeek_current fun name hname hk => ?_
  simp only [Token.Valid, hk] at hname
  refine silent (expectPeek .assign) fun _ => silent advance fun _ => ?_
  refine bind (attempt (ih.expression fs _)) fun o new => silent skipToSemicolon fun _ => ?_
  refine bind (require fun h => ?_) fun e more => pure ?_
  · obtain ⟨-, e, rfl, -⟩ := h
    rfl
  · rintro ⟨⟨-, e', rfl, he⟩, heq, rfl⟩
    obtain rfl : e' = e := by simpa using heq
    rw [List.append_nil, List.append_nil]
    exact ⟨.node hname he, rfl⟩

theorem returnStatement_succ : Meets φ (Parse.returnStatement (n + 1) fs) (ReadsStmt fs) := by
  rw [Parse.returnStatement]
  have hnone : ∀ t : Token, Meets φ (return Stmt.return t.pos none) (ReadsStmt fs) :=
    fun t => pure fun _ => .leaf trivial
  refine current_bind fun t _ => silent (skipPeek .semicolon) fun b => ite (fun _ => hnone t) ?_
  refine fun _ => peek_bind fun u _ => ite (fun _ => hnone t) fun _ => silent advance fun _ => ?_
  refine bind (attempt (ih.expression fs _)) fun o new => silent skipToSemicolon fun _ => pure ?_
  rintro ⟨-, e, rfl, he⟩
  rw [List.append_nil]
  exact .node trivial he

theorem expressionStatement_succ :
    Meets φ (Parse.expressionStatement (n + 1) fs) (ReadsClause fs) := by
  rw [Parse.expressionStatement]
  refine current_bind fun t _ => bind (attempt (ih.expression fs _)) fun o new => ?_
  refine silent (skipPeek .semicolon) fun _ => bind (require fun h => ?_) fun e more => pure ?_
  · obtain ⟨-, e, rfl, -⟩ := h
    rfl
  · rintro ⟨⟨-, e', rfl, he⟩, heq, rfl⟩
    obtain rfl : e' = e := by simpa using heq
    rw [List.append_nil, List.append_nil]
    exact ⟨.node trivial he, rfl⟩

theorem functionStatement_succ {s : ReaderState} (hs : s.stream.Valid)
    (hk : s.stream.peek.kind = .ident) :
    MeetsAt s φ (Parse.functionStatement (n + 1) fs) (ReadsStmt fs) := by
  rw [Parse.functionStatement]
  have hname := hs.peek
  simp only [Token.Valid, hk] at hname
  refine stepAt (run_current s) rfl (stepAt (run_advance s) rfl (stepAt (run_current _) rfl ?_))
  rw [Stream.current_advance]
  refine silent (expectPeek .lparen) (fun _ => ?_) _ hs.advance
  refine bind (meets_params n) fun ps new => silent (expectPeek .lbrace) fun _ => ?_
  refine bind (ih.block fs ps) fun b more => pure ?_
  rintro ⟨⟨-, hps, rfl⟩, hb⟩
  rw [List.append_nil, List.nil_append]
  exact .node ⟨hname, hps⟩ hb

theorem whileStatement_succ : Meets φ (Parse.whileStatement (n + 1) fs) (ReadsStmt fs) := by
  rw [Parse.whileStatement]
  refine current_bind fun t _ => silent (expectPeek .lparen) fun _ => silent advance fun _ => ?_
  refine bind (attempt (ih.expression fs _)) fun o new => ?_
  refine silent (expectPeek .rparen) fun _ => silent (expectPeek .lbrace) fun _ => ?_
  refine bind (ih.block fs []) fun b more => pure ?_
  rintro ⟨⟨-, c, rfl, hc⟩, hb⟩
  rw [List.append_nil]
  exact .node rfl (hc.append hb)

theorem forStatement_succ : Meets φ (Parse.forStatement (n + 1) fs) (ReadsStmt fs) := by
  rw [Parse.forStatement]
  refine current_bind fun t _ => silent (expectPeek .lparen) fun _ => silent advance fun _ => ?_
  refine bind (ih.forInit fs) fun init new => silent advance fun _ => ?_
  refine bind (ih.forCondition _) fun condition more => silent advance fun _ => ?_
  refine bind (ih.forUpdate _) fun update more' => silent (expectPeek .lbrace) fun _ => ?_
  refine bind (ih.block _ []) fun body last => pure ?_
  rintro ⟨⟨⟨⟨-, hinit, hclause⟩, hcondition⟩, hupdate⟩, hbody⟩
  rw [List.append_nil]
  have h := hinit.append (hcondition.append (hupdate.append hbody))
  rw [List.append_assoc (Expr.scopeErrorsOfOption _ update)] at h
  exact .node hclause h

theorem forInit_succ : Meets φ (Parse.forInit (n + 1) fs) fun o new =>
    Reads (Stmt.nodesOfOption o) (Stmt.scopeErrorsOfInit fs o) new ∧
      ∀ s ∈ o, s.isClause = true := by
  rw [Parse.forInit]
  refine current_bind fun t _ => ite (fun _ => pure fun _ => ⟨.nil, by simp⟩) fun _ => ?_
  -- What follows the clause is the same for a declaration and an expression.
  have hrest : ∀ s new, Meets (φ ∧ ReadsClause ({} :: fs) s new) (do
      report (Frames.checkTarget ({} :: fs) s.target?)
      unless ← Reader.currentIs .semicolon do Reader.expectPeek .semicolon
      return some s) fun o more =>
        Reads (Stmt.nodesOfOption o) (Stmt.scopeErrorsOfInit fs o) (new ++ more) ∧
          ∀ s ∈ o, s.isClause = true := by
    intro s new
    refine bind (Meets.report _) fun _ more => ?_
    have hdone : Meets ((φ ∧ ReadsClause ({} :: fs) s new) ∧
        more = Frames.checkTarget ({} :: fs) s.target? ∧
        Clean (Frames.checkTarget ({} :: fs) s.target?)) (return some s) fun o last =>
          Reads (Stmt.nodesOfOption o) (Stmt.scopeErrorsOfInit fs o) (new ++ (more ++ last)) ∧
            ∀ s ∈ o, s.isClause = true := by
      refine pure ?_
      rintro ⟨⟨-, hs, hclause⟩, rfl, -⟩
      rw [List.append_nil]
      exact ⟨⟨hs.wellFormed, by rw [hs.errors]; rfl⟩, by simpa using hclause⟩
    exact silent (currentIs .semicolon) fun b => ite (fun _ => hdone) fun _ =>
      silent (expectPeek .semicolon) fun _ => hdone
  refine ite (fun _ => ?_) fun _ => ?_
  · exact bind (ih.declaration _ _) hrest
  · exact bind (ih.expressionStatement _) hrest

theorem forCondition_succ : Meets φ (Parse.forCondition (n + 1) fs) fun o new =>
    Reads (Expr.nodesOfOption o) (Expr.scopeErrorsOfOption fs o) new := by
  rw [Parse.forCondition]
  refine silent (currentIs .semicolon) fun b => ite (fun _ => pure fun _ => .nil) fun _ => ?_
  refine bind (attempt (ih.expression fs _)) fun o new => ?_
  refine silent (expectPeek .semicolon) fun _ => pure ?_
  rintro ⟨-, e, rfl, he⟩
  rw [List.append_nil]
  exact he

theorem forUpdate_succ : Meets φ (Parse.forUpdate (n + 1) fs) fun o new =>
    Reads (Expr.nodesOfOption o)
      (Expr.scopeErrorsOfOption fs o ++ Frames.checkTarget fs (o.bind Expr.target?)) new := by
  rw [Parse.forUpdate]
  refine silent (currentIs .rparen) fun b => ite (fun _ => pure fun _ => .nil) fun _ => ?_
  refine bind (attempt (ih.expression fs _)) fun o new => bind (report _) fun _ more => ?_
  refine silent (expectPeek .rparen) fun _ => pure ?_
  rintro ⟨⟨-, e, rfl, he⟩, rfl, -⟩
  rw [List.append_nil]
  exact ⟨he.wellFormed, by rw [he.errors]; rfl⟩

theorem statement_succ : Meets φ (Parse.statement (n + 1) fs) fun o new =>
    Reads (Stmt.nodesOfOption o) ((o.map (Stmt.scopeErrors fs)).getD []) new := by
  rw [Parse.statement]
  -- Each form gives its statement as it is.
  have hsome : ∀ {r : Reader Stmt} {Q s}, MeetsAt s φ r Q → (∀ s new, Q s new → ReadsStmt fs s new) →
      MeetsAt s φ (do return some (← r)) fun o new =>
        Reads (Stmt.nodesOfOption o) ((o.map (Stmt.scopeErrors fs)).getD []) new := by
    intro r Q s hr hQ
    refine bindAt hr fun s new => pure ?_
    rintro ⟨-, hs⟩
    rw [List.append_nil]
    exact hQ s new hs
  have hclause : ∀ s new, ReadsClause fs s new → ReadsStmt fs s new := fun _ _ h => h.1
  have hstmt : ∀ s new, ReadsStmt fs s new → ReadsStmt fs s new := fun _ _ h => h
  refine current_bind fun t _ => ?_
  split
  · exact fun s hs => hsome (ih.declaration fs false s hs) hclause
  · exact fun s hs => hsome (ih.declaration fs true s hs) hclause
  · exact fun s hs => hsome (ih.returnStatement fs s hs) hstmt
  · exact fun s hs => hsome (ih.whileStatement fs s hs) hstmt
  · exact fun s hs => hsome (ih.forStatement fs s hs) hstmt
  · exact pure fun _ => .nil
  · refine peekIs_bind (fun s hs hk => ?_) ?_
    · exact hsome (ih.functionStatement fs s hs hk) hstmt
    · exact fun s hs => hsome (ih.expressionStatement fs s hs) hclause
  · exact fun s hs => hsome (ih.expressionStatement fs s hs) hclause

end Specs

theorem specs : ∀ n, Specs n
  | 0 => specs_zero
  | n + 1 =>
    have ih := specs n
    { expression := fun fs level => ih.expression_succ fs level
      extend := fun fs level left => ih.extend_succ fs level left
      continuation := fun fs left => ih.continuation_succ fs left
      operand := fun fs => ih.operand_succ fs
      unaryOperand := fun fs => ih.unaryOperand_succ fs
      nameOrAssign := fun fs _ ht => ih.nameOrAssign_succ fs ht
      items := fun fs close => ih.items_succ fs close
      moreItems := fun fs close => ih.moreItems_succ fs close
      pairs := fun fs => ih.pairs_succ fs
      conditional := fun fs => ih.conditional_succ fs
      alternative := fun fs => ih.alternative_succ fs
      block := fun fs ps => ih.block_succ fs ps
      blockStatements := fun fs own => ih.blockStatements_succ fs own
      statement := fun fs => ih.statement_succ fs
      declaration := fun fs isConst => ih.declaration_succ fs isConst
      returnStatement := fun fs => ih.returnStatement_succ fs
      expressionStatement := fun fs => ih.expressionStatement_succ fs
      functionStatement := fun fs _ hs hk => ih.functionStatement_succ fs hs hk
      whileStatement := fun fs => ih.whileStatement_succ fs
      forStatement := fun fs => ih.forStatement_succ fs
      forInit := fun fs => ih.forInit_succ fs
      forCondition := fun fs => ih.forCondition_succ fs
      forUpdate := fun fs => ih.forUpdate_succ fs }

theorem meets_programStatements : ∀ {φ : Prop} (n : Nat) (own : Frame),
    Meets φ (programStatements n own) fun ss new =>
      Reads (Stmt.nodesOfAll ss) (Stmt.scopeErrorsOfAll [] own ss) new
  | _, 0, _ => outOfFuel
  | _, n + 1, own => by
    rw [programStatements]
    refine silent (currentIs .eof) fun b => ite (fun _ => pure fun _ => .nil) fun _ => ?_
    exact meets_listed ((specs n).statement _) fun own => meets_programStatements n own

end Parse

theorem Stream.valid_ofTokens {ts : List Token} (h : ∀ t ∈ ts, t.Valid) :
    (Stream.ofTokens ts).Valid := by
  cases ts with
  | nil => exact ⟨trivial, by simp [Stream.ofTokens]⟩
  | cons t ts => exact ⟨h t (by simp), fun u hu => h u (List.mem_cons_of_mem t hu)⟩

/-- A text without grammar errors: its tree is well-formed, and what was reported is what the pass
over the tree finds. -/
theorem reads_of_parse {source : String} (h : Clean (parse source).2) :
    Reads (parse source).1.nodes (parse source).1.scopeErrors (parse source).2 := by
  have hvalid : (Stream.ofTokens (tokens source)).Valid :=
    Stream.valid_ofTokens fun _ ht => valid_of_mem_tokens ht
  have hmeets := Parse.meets_programStatements (φ := True) (Parse.fuel (tokens source)) {}
    { stream := .ofTokens (tokens source) } hvalid
  revert h
  unfold Reader.MeetsAt at hmeets
  simp only [parse, Parse.run]
  revert hmeets
  cases Parse.programStatements (Parse.fuel (tokens source)) {}
      { stream := .ofTokens (tokens source) } with
  | error e s => exact fun _ _ => .nil
  | ok ss s =>
    rintro ⟨new, hgrow, hread⟩ hclean
    have herrors : s.errors.reverse = new := by rw [hgrow.errors]; simp
    simp only [Option.getD_some, herrors] at hclean ⊢
    exact hread trivial hclean

/-- Accepted programs come from a parse without errors. -/
theorem parse?_eq_ok {source : String} {p : Program} :
    parse? source = .ok p ↔ parse source = (p, []) := by
  unfold parse?
  obtain ⟨q, errors⟩ := parse source
  cases errors <;> simp

theorem wellFormed_of_accepted {source : String} {p : Program} (h : parse? source = .ok p) :
    ∀ n ∈ p.nodes, n.WellFormed := by
  have hread := @reads_of_parse source
  rw [parse?_eq_ok.mp h] at hread
  exact (hread clean_nil).wellFormed

theorem scopeErrors_of_accepted {source : String} {p : Program} (h : parse? source = .ok p) :
    p.scopeErrors = [] := by
  have hread := @reads_of_parse source
  rw [parse?_eq_ok.mp h] at hread
  exact (hread clean_nil).errors.symm

end Vorn
