import Vorn.Grammar.Parse
import Vorn.Proofs.Grammar.Progress
import Vorn.Proofs.Tree.Nodes

/-!
# Where trees come from

Every text is read to its end, accepted or not, and what is left of it in the tree is made of its
tokens:

* `Parse.provisions`: the triple of each function of the grammar, with the fuel that it needs, by
  induction on the fuel;
* `parse_reads`: the tree of any text is what a complete run gives, and its names and places are
  those of tokens.
-/

namespace Vorn

/-! ## Nodes and tokens -/

/-- The names that stand in a node itself. -/
def Node.names : Node → List String
  | .expr (.ident _ name) | .expr (.member _ _ _ name) | .expr (.method _ _ _ name _ _)
  | .expr (.assign _ name _) | .expr (.step _ _ name _) | .stmt (.declare _ _ name _) => [name]
  | .expr (.func _ params _) => params
  | .stmt (.func _ name params _) => name :: params
  | _ => []

def Node.pos : Node → Pos
  | .expr e => e.pos
  | .stmt s => s.pos

/-- The name is written in the text. -/
def IsNamed (ts : List Token) (x : String) : Prop := ∃ t ∈ ts, t.kind = .ident ∧ t.literal = x

/-- The node stands where a token stands, and its names are those of tokens. -/
structure Node.MadeOf (ts : List Token) (n : Node) : Prop where
  pos : ∃ t ∈ ts, t.pos = n.pos
  names : ∀ x ∈ n.names, IsNamed ts x

/-! ## What is read is made of tokens -/

/-- All nodes are made of the tokens. -/
def Made (ts : List Token) (ns : List Node) : Prop := ∀ n ∈ ns, n.MadeOf ts

namespace Made

variable {ts : List Token} {n : Node} {ms ns : List Node}

theorem nil : Made ts [] := fun _ hn => nomatch hn

theorem node (hn : n.MadeOf ts) (h : Made ts ns) : Made ts (n :: ns) :=
  List.forall_mem_cons.mpr ⟨hn, h⟩

theorem leaf (hn : n.MadeOf ts) : Made ts [n] := nil.node hn

theorem append (hm : Made ts ms) (hn : Made ts ns) : Made ts (ms ++ ns) :=
  List.forall_mem_append.mpr ⟨hm, hn⟩

end Made

section

variable {ts : List Token} {t u : Token} {n : Node}

/-- A node without names, at a token. -/
theorem Node.madeOf (ht : t ∈ ts) (hpos : t.pos = n.pos) (hnames : n.names = []) :
    n.MadeOf ts :=
  ⟨⟨t, ht, hpos⟩, fun x hx => by rw [hnames] at hx; cases hx⟩

/-- A node with one name, at a token. -/
theorem Node.madeOf_name (ht : t ∈ ts) (hpos : t.pos = n.pos) (hu : u ∈ ts)
    (hk : u.kind = .ident) (hnames : n.names = [u.literal]) : n.MadeOf ts := by
  refine ⟨⟨t, ht, hpos⟩, fun x hx => ?_⟩
  rw [hnames, List.mem_singleton] at hx
  exact ⟨u, hu, hk, hx.symm⟩

theorem isNamed (hu : u ∈ ts) (hk : u.kind = .ident) : IsNamed ts u.literal := ⟨u, hu, hk, rfl⟩

end

namespace Parse

open Reader Reader.Sure

variable {ts : List Token} {n b w : Nat}

/-! ### Forms without expressions inside -/

theorem sure_moreParams : ∀ {n b w : Nat}, 16 * b + 1 < w →
    Sure ts b (n + 1) w (moreParams n) fun xs => ∀ x ∈ xs, IsNamed ts x
  | 0, _, _, hw => outOfFuel (by omega)
  | n + 1, b, w, hw => by
    rw [moreParams]
    refine call hw (skipPeek_bind (by decide) (fun hb => ?_) ?_)
    · refine expectPeek_current (by decide) fun t ht hk hb' => ?_
      refine bind (sure_moreParams (by omega)) fun xs hxs => pure ?_
      exact List.forall_mem_cons.mpr ⟨isNamed ht hk, hxs⟩
    · exact expectPeek_bind (by decide) fun _ => pure (by simp)

theorem sure_params (hw : 16 * b + 1 < w) :
    Sure ts b (n + 1) w (params n) fun xs => ∀ x ∈ xs, IsNamed ts x := by
  rw [params]
  refine skipPeek_bind (by decide) (fun _ => pure (by simp)) ?_
  refine expectPeek_current (by decide) fun t ht hk hb => ?_
  refine bind (sure_moreParams (by omega)) fun xs hxs => pure ?_
  exact List.forall_mem_cons.mpr ⟨isNamed ht hk, hxs⟩

theorem sure_integer {t : Token} (ht : t ∈ ts) :
    Sure ts b n w (integer t) fun e => Made ts e.nodes := by
  unfold integer
  split
  · exact pure (.leaf (Node.madeOf ht rfl rfl))
  · exact fail _ _

theorem sure_stepBefore {t : Token} (ht : t ∈ ts) (op : StepOp) :
    Sure ts b n w (stepBefore t op) fun e => Made ts e.nodes := by
  refine advance_bind (current_bind fun target htarget _ => ite (fun hk => ?_) fun _ => fail _ _)
  exact pure (.leaf (Node.madeOf_name ht rfl htarget hk rfl))

theorem sure_stepBehind {t : Token} (ht : t ∈ ts) (op : StepOp) (left : Expr) :
    Sure ts b n w (stepBehind t op left) fun e => Made ts left.nodes → Made ts e.nodes := by
  unfold stepBehind
  split
  · rename_i p name
    refine pure fun hleft => ?_
    have hname := (hleft (.expr (.ident p name)) (by simp [Expr.nodes])).names
    exact .leaf ⟨⟨t, ht, rfl⟩, hname⟩
  · exact fail _ _

theorem sure_listed {own : Frame} {fs : Frames} {one : Reader (Option Stmt)}
    {rest : Frame → Reader (List Stmt)}
    (hone : Sure ts b n w one fun o => Made ts (Stmt.nodesOfOption o))
    (hrest : ∀ own, Sure ts (b - 1) n w (rest own) fun ss => Made ts (Stmt.nodesOfAll ss)) :
    Sure ts b n w (listed fs own one rest) fun ss => Made ts (Stmt.nodesOfAll ss) := by
  refine bind (attempt hone) fun o ho => ?_
  match o, ho with
  | none, _ => exact advance_bind (hrest own)
  | some none, _ => exact advance_bind (hrest own)
  | some (some s), ho =>
    refine bind (report _) fun _ _ => advance_bind (bind (hrest _) fun ss hss => pure ?_)
    exact .append (ho (some s) rfl) hss

/-! ### The grammar -/

/-- What a caller with fuel `n + 1` may expect of each function, if what it claims itself exceeds
what the function claims. One token less pays for all calls that are made before the next token is
read. -/
structure Provisions (ts : List Token) (n : Nat) : Prop where
  expression : ∀ {b w} fs {level}, 0 < level → 16 * b + 3 < w →
    Sure ts b (n + 1) w (expression n fs level) fun e => Made ts e.nodes
  extend : ∀ {b w} fs {level left}, 0 < level → 16 * b + 1 < w →
    Sure ts b (n + 1) w (extend n fs level left) fun e => Made ts left.nodes → Made ts e.nodes
  continuation : ∀ {b w} fs {left}, 16 * b + 2 < w →
    Sure ts b (n + 1) w (continuation n fs left) fun e => Made ts left.nodes → Made ts e.nodes
  operand : ∀ {b w} fs, 16 * b + 2 < w → Sure ts b (n + 1) w (operand n fs) fun e => Made ts e.nodes
  unaryOperand : ∀ {b w} fs, 0 < b → 16 * b + 1 < w →
    Sure ts b (n + 1) w (unaryOperand n fs) fun e => Made ts e.nodes
  nameOrAssign : ∀ {b w} fs {t}, t ∈ ts → t.kind = .ident → 16 * b + 1 < w →
    Sure ts b (n + 1) w (nameOrAssign n fs t) fun e => Made ts e.nodes
  items : ∀ {b w} fs {close}, close ≠ .eof → 0 < b → 16 * b + 1 < w →
    Sure ts b (n + 1) w (items n fs close) fun es => Made ts (Expr.nodesOfAll es)
  moreItems : ∀ {b w} fs {close}, close ≠ .eof → 16 * b + 1 < w →
    Sure ts b (n + 1) w (moreItems n fs close) fun es => Made ts (Expr.nodesOfAll es)
  pairs : ∀ {b w} fs, 0 < b → 16 * b + 1 < w →
    Sure ts b (n + 1) w (pairs n fs) fun ps => Made ts (Expr.nodesOfPairs ps)
  conditional : ∀ {b w} fs, 16 * b + 1 < w →
    Sure ts b (n + 1) w (conditional n fs) fun e => Made ts e.nodes
  alternative : ∀ {b w} fs, 16 * b + 1 < w →
    Sure ts b (n + 1) w (alternative n fs) fun c => Made ts c.nodes
  block : ∀ {b w} fs ps, 0 < b → 16 * b + 1 < w →
    Sure ts b (n + 1) w (block n fs ps) fun c => Made ts c.nodes
  blockStatements : ∀ {b w} fs own, 16 * b + 6 < w →
    Sure ts b (n + 1) w (blockStatements n fs own) fun ss => Made ts (Stmt.nodesOfAll ss)
  statement : ∀ {b w} fs, 16 * b + 5 < w →
    Sure ts b (n + 1) w (statement n fs) fun o => Made ts (Stmt.nodesOfOption o)
  declaration : ∀ {b w} fs isConst, 16 * b + 1 < w →
    Sure ts b (n + 1) w (declaration n fs isConst) fun s => Made ts s.nodes
  returnStatement : ∀ {b w} fs, 16 * b + 1 < w →
    Sure ts b (n + 1) w (returnStatement n fs) fun s => Made ts s.nodes
  expressionStatement : ∀ {b w} fs, 16 * b + 4 < w →
    Sure ts b (n + 1) w (expressionStatement n fs) fun s => Made ts s.nodes
  functionStatement : ∀ {b w} fs (s : ReaderState), s.stream.Within ts b →
    s.stream.peek.kind = .ident → 16 * b + 1 < w →
    SureAt ts b (n + 1) w s (functionStatement n fs) fun s => Made ts s.nodes
  whileStatement : ∀ {b w} fs, 16 * b + 1 < w →
    Sure ts b (n + 1) w (whileStatement n fs) fun s => Made ts s.nodes
  forStatement : ∀ {b w} fs, 16 * b + 1 < w →
    Sure ts b (n + 1) w (forStatement n fs) fun s => Made ts s.nodes
  forInit : ∀ {b w} fs, 16 * b + 5 < w →
    Sure ts b (n + 1) w (forInit n fs) fun o => Made ts (Stmt.nodesOfOption o)
  forCondition : ∀ {b w} fs, 16 * b + 4 < w →
    Sure ts b (n + 1) w (forCondition n fs) fun o => Made ts (Expr.nodesOfOption o)
  forUpdate : ∀ {b w} fs, 16 * b + 4 < w →
    Sure ts b (n + 1) w (forUpdate n fs) fun o => Made ts (Expr.nodesOfOption o)

/-- A call that ends at once has claimed no more than its caller. -/
theorem provisions_zero : Provisions ts 0 := by
  constructor
  case functionStatement => intro b w fs s hs _ hw; exact outOfFuel (by omega) s hs
  all_goals intros; exact outOfFuel (by omega)

/-- An expression that may be missing. -/
theorem made_nodesOfOption {o : Option Expr} (h : ∀ e ∈ o, Made ts e.nodes) :
    Made ts (Expr.nodesOfOption o) := by
  cases o with
  | none => exact .nil
  | some e => exact h e rfl

namespace Provisions

variable (ih : Provisions ts n) (fs : Frames)

include ih

/-! ### Expressions -/

theorem expression_succ {level : Nat} (hlevel : 0 < level) :
    Sure ts b (n + 1) (16 * b + 3) (Parse.expression (n + 1) fs level) fun e => Made ts e.nodes := by
  rw [Parse.expression]
  refine bind (ih.operand fs (by omega)) fun left hleft => ?_
  exact (ih.extend fs hlevel (by omega)).conseq fun e he => he hleft

theorem extend_succ {level : Nat} {left : Expr} (hlevel : 0 < level) :
    Sure ts b (n + 1) (16 * b + 1) (Parse.extend (n + 1) fs level left)
      fun e => Made ts left.nodes → Made ts e.nodes := by
  rw [Parse.extend]
  refine peek_bind fun t _ ht => ite (fun htight => ?_) fun _ => pure id
  -- The mark of the end binds to nothing, so there is a token to read.
  have hb : 1 < b := ht fun hk => by
    rw [hk] at htight
    have : Kind.eof.level = 1 := rfl
    omega
  refine advance_bind (bind (ih.continuation fs (by omega)) fun e he => ?_)
  exact (ih.extend fs hlevel (by omega)).conseq fun e' he' hleft => he' (he hleft)

theorem continuation_succ {left : Expr} :
    Sure ts b (n + 1) (16 * b + 2) (Parse.continuation (n + 1) fs left)
      fun e => Made ts left.nodes → Made ts e.nodes := by
  rw [Parse.continuation]
  refine current_bind fun t ht hb => ?_
  split
  · rename_i hk
    have hb := hb (by simp [hk])
    refine bind (ih.items fs (by decide) hb (by omega)) fun es hes => pure fun hleft => ?_
    exact .node (Node.madeOf ht rfl rfl) (.append hleft hes)
  · rename_i hk
    have hb := hb (by simp [hk])
    refine advance_bind (bind (ih.expression fs (by decide) (by omega)) fun key hkey => ?_)
    refine expectPeek_bind (by decide) fun _ => pure fun hleft => ?_
    exact .node (Node.madeOf ht rfl rfl) (.append hleft hkey)
  · refine expectPeek_current (by decide) fun name hname hk hb => ?_
    refine skipPeek_bind (by decide) (fun hb' => ?_) (pure fun hleft => ?_)
    · refine current_bind fun paren _ _ => ?_
      refine bind (ih.items fs (by decide) (by omega) (by omega)) fun es hes => pure fun hleft => ?_
      exact .node (Node.madeOf_name ht rfl hname hk rfl) (.append hleft hes)
    · exact .node (Node.madeOf_name ht rfl hname hk rfl) hleft
  · exact sure_stepBehind ht .increment left
  · exact sure_stepBehind ht .decrement left
  · split
    · rename_i op hop
      have hb := hb fun hk => by simp [hk, Kind.binary?] at hop
      have hlevel : 0 < op.level := by cases op <;> decide
      refine advance_bind (bind (ih.expression fs hlevel (by omega)) fun right hright => pure fun hleft => ?_)
      exact .node (Node.madeOf ht rfl rfl) (.append hleft hright)
    · exact fail _ _

theorem unaryOperand_succ (hb : 0 < b) :
    Sure ts b (n + 1) (16 * b + 1) (Parse.unaryOperand (n + 1) fs) fun e => Made ts e.nodes := by
  rw [Parse.unaryOperand]
  exact advance_bind ((ih.expression fs (by decide) (by omega)))

theorem nameOrAssign_succ {t : Token} (ht : t ∈ ts) (hk : t.kind = .ident) :
    Sure ts b (n + 1) (16 * b + 1) (Parse.nameOrAssign (n + 1) fs t) fun e => Made ts e.nodes := by
  rw [Parse.nameOrAssign]
  refine peek_bind fun op hop hb => ?_
  have hname : (Node.expr (.ident t.pos t.literal)).MadeOf ts :=
    Node.madeOf_name ht rfl ht hk rfl
  split
  · exact pure (.leaf hname)
  · rename_i apply happly
    have hb := hb fun hk => by simp [hk, Kind.assignment?] at happly
    refine advance_bind (advance_bind ?_)
    refine bind (ih.expression fs (by decide) (by omega)) fun value hvalue => pure ?_
    refine .node (Node.madeOf_name hop rfl ht hk rfl) ?_
    cases apply with
    | none => exact hvalue
    | some op' => exact .node (Node.madeOf hop rfl rfl) (.append (.leaf hname) hvalue)

theorem items_succ {close : Kind} (hclose : close ≠ .eof) (hb : 0 < b) :
    Sure ts b (n + 1) (16 * b + 1) (Parse.items (n + 1) fs close) fun es => Made ts (Expr.nodesOfAll es) := by
  rw [Parse.items]
  refine skipPeek_bind hclose (fun _ => pure .nil) (advance_bind ?_)
  refine bind (ih.expression fs (by decide) (by omega)) fun e he => ?_
  refine bind (ih.moreItems fs hclose (by omega)) fun es hes => pure ?_
  exact he.append hes

theorem moreItems_succ {close : Kind} (hclose : close ≠ .eof) :
    Sure ts b (n + 1) (16 * b + 1) (Parse.moreItems (n + 1) fs close) fun es => Made ts (Expr.nodesOfAll es) := by
  rw [Parse.moreItems]
  refine skipPeek_bind (by decide) (fun hb => advance_bind ?_) ?_
  · refine bind (ih.expression fs (by decide) (by omega)) fun e he => ?_
    refine bind (ih.moreItems fs hclose (by omega)) fun es hes => pure ?_
    exact he.append hes
  · exact expectPeek_bind hclose fun _ => pure .nil

theorem pairs_succ (hb : 0 < b) :
    Sure ts b (n + 1) (16 * b + 1) (Parse.pairs (n + 1) fs) fun ps => Made ts (Expr.nodesOfPairs ps) := by
  rw [Parse.pairs]
  refine skipPeek_bind (by decide) (fun _ => pure .nil) (advance_bind ?_)
  refine bind (ih.expression fs (by decide) (by omega)) fun key hkey => ?_
  refine expectPeek_bind (by decide) fun hb' => advance_bind ?_
  refine bind (ih.expression fs (by decide) (by omega)) fun value hvalue => ?_
  have hrest : ∀ {c}, 0 < c → c < b → Sure ts c (n + 1) (16 * b + 1) (do return (key, value) :: (← Parse.pairs n fs))
      fun ps => Made ts (Expr.nodesOfPairs ps) := by
    intro c hc hcb
    refine bind (ih.pairs fs hc (by omega)) fun ps hps => pure ?_
    exact hkey.append (hvalue.append hps)
  refine peekIs_bind (fun s hs hk => ?_) ?_
  · have hb'' := hs.lt_of_peek (by simp [hk])
    exact hrest (by omega) (by omega) s hs
  · exact expectPeek_bind (by decide) fun hb'' => hrest (by omega) (by omega)

theorem conditional_succ :
    Sure ts b (n + 1) (16 * b + 1) (Parse.conditional (n + 1) fs) fun e => Made ts e.nodes := by
  rw [Parse.conditional]
  refine current_bind fun t ht _ => expectPeek_bind (by decide) fun hb => advance_bind ?_
  refine bind (attempt (ih.expression fs (by decide) (by omega))) fun condition hcondition => ?_
  refine expectPeek_bind (by decide) fun hb' => expectPeek_bind (by decide) fun hb'' => ?_
  refine bind (ih.block fs [] (by omega) (by omega)) fun consequence hconsequence => ?_
  refine skipPeek_bind (by decide) (fun _ => ?_) (pure ?_)
  · refine bind (ih.alternative fs (by omega)) fun alternative halternative => pure ?_
    exact .node (Node.madeOf ht rfl rfl)
      ((made_nodesOfOption hcondition).append (hconsequence.append halternative))
  · exact .node (Node.madeOf ht rfl rfl)
      ((made_nodesOfOption hcondition).append (hconsequence.append .nil))

theorem operand_succ :
    Sure ts b (n + 1) (16 * b + 2) (Parse.operand (n + 1) fs) fun e => Made ts e.nodes := by
  rw [Parse.operand]
  refine current_bind fun t ht hb => ?_
  have hunary : ∀ op, 0 < b → Sure ts b (n + 1) (16 * b + 2)
      (do return Expr.unary t.pos op (← Parse.unaryOperand n fs)) fun e => Made ts e.nodes := by
    intro op hb
    refine bind (ih.unaryOperand fs hb (by omega)) fun e he => pure ?_
    exact .node (Node.madeOf ht rfl rfl) he
  split <;> rename_i hk
  · exact ih.nameOrAssign fs ht hk (by omega)
  · exact sure_integer ht
  · exact pure (.leaf (Node.madeOf ht rfl rfl))
  · exact pure (.leaf (Node.madeOf ht rfl rfl))
  · exact pure (.leaf (Node.madeOf ht rfl rfl))
  · exact pure (.leaf (Node.madeOf ht rfl rfl))
  · exact pure (.leaf (Node.madeOf ht rfl rfl))
  · exact pure (.leaf (Node.madeOf ht rfl rfl))
  · exact pure (.leaf (Node.madeOf ht rfl rfl))
  · exact hunary .not (hb (by simp [hk]))
  · exact hunary .negate (hb (by simp [hk]))
  · exact hunary .complement (hb (by simp [hk]))
  · exact sure_stepBefore ht .increment
  · exact sure_stepBefore ht .decrement
  · have hb := hb (by simp [hk])
    refine advance_bind (bind (attempt (ih.expression fs (by decide) (by omega))) fun o ho => ?_)
    exact expectPeek_bind (by decide) fun _ => require ho
  · exact ih.conditional fs (by omega)
  · refine expectPeek_bind (by decide) fun hb => ?_
    refine bind (sure_params (by omega)) fun ps hps => expectPeek_bind (by decide) fun hb' => ?_
    refine bind (ih.block fs ps (by omega) (by omega)) fun body hbody => pure ?_
    exact .node ⟨⟨t, ht, rfl⟩, hps⟩ hbody
  · refine bind (ih.items fs (by decide) (hb (by simp [hk])) (by omega)) fun es hes => pure ?_
    exact .node (Node.madeOf ht rfl rfl) hes
  · refine bind (ih.pairs fs (hb (by simp [hk])) (by omega)) fun ps hps => pure ?_
    exact .node (Node.madeOf ht rfl rfl) hps
  · exact fail _ _

/-! ### Blocks and statements -/

theorem alternative_succ :
    Sure ts b (n + 1) (16 * b + 1) (Parse.alternative (n + 1) fs) fun c => Made ts c.nodes := by
  rw [Parse.alternative]
  refine skipPeek_bind (by decide) (fun hb => ?_) ?_
  · refine current_bind fun t ht _ => ?_
    refine bind (ih.conditional ({} :: fs) (by omega)) fun nested hnested => pure ?_
    exact (Made.node (Node.madeOf ht rfl rfl) hnested).append .nil
  · exact expectPeek_bind (by decide) fun hb => ih.block fs [] (by omega) (by omega)

theorem block_succ (ps : List String) (hb : 0 < b) :
    Sure ts b (n + 1) (16 * b + 1) (Parse.block (n + 1) fs ps) fun c => Made ts c.nodes := by
  rw [Parse.block]
  refine current_bind fun t _ _ => advance_bind ?_
  refine bind (ih.blockStatements fs _ (by omega)) fun ss hss => ?_
  refine currentIs_bind ?_ fun _ => pure hss
  exact current_bind fun u _ _ => bind (report _) fun _ _ => pure hss

theorem blockStatements_succ (own : Frame) :
    Sure ts b (n + 1) (16 * b + 6) (Parse.blockStatements (n + 1) fs own) fun ss => Made ts (Stmt.nodesOfAll ss) := by
  rw [Parse.blockStatements]
  refine current_bind fun t _ hb => ite (fun _ => pure .nil) fun hk => ?_
  have hb := hb fun h => hk (.inr h)
  exact sure_listed (ih.statement _ (by omega)) fun own => ih.blockStatements fs own (by omega)

theorem declaration_succ (isConst : Bool) :
    Sure ts b (n + 1) (16 * b + 1) (Parse.declaration (n + 1) fs isConst) fun s => Made ts s.nodes := by
  rw [Parse.declaration]
  refine current_bind fun t ht _ => expectPeek_current (by decide) fun name hname hk hb => ?_
  refine expectPeek_bind (by decide) fun hb' => advance_bind ?_
  refine bind (attempt (ih.expression fs (by decide) (by omega))) fun o ho => ?_
  refine bind skipToSemicolon fun _ _ => bind (require ho) fun value hvalue => pure ?_
  exact .node (Node.madeOf_name ht rfl hname hk rfl) hvalue

theorem returnStatement_succ :
    Sure ts b (n + 1) (16 * b + 1) (Parse.returnStatement (n + 1) fs) fun s => Made ts s.nodes := by
  rw [Parse.returnStatement]
  refine current_bind fun t ht _ => ?_
  have hnone : ∀ {c}, Sure ts c (n + 1) (16 * b + 1) (return Stmt.return t.pos none) fun s => Made ts s.nodes :=
    pure (.leaf (Node.madeOf ht rfl rfl))
  refine skipPeek_bind (by decide) (fun _ => hnone) ?_
  refine peek_bind fun next _ hb => ite (fun _ => hnone) fun hk => advance_bind ?_
  have hb := hb fun h => hk (.inr h)
  refine bind (attempt (ih.expression fs (by decide) (by omega))) fun o ho => ?_
  refine bind skipToSemicolon fun _ _ => pure ?_
  exact .node (Node.madeOf ht rfl rfl) (made_nodesOfOption ho)

theorem expressionStatement_succ :
    Sure ts b (n + 1) (16 * b + 4) (Parse.expressionStatement (n + 1) fs) fun s => Made ts s.nodes := by
  rw [Parse.expressionStatement]
  refine current_bind fun t ht _ => ?_
  refine bind (attempt (ih.expression fs (by decide) (by omega))) fun o ho => ?_
  have hrest : ∀ {c}, Sure ts c (n + 1) (16 * b + 4) (do return Stmt.expr t.pos t.literal (← Reader.require o))
      fun s => Made ts s.nodes :=
    bind (require ho) fun e he => pure (.node (Node.madeOf ht rfl rfl) he)
  exact skipPeek_bind (by decide) (fun _ => hrest) hrest

theorem functionStatement_succ {s : ReaderState} (hs : s.stream.Within ts b)
    (hk : s.stream.peek.kind = .ident) :
    SureAt ts b (n + 1) (16 * b + 1) s (Parse.functionStatement (n + 1) fs) fun s => Made ts s.nodes := by
  rw [Parse.functionStatement]
  have hb := hs.lt_of_peek (by simp [hk])
  unfold SureAt
  rw [run_bind_ok (run_current s), run_bind_ok (run_advance s)]
  refine stepAt (run_current _) (Nat.sub_le b 1) hs.advance ?_
  rw [Stream.current_advance]
  refine expectPeek_bind (by decide) fun hb' => ?_
  refine bind (sure_params (by omega)) fun ps hps => expectPeek_bind (by decide) fun hb'' => ?_
  refine bind (ih.block fs ps (by omega) (by omega)) fun body hbody => pure ?_
  refine .node ⟨⟨_, hs.current_mem, rfl⟩, ?_⟩ hbody
  exact List.forall_mem_cons.mpr ⟨isNamed hs.peek_mem hk, hps⟩

theorem whileStatement_succ :
    Sure ts b (n + 1) (16 * b + 1) (Parse.whileStatement (n + 1) fs) fun s => Made ts s.nodes := by
  rw [Parse.whileStatement]
  refine current_bind fun t ht _ => expectPeek_bind (by decide) fun hb => advance_bind ?_
  refine bind (attempt (ih.expression fs (by decide) (by omega))) fun condition hcondition => ?_
  refine expectPeek_bind (by decide) fun hb' => expectPeek_bind (by decide) fun hb'' => ?_
  refine bind (ih.block fs [] (by omega) (by omega)) fun body hbody => pure ?_
  exact .node (Node.madeOf ht rfl rfl) ((made_nodesOfOption hcondition).append hbody)

theorem forStatement_succ :
    Sure ts b (n + 1) (16 * b + 1) (Parse.forStatement (n + 1) fs) fun s => Made ts s.nodes := by
  rw [Parse.forStatement]
  refine current_bind fun t ht _ => expectPeek_bind (by decide) fun hb => advance_bind ?_
  refine bind (ih.forInit fs (by omega)) fun init hinit => advance_bind ?_
  refine bind (ih.forCondition _ (by omega)) fun condition hcondition => advance_bind ?_
  refine bind (ih.forUpdate _ (by omega)) fun update hupdate => ?_
  refine expectPeek_bind (by decide) fun hb' => ?_
  refine bind (ih.block _ [] (by omega) (by omega)) fun body hbody => pure ?_
  exact .node (Node.madeOf ht rfl rfl)
    (hinit.append (hcondition.append (hupdate.append hbody)))

theorem forInit_succ :
    Sure ts b (n + 1) (16 * b + 5) (Parse.forInit (n + 1) fs) fun o => Made ts (Stmt.nodesOfOption o) := by
  rw [Parse.forInit]
  refine current_bind fun t _ _ => ite (fun _ => pure .nil) fun _ => ?_
  -- What follows the clause is the same for a declaration and an expression.
  have hrest : ∀ s : Stmt, Made ts s.nodes → Sure ts b (n + 1) (16 * b + 5) (do
      Reader.report (Frames.checkTarget ({} :: fs) s.target?)
      unless ← Reader.currentIs .semicolon do Reader.expectPeek .semicolon
      return some s) fun o => Made ts (Stmt.nodesOfOption o) := fun s hs =>
    bind (report _) fun _ _ => currentIs_bind (pure hs) fun _ =>
      expectPeek_bind (by decide) fun _ => pure hs
  refine ite (fun _ => ?_) fun _ => ?_
  · exact bind (ih.declaration _ _ (by omega)) hrest
  · exact bind (ih.expressionStatement _ (by omega)) hrest

theorem forCondition_succ :
    Sure ts b (n + 1) (16 * b + 4) (Parse.forCondition (n + 1) fs) fun o => Made ts (Expr.nodesOfOption o) := by
  rw [Parse.forCondition]
  refine currentIs_bind (pure .nil) fun _ => ?_
  refine bind (attempt (ih.expression fs (by decide) (by omega))) fun o ho => ?_
  exact expectPeek_bind (by decide) fun _ => pure (made_nodesOfOption ho)

theorem forUpdate_succ :
    Sure ts b (n + 1) (16 * b + 4) (Parse.forUpdate (n + 1) fs) fun o => Made ts (Expr.nodesOfOption o) := by
  rw [Parse.forUpdate]
  refine currentIs_bind (pure .nil) fun _ => ?_
  refine bind (attempt (ih.expression fs (by decide) (by omega))) fun o ho => ?_
  refine bind (report _) fun _ _ => ?_
  exact expectPeek_bind (by decide) fun _ => pure (made_nodesOfOption ho)

theorem statement_succ :
    Sure ts b (n + 1) (16 * b + 5) (Parse.statement (n + 1) fs) fun o => Made ts (Stmt.nodesOfOption o) := by
  rw [Parse.statement]
  -- Each form gives its statement as it is.
  have hsome : ∀ {r : Reader Stmt} {s}, SureAt ts b (n + 1) (16 * b + 5) s r (fun s => Made ts s.nodes) →
      SureAt ts b (n + 1) (16 * b + 5) s (do return some (← r)) fun o => Made ts (Stmt.nodesOfOption o) :=
    fun h => bindAt (Nat.le_refl b) h fun _ hs => pure hs
  refine current_bind fun t _ _ => ?_
  split
  · exact fun s hs => hsome (ih.declaration fs false (by omega) s hs)
  · exact fun s hs => hsome (ih.declaration fs true (by omega) s hs)
  · exact fun s hs => hsome (ih.returnStatement fs (by omega) s hs)
  · exact fun s hs => hsome (ih.whileStatement fs (by omega) s hs)
  · exact fun s hs => hsome (ih.forStatement fs (by omega) s hs)
  · exact pure .nil
  · refine peekIs_bind (fun s hs hk => ?_) ?_
    · exact hsome (ih.functionStatement fs s hs hk (by omega))
    · exact fun s hs => hsome (ih.expressionStatement fs (by omega) s hs)
  · exact fun s hs => hsome (ih.expressionStatement fs (by omega) s hs)

end Provisions

theorem provisions (ts : List Token) : ∀ n, Provisions ts n
  | 0 => provisions_zero
  | n + 1 =>
    have ih := provisions ts n
    { expression := fun fs _ hlevel hw => (ih.expression_succ fs hlevel).call hw
      extend := fun fs _ _ hlevel hw => (ih.extend_succ fs hlevel).call hw
      continuation := fun fs _ hw => (ih.continuation_succ fs).call hw
      operand := fun fs hw => (ih.operand_succ fs).call hw
      unaryOperand := fun fs hb hw => (ih.unaryOperand_succ fs hb).call hw
      nameOrAssign := fun fs _ ht hk hw => (ih.nameOrAssign_succ fs ht hk).call hw
      items := fun fs _ hclose hb hw => (ih.items_succ fs hclose hb).call hw
      moreItems := fun fs _ hclose hw => (ih.moreItems_succ fs hclose).call hw
      pairs := fun fs hb hw => (ih.pairs_succ fs hb).call hw
      conditional := fun fs hw => (ih.conditional_succ fs).call hw
      alternative := fun fs hw => (ih.alternative_succ fs).call hw
      block := fun fs ps hb hw => (ih.block_succ fs ps hb).call hw
      blockStatements := fun fs own hw => (ih.blockStatements_succ fs own).call hw
      statement := fun fs hw => (ih.statement_succ fs).call hw
      declaration := fun fs isConst hw => (ih.declaration_succ fs isConst).call hw
      returnStatement := fun fs hw => (ih.returnStatement_succ fs).call hw
      expressionStatement := fun fs hw => (ih.expressionStatement_succ fs).call hw
      functionStatement := fun fs _ hs hk hw => callAt hw (ih.functionStatement_succ fs hs hk)
      whileStatement := fun fs hw => (ih.whileStatement_succ fs).call hw
      forStatement := fun fs hw => (ih.forStatement_succ fs).call hw
      forInit := fun fs hw => (ih.forInit_succ fs).call hw
      forCondition := fun fs hw => (ih.forCondition_succ fs).call hw
      forUpdate := fun fs hw => (ih.forUpdate_succ fs).call hw }

theorem sure_programStatements : ∀ {n b w : Nat} (own : Frame), 16 * b + 6 < w →
    Sure ts b (n + 1) w (programStatements n own) fun ss => Made ts (Stmt.nodesOfAll ss)
  | 0, _, _, _, hw => outOfFuel (by omega)
  | n + 1, b, w, own, hw => by
    rw [programStatements]
    refine call hw (currentIs_bind (pure .nil) fun hb => ?_)
    have hb := hb rfl
    exact sure_listed ((provisions ts n).statement _ (by omega)) fun own =>
      sure_programStatements own (by omega)

/-- A statement that does not fit is left out; the program goes on behind it. -/
theorem programStatements_ne_misfit : ∀ {n : Nat} {own : Frame} {s s' : ReaderState},
    programStatements n own s ≠ .error .misfit s'
  | 0, _, _, _ => by simp [programStatements]
  | n + 1, own, s, s' => by
    rw [programStatements, run_bind_ok (run_currentIs s .eof)]
    by_cases hk : s.stream.current.kind = .eof
    · simp [hk]
    · simp only [hk, decide_false, Bool.false_eq_true, if_false]
      rw [run_bind, run_attempt]
      cases statement n [own] s with
      | error e s₁ =>
        cases e with
        | outOfFuel => simp
        | misfit => exact programStatements_ne_misfit
      | ok o s₁ =>
        cases o with
        | none => exact programStatements_ne_misfit
        | some st =>
          dsimp only
          rw [run_bind_ok (run_report _ _), run_bind_ok (run_advance _), run_bind]
          cases hrest : programStatements n (own.add st) _ with
          | ok ss s₂ => simp
          | error e s₂ =>
            rintro ⟨⟩
            exact programStatements_ne_misfit hrest

end Parse

/-! ## Whole texts -/

theorem endsWithEof_tokensFrom (input : List Char) (pos : Pos) :
    EndsWithEof (Scan.tokensFrom input pos) := by
  fun_induction Scan.tokensFrom input pos with
  | case1 => simp [EndsWithEof]
  | case2 => simp [EndsWithEof]
  | case3 input pos text c cs h l ih => exact .append [_] ih

theorem endsWithEof_tokens (source : String) : EndsWithEof (tokens source) :=
  endsWithEof_tokensFrom _ _

theorem tokens_ne_nil (source : String) : tokens source ≠ [] := (endsWithEof_tokens source).ne_nil

theorem Stream.within_ofTokens : ∀ {ts : List Token}, EndsWithEof ts →
    (Stream.ofTokens ts).Within ts (ts.length - 1)
  | [], h => (h.ne_nil rfl).elim
  | _ :: _, h => ⟨fun _ ht => ht, h, Nat.le_refl _⟩

/-- The fuel is enough for any tokens with an end, and all that is in the tree was written. -/
theorem Parse.run_reads {ts : List Token} (h : EndsWithEof ts) :
    ∃ r, Parse.run (Parse.fuel ts) ts = some r ∧ Made ts r.1.nodes := by
  have hsure := Parse.sure_programStatements {} (n := Parse.fuel ts) (Nat.lt_succ_self _)
    { stream := .ofTokens ts } (Stream.within_ofTokens h)
  unfold Reader.SureAt at hsure
  rw [Parse.run]
  revert hsure
  cases hrun : Parse.programStatements (Parse.fuel ts) {} { stream := .ofTokens ts } with
  | ok ss s => exact fun hsure => ⟨_, rfl, hsure.2⟩
  | error e s =>
    cases e with
    | outOfFuel =>
      rintro ⟨-, hspent⟩
      unfold Parse.fuel at hspent
      omega
    | misfit => exact (Parse.programStatements_ne_misfit hrun).elim

/-- **Every text is read to its end.** Accepted or not, the tree of a text and its errors are what a
run of the grammar with enough fuel gives, and all that is in the tree was written: each node stands
where a token stands, and each name is the literal of an identifier. -/
theorem parse_reads (source : String) :
    Parse.run (Parse.fuel (tokens source)) (tokens source) = some (parse source) ∧
      Made (tokens source) (parse source).1.nodes := by
  obtain ⟨r, hrun, hmade⟩ := Parse.run_reads (endsWithEof_tokens source)
  have hparse : parse source = r := by
    rw [parse, hrun]
    rfl
  rw [hparse]
  exact ⟨hrun, hmade⟩

end Vorn
