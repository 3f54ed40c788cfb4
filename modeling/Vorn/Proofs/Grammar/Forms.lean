import Vorn.Grammar.Parse
import Vorn.Proofs.Grammar.Run
import Vorn.Proofs.Tree.Tokens

/-!
# Runs of the grammar on single forms

Each lemma runs one function of the grammar on the tokens of one form, given the runs of its parts.
The state is written with the current token and those behind it, `⟨⟨t, ts⟩, es⟩`, or with all that
are left, `⟨.ofTokens ts, es⟩`; the errors `es` stay as they are.
-/

namespace Vorn

/-! ## Tokens of one spelling -/

section Kinds

variable (k : Kind) (w : String)

@[simp] theorem Token.symbol_kind : (Token.symbol k).kind = k := rfl

@[simp] theorem Token.symbol_pos : (Token.symbol k).pos = .start := rfl

@[simp] theorem Token.word_literal : (Token.word w).literal = w := rfl

@[simp] theorem Token.word_pos : (Token.word w).pos = .start := rfl

theorem Token.word_kind_of_isName {w : String} (h : IsName w) : (Token.word w).kind = .ident := h.2

/-- A reserved word is of its own kind. -/
theorem Token.word_kind_of_mem {w : String} {k : Kind} (h : (w, k) ∈ Kind.keywords) :
    (Token.word w).kind = k := by
  have hall : ∀ p ∈ Kind.keywords, Kind.ofWord p.1 = p.2 := by decide +kernel
  exact hall _ h

end Kinds

@[simp] theorem Token.word_kind_if : (Token.word "if").kind = .kwIf := word_kind_of_mem (by decide)

@[simp] theorem Token.word_kind_else : (Token.word "else").kind = .kwElse :=
  word_kind_of_mem (by decide)

@[simp] theorem Token.word_kind_func : (Token.word "func").kind = .kwFunc :=
  word_kind_of_mem (by decide)

@[simp] theorem Token.word_kind_return : (Token.word "return").kind = .kwReturn :=
  word_kind_of_mem (by decide)

@[simp] theorem Token.word_kind_while : (Token.word "while").kind = .kwWhile :=
  word_kind_of_mem (by decide)

@[simp] theorem Token.word_kind_for : (Token.word "for").kind = .kwFor :=
  word_kind_of_mem (by decide)

@[simp] theorem Token.word_kind_null : (Token.word "null").kind = .kwNull :=
  word_kind_of_mem (by decide)

@[simp] theorem Token.word_kind_break : (Token.word "break").kind = .kwBreak :=
  word_kind_of_mem (by decide)

@[simp] theorem Token.word_kind_continue : (Token.word "continue").kind = .kwContinue :=
  word_kind_of_mem (by decide)

@[simp] theorem Token.word_kind_boolWord (b : Bool) :
    (Token.word (boolWord b)).kind = if b then .kwTrue else .kwFalse := by
  cases b <;> exact word_kind_of_mem (by decide)

@[simp] theorem Token.word_kind_declareWord (isConst : Bool) :
    (Token.word (declareWord isConst)).kind = if isConst then .kwConst else .kwLet := by
  cases isConst <;> exact word_kind_of_mem (by decide)

/-! ## The first token -/

/-- The kinds that the source form of an expression starts with. -/
def Kind.startsExpr : Kind → Bool
  | .ident | .int | .float | .string | .kwTrue | .kwFalse | .kwNull | .kwBreak | .kwContinue
  | .lparen | .kwIf | .kwFunc | .lbracket | .lbrace => true
  | _ => false

theorem Expr.tokens_eq_cons : ∀ e : Expr, Printable e.nodes → ∃ t ts, e.tokens = t :: ts ∧
    t.pos = .start ∧ t.kind.startsExpr = true ∧
      (t.kind = .kwFunc → ts.head? = some (.symbol .lparen))
  | .ident _ name, h => by
    simp only [Expr.nodes, Printable.cons_iff] at h
    have hk := Token.word_kind_of_isName h.1.1
    exact ⟨_, _, rfl, rfl, by rw [hk]; rfl, by simp [hk]⟩
  | .assign _ name value, h => by
    simp only [Expr.nodes, Printable.cons_iff] at h
    have hk := Token.word_kind_of_isName h.1.1
    exact ⟨_, _, rfl, rfl, by rw [hk]; rfl, by simp [hk]⟩
  | .call _ callee args, h => by
    simp only [Expr.nodes, Printable.cons_iff, Printable.append_iff] at h
    obtain ⟨t, ts, hts, hpos, hstart, hfunc⟩ := Expr.tokens_eq_cons callee h.2.1
    refine ⟨t, _, by rw [Expr.tokens, hts, List.cons_append], hpos, hstart, fun hk => ?_⟩
    rw [List.head?_append, hfunc hk]
    rfl
  | .bool _ value, _ => by
    cases value <;> exact ⟨_, _, rfl, rfl, by simp [Kind.startsExpr], by simp⟩
  | .step _ _ _ before, _ => by cases before <;> exact ⟨_, _, rfl, rfl, rfl, nofun⟩
  | .int _ _ _, _ | .float _ _ _, _ | .string _ _, _ | .array _ _, _ | .hash _ _, _
  | .unary _ _ _, _ | .binary _ _ _ _, _ | .index _ _ _, _ | .member _ _ _ _, _
  | .method _ _ _ _ _ _, _ => ⟨_, _, rfl, rfl, rfl, nofun⟩
  | .null _, _ | .break _, _ | .continue _, _ | .cond _ _ _ _, _ | .func _ _ _, _ =>
    ⟨_, _, rfl, rfl, by simp [Kind.startsExpr], by simp [paramTokens]⟩

/-! ## Expressions -/

theorem Stream.advance_eq_ofTokens (c : Token) {ts : List Token} (h : ts ≠ []) :
    Stream.advance ⟨c, ts⟩ = .ofTokens ts := by
  cases ts with
  | nil => exact (h rfl).elim
  | cons t ts => rfl

namespace Parse

open Reader

variable {n : Nat} {fs : Frames} {level : Nat} {es : List ParseError} {e left : Expr} {c t u : Token}
  {ts us : List Token} {s s' : ReaderState}

-- These unfold on the token that they look at first.
attribute [local simp] operand unaryOperand nameOrAssign continuation items moreItems pairs
  conditional blockStatements returnStatement functionStatement whileStatement statement forInit
  forCondition forUpdate forStatement

theorem expression_of_operand (h : operand n fs s = .ok e s') :
    expression (n + 1) fs level s = extend n fs level e s' := by
  rw [expression, run_bind_ok h]

theorem extend_stop (h : u.kind.level ≤ level) :
    extend (n + 1) fs level left ⟨⟨c, u :: us⟩, es⟩ = .ok left ⟨⟨c, u :: us⟩, es⟩ := by
  rw [extend, run_bind_ok (run_peek _), if_neg]
  · rfl
  · simpa using h

theorem extend_go (hl : level < u.kind.level)
    (h : continuation n fs left ⟨⟨u, us⟩, es⟩ = .ok e s') :
    extend (n + 1) fs level left ⟨⟨c, u :: us⟩, es⟩ = extend n fs level e s' := by
  simp [extend, run_bind, hl, h]

theorem operand_paren (hts : ts ≠ [])
    (h : expression n fs Level.lowest ⟨.ofTokens ts, es⟩ =
      .ok e ⟨⟨c, .symbol .rparen :: us⟩, es⟩) :
    operand (n + 1) fs ⟨⟨.symbol .lparen, ts⟩, es⟩ = .ok e ⟨⟨.symbol .rparen, us⟩, es⟩ := by
  simp [run_bind, Stream.advance_eq_ofTokens _ hts, run_attempt_ok h, run_expectPeek]

theorem operand_unary {op : UnaryOp} (hts : ts ≠ [])
    (h : expression n fs Level.unary ⟨.ofTokens ts, es⟩ = .ok e s') :
    operand (n + 2) fs ⟨⟨.symbol op.kind, ts⟩, es⟩ = .ok (.unary .start op e) s' := by
  cases op <;>
    simp [UnaryOp.kind, run_bind, run_map, Stream.advance_eq_ofTokens _ hts, h]

theorem operand_name {x : String} (hx : IsName x) (hu : u.kind.assignment? = none) :
    operand (n + 2) fs ⟨⟨.word x, u :: us⟩, es⟩ =
      .ok (.ident .start x) ⟨⟨.word x, u :: us⟩, es⟩ := by
  simp [run_bind, Token.word_kind_of_isName hx, hu]

/-- Every assignment operator reads all that is behind it as one value. -/
theorem operand_assigned {x : String} (hx : IsName x) {k : Kind} {apply : Option BinaryOp}
    (hk : k.assignment? = some apply) (hts : ts ≠ [])
    (h : expression n fs Level.lowest ⟨.ofTokens ts, es⟩ = .ok e s') :
    operand (n + 2) fs ⟨⟨.word x, .symbol k :: ts⟩, es⟩ =
      .ok (.assign .start x (assigned (.word x) (.symbol k) apply e)) s' := by
  simp [run_bind, run_map, Token.word_kind_of_isName hx, hk, Stream.advance_eq_ofTokens _ hts, h]

theorem operand_assign {x : String} (hx : IsName x) (hts : ts ≠ [])
    (h : expression n fs Level.lowest ⟨.ofTokens ts, es⟩ = .ok e s') :
    operand (n + 2) fs ⟨⟨.word x, .symbol .assign :: ts⟩, es⟩ = .ok (.assign .start x e) s' :=
  operand_assigned hx (show Kind.assign.assignment? = some none from rfl) hts h

theorem operand_compound {x : String} (hx : IsName x) {k : Kind} {op : BinaryOp}
    (hk : k.assignment? = some (some op)) (hts : ts ≠ [])
    (h : expression n fs Level.lowest ⟨.ofTokens ts, es⟩ = .ok e s') :
    operand (n + 2) fs ⟨⟨.word x, .symbol k :: ts⟩, es⟩ =
      .ok (.assign .start x (.binary .start op (.ident .start x) e)) s' :=
  operand_assigned hx hk hts h

theorem operand_stepBefore {x : String} (hx : IsName x) (op : StepOp) :
    operand (n + 1) fs ⟨⟨.symbol op.kind, .word x :: us⟩, es⟩ =
      .ok (.step .start op x true) ⟨⟨.word x, us⟩, es⟩ := by
  cases op <;>
    simp [stepBefore, StepOp.kind, run_bind, Token.word_kind_of_isName hx]

theorem continuation_stepBehind {p : Pos} {x : String} (op : StepOp) :
    continuation (n + 1) fs (.ident p x) ⟨⟨.symbol op.kind, us⟩, es⟩ =
      .ok (.step .start op x false) ⟨⟨.symbol op.kind, us⟩, es⟩ := by
  cases op <;> simp [stepBehind, StepOp.kind, run_bind]

theorem continuation_binary {op : BinaryOp} (hts : ts ≠ [])
    (h : expression n fs op.level ⟨.ofTokens ts, es⟩ = .ok e s') :
    continuation (n + 1) fs left ⟨⟨.symbol op.kind, ts⟩, es⟩ =
      .ok (.binary .start op left e) s' := by
  cases op <;>
    simp [BinaryOp.kind, Kind.binary?, run_bind, run_map, Stream.advance_eq_ofTokens _ hts, h]

theorem continuation_call {items' : List Expr}
    (h : items n fs .rparen ⟨⟨.symbol .lparen, ts⟩, es⟩ = .ok items' s') :
    continuation (n + 1) fs left ⟨⟨.symbol .lparen, ts⟩, es⟩ =
      .ok (.call .start left items') s' := by
  simp [run_bind, run_map, h]

theorem continuation_index (hts : ts ≠ [])
    (h : expression n fs Level.lowest ⟨.ofTokens ts, es⟩ =
      .ok e ⟨⟨c, .symbol .rbracket :: us⟩, es⟩) :
    continuation (n + 1) fs left ⟨⟨.symbol .lbracket, ts⟩, es⟩ =
      .ok (.index .start left e) ⟨⟨.symbol .rbracket, us⟩, es⟩ := by
  simp [run_bind, run_map, Stream.advance_eq_ofTokens _ hts, h, run_expectPeek]

theorem continuation_member {x : String} (hx : IsName x) (hu : u.kind ≠ .lparen) :
    continuation (n + 1) fs left ⟨⟨.symbol .dot, .word x :: u :: us⟩, es⟩ =
      .ok (.member .start left .start x) ⟨⟨.word x, u :: us⟩, es⟩ := by
  simp [run_bind, run_expectPeek, run_skipPeek, Token.word_kind_of_isName hx, hu]

theorem continuation_method {x : String} (hx : IsName x) {items' : List Expr}
    (h : items n fs .rparen ⟨⟨.symbol .lparen, ts⟩, es⟩ = .ok items' s') :
    continuation (n + 1) fs left ⟨⟨.symbol .dot, .word x :: .symbol .lparen :: ts⟩, es⟩ =
      .ok (.method .start left .start x .start items') s' := by
  simp [run_bind, run_map, run_expectPeek, run_skipPeek, Token.word_kind_of_isName hx, h]

/-! ## Lists -/

variable {close : Kind} {args : List Expr} {k v : Expr} {ps : List (Expr × Expr)}
  {s₁ s₂ s₃ : ReaderState}

theorem items_nil (hu : u.kind = close) :
    items (n + 1) fs close ⟨⟨c, u :: us⟩, es⟩ = .ok [] ⟨⟨u, us⟩, es⟩ := by
  simp [run_bind, run_skipPeek, hu]

theorem items_cons (ht : t.kind ≠ close)
    (he : expression n fs Level.lowest ⟨⟨t, ts⟩, es⟩ = .ok e s₁)
    (hargs : moreItems n fs close s₁ = .ok args s₂) :
    items (n + 1) fs close ⟨⟨c, t :: ts⟩, es⟩ = .ok (e :: args) s₂ := by
  simp [run_bind, run_map, run_skipPeek, ht, he, hargs]

theorem moreItems_nil (hu : u.kind = close) (hc : close ≠ .comma) :
    moreItems (n + 1) fs close ⟨⟨c, u :: us⟩, es⟩ = .ok [] ⟨⟨u, us⟩, es⟩ := by
  simp [run_bind, run_map, run_skipPeek, run_expectPeek, hu, hc]

theorem moreItems_cons (hts : ts ≠ [])
    (he : expression n fs Level.lowest ⟨.ofTokens ts, es⟩ = .ok e s₁)
    (hargs : moreItems n fs close s₁ = .ok args s₂) :
    moreItems (n + 1) fs close ⟨⟨c, .symbol .comma :: ts⟩, es⟩ = .ok (e :: args) s₂ := by
  simp [run_bind, run_map, run_skipPeek, Stream.advance_eq_ofTokens _ hts, he, hargs]

theorem pairs_nil :
    pairs (n + 1) fs ⟨⟨c, .symbol .rbrace :: us⟩, es⟩ = .ok [] ⟨⟨.symbol .rbrace, us⟩, es⟩ := by
  simp [run_bind, run_skipPeek]

theorem pairs_last (ht : t.kind ≠ .rbrace) (hus : us ≠ [])
    (hk : expression n fs Level.lowest ⟨⟨t, ts⟩, es⟩ = .ok k ⟨⟨c, .symbol .colon :: us⟩, es⟩)
    (hv : expression n fs Level.lowest ⟨.ofTokens us, es⟩ = .ok v s₂)
    (hb : s₂.stream.peek.kind = .rbrace) (hps : pairs n fs s₂ = .ok ps s₃) :
    pairs (n + 1) fs ⟨⟨u, t :: ts⟩, es⟩ = .ok ((k, v) :: ps) s₃ := by
  simp [run_bind, run_map, run_skipPeek, run_expectPeek, ht, hk, Stream.advance_eq_ofTokens _ hus,
    hv, hb, hps]

theorem pairs_cons {vs : List Token} {d : Token} (ht : t.kind ≠ .rbrace) (hus : us ≠ [])
    (hk : expression n fs Level.lowest ⟨⟨t, ts⟩, es⟩ = .ok k ⟨⟨c, .symbol .colon :: us⟩, es⟩)
    (hv : expression n fs Level.lowest ⟨.ofTokens us, es⟩ =
      .ok v ⟨⟨d, .symbol .comma :: vs⟩, es⟩)
    (hps : pairs n fs ⟨⟨.symbol .comma, vs⟩, es⟩ = .ok ps s₃) :
    pairs (n + 1) fs ⟨⟨u, t :: ts⟩, es⟩ = .ok ((k, v) :: ps) s₃ := by
  simp [run_bind, run_map, run_skipPeek, run_expectPeek, ht, hk, Stream.advance_eq_ofTokens _ hus,
    hv, hps]

theorem operand_array (h : items n fs .rbracket ⟨⟨.symbol .lbracket, ts⟩, es⟩ = .ok args s') :
    operand (n + 1) fs ⟨⟨.symbol .lbracket, ts⟩, es⟩ = .ok (.array .start args) s' := by
  simp [run_bind, run_map, h]

theorem operand_hash (h : pairs n fs ⟨⟨.symbol .lbrace, ts⟩, es⟩ = .ok ps s') :
    operand (n + 1) fs ⟨⟨.symbol .lbrace, ts⟩, es⟩ = .ok (.hash .start ps) s' := by
  simp [run_bind, run_map, h]

theorem moreParams_reread : ∀ (xs : List String), (∀ x ∈ xs, IsName x) → ∀ {n : Nat},
    xs.length < n → ∀ (c : Token) (us : List Token) (es : List ParseError),
      moreParams n ⟨⟨c, (xs.flatMap fun y => [.symbol .comma, .word y]) ++
        .symbol .rparen :: us⟩, es⟩ = .ok xs ⟨⟨.symbol .rparen, us⟩, es⟩
  | [], _, n + 1, _, c, us, es => by
    simp [moreParams, run_bind, run_map, run_skipPeek, run_expectPeek]
  | x :: xs, h, n + 1, hn, c, us, es => by
    have hx := Token.word_kind_of_isName (h x (by simp))
    have hxs := moreParams_reread xs (fun y hy => h y (by simp [hy])) (n := n) (by simpa using hn)
    simp [moreParams, run_bind, run_map, run_skipPeek, run_expectPeek, hx, hxs]

theorem params_reread {xs : List String} (h : ∀ x ∈ xs, IsName x) (hn : xs.length ≤ n) :
    params n ⟨⟨c, nameTokens xs ++ .symbol .rparen :: us⟩, es⟩ =
      .ok xs ⟨⟨.symbol .rparen, us⟩, es⟩ := by
  cases xs with
  | nil => simp [params, nameTokens, run_bind, run_skipPeek]
  | cons x xs =>
    have hx := Token.word_kind_of_isName (h x (by simp))
    have hxs := moreParams_reread xs (fun y hy => h y (by simp [hy])) hn
    simp [params, nameTokens, run_bind, run_map, run_skipPeek, run_expectPeek, hx, hxs]

/-! ## Blocks -/

variable {b a : Block} {ss : List Stmt} {own : Frame} {x : String} {xs : List String} {st : Stmt}
  {vs ws : List Token}

theorem operand_func (hxs : ∀ x ∈ xs, IsName x) (hn : xs.length ≤ n)
    (hb : block n fs xs ⟨⟨.symbol .lbrace, ts⟩, es⟩ = .ok b s') :
    operand (n + 1) fs ⟨⟨.word "func", paramTokens xs ++ .symbol .lbrace :: ts⟩, es⟩ =
      .ok (.func .start xs b) s' := by
  simp [paramTokens, run_bind, run_map, run_expectPeek, params_reread hxs hn, hb]

theorem alternative_block (hb : block n fs [] ⟨⟨.symbol .lbrace, ts⟩, es⟩ = .ok b s') :
    alternative (n + 1) fs ⟨⟨c, .symbol .lbrace :: ts⟩, es⟩ = .ok b s' := by
  simp [alternative, run_bind, run_skipPeek, run_expectPeek, hb]

theorem operand_if_none (hts : ts ≠ []) (hu : u.kind ≠ .kwElse)
    (he : expression n fs Level.lowest ⟨.ofTokens ts, es⟩ =
      .ok e ⟨⟨c, .symbol .rparen :: .symbol .lbrace :: us⟩, es⟩)
    (hb : block n fs [] ⟨⟨.symbol .lbrace, us⟩, es⟩ = .ok b ⟨⟨t, u :: vs⟩, es⟩) :
    operand (n + 2) fs ⟨⟨.word "if", .symbol .lparen :: ts⟩, es⟩ =
      .ok (.cond .start (some e) b none) ⟨⟨t, u :: vs⟩, es⟩ := by
  simp [run_bind, run_expectPeek, run_skipPeek, Stream.advance_eq_ofTokens _ hts, run_attempt_ok he,
    hb, hu]

theorem operand_if_some (hts : ts ≠ [])
    (he : expression (n + 1) fs Level.lowest ⟨.ofTokens ts, es⟩ =
      .ok e ⟨⟨c, .symbol .rparen :: .symbol .lbrace :: us⟩, es⟩)
    (hb : block (n + 1) fs [] ⟨⟨.symbol .lbrace, us⟩, es⟩ =
      .ok b ⟨⟨t, .word "else" :: .symbol .lbrace :: vs⟩, es⟩)
    (ha : block n fs [] ⟨⟨.symbol .lbrace, vs⟩, es⟩ = .ok a s') :
    operand (n + 3) fs ⟨⟨.word "if", .symbol .lparen :: ts⟩, es⟩ =
      .ok (.cond .start (some e) b (some a)) s' := by
  simp [run_bind, run_map, run_expectPeek, run_skipPeek, Stream.advance_eq_ofTokens _ hts,
    run_attempt_ok he, hb, alternative_block ha]

theorem block_braces (hts : ts ≠ [])
    (h : blockStatements n fs { params := xs } ⟨.ofTokens ts, es⟩ =
      .ok ss ⟨⟨.symbol .rbrace, us⟩, es⟩) :
    block (n + 1) fs xs ⟨⟨.symbol .lbrace, ts⟩, es⟩ =
      .ok (.mk .start ss) ⟨⟨.symbol .rbrace, us⟩, es⟩ := by
  simp [block, run_bind, Stream.advance_eq_ofTokens _ hts, h]

theorem blockStatements_nil :
    blockStatements (n + 1) fs own ⟨⟨.symbol .rbrace, us⟩, es⟩ =
      .ok [] ⟨⟨.symbol .rbrace, us⟩, es⟩ := by
  simp [run_bind]

theorem blockStatements_cons (ht : t.kind ≠ .rbrace ∧ t.kind ≠ .eof) (hus : us ≠ [])
    (hst : statement n (own :: fs) ⟨⟨t, ts⟩, es⟩ = .ok (some st) ⟨⟨c, us⟩, es⟩)
    (hcheck : Frames.check own fs st = [])
    (hss : blockStatements n fs (own.add st) ⟨.ofTokens us, es⟩ = .ok ss s') :
    blockStatements (n + 1) fs own ⟨⟨t, ts⟩, es⟩ = .ok (st :: ss) s' := by
  simp [run_bind, run_map, ht, run_attempt_ok hst, hcheck, Stream.advance_eq_ofTokens _ hus, hss]

theorem programStatements_cons (ht : t.kind ≠ .eof) (hus : us ≠ [])
    (hst : statement n [own] ⟨⟨t, ts⟩, es⟩ = .ok (some st) ⟨⟨c, us⟩, es⟩)
    (hcheck : Frames.check own [] st = [])
    (hss : programStatements n (own.add st) ⟨.ofTokens us, es⟩ = .ok ss s') :
    programStatements (n + 1) own ⟨⟨t, ts⟩, es⟩ = .ok (st :: ss) s' := by
  simp [programStatements, run_bind, run_map, ht, run_attempt_ok hst, hcheck,
    Stream.advance_eq_ofTokens _ hus, hss]

/-! ## Statements -/

theorem toSemicolon_cons (hc : c.kind ≠ .semicolon) :
    Stream.toSemicolon c (.symbol .semicolon :: us) = ⟨.symbol .semicolon, us⟩ := by
  cases us <;> simp [Stream.toSemicolon, hc]

theorem declaration_run {b : Bool} (hx : IsName x) (hts : ts ≠ []) (hc : c.kind ≠ .semicolon)
    (he : expression n fs Level.lowest ⟨.ofTokens ts, es⟩ =
      .ok e ⟨⟨c, .symbol .semicolon :: us⟩, es⟩) :
    declaration (n + 1) fs b ⟨⟨.word (declareWord b), .word x :: .symbol .assign :: ts⟩, es⟩ =
      .ok (.declare .start b x e) ⟨⟨.symbol .semicolon, us⟩, es⟩ := by
  simp [declaration, run_bind, run_map, run_expectPeek, Token.word_kind_of_isName hx,
    Stream.advance_eq_ofTokens _ hts, run_attempt_ok he, toSemicolon_cons hc]

theorem statement_declare {isConst : Bool} (hx : IsName x) (hts : ts ≠ [])
    (hc : c.kind ≠ .semicolon)
    (he : expression n fs Level.lowest ⟨.ofTokens ts, es⟩ =
      .ok e ⟨⟨c, .symbol .semicolon :: us⟩, es⟩) :
    statement (n + 2) fs ⟨⟨.word (declareWord isConst), .word x :: .symbol .assign :: ts⟩, es⟩ =
      .ok (some (.declare .start isConst x e)) ⟨⟨.symbol .semicolon, us⟩, es⟩ := by
  have h := fun isConst => declaration_run (b := isConst) hx hts hc he
  cases isConst <;> simp [run_bind, run_map, h]

theorem statement_return_none :
    statement (n + 2) fs ⟨⟨.word "return", .symbol .semicolon :: us⟩, es⟩ =
      .ok (some (.return .start none)) ⟨⟨.symbol .semicolon, us⟩, es⟩ := by
  simp [run_bind, run_map, run_skipPeek]

theorem statement_return_some (ht : t.kind.startsExpr = true) (hc : c.kind ≠ .semicolon)
    (he : expression n fs Level.lowest ⟨⟨t, ts⟩, es⟩ =
      .ok e ⟨⟨c, .symbol .semicolon :: us⟩, es⟩) :
    statement (n + 2) fs ⟨⟨.word "return", t :: ts⟩, es⟩ =
      .ok (some (.return .start (some e))) ⟨⟨.symbol .semicolon, us⟩, es⟩ := by
  have hk : t.kind ≠ .semicolon ∧ t.kind ≠ .rbrace ∧ t.kind ≠ .eof := by
    refine ⟨?_, ?_, ?_⟩ <;> intro h <;> simp [h, Kind.startsExpr] at ht
  simp [run_bind, run_map, run_skipPeek, hk, run_attempt_ok he, toSemicolon_cons hc]

theorem expressionStatement_run
    (he : expression n fs Level.lowest ⟨⟨t, ts⟩, es⟩ =
      .ok e ⟨⟨c, .symbol .semicolon :: us⟩, es⟩) :
    expressionStatement (n + 1) fs ⟨⟨t, ts⟩, es⟩ =
      .ok (.expr t.pos t.literal e) ⟨⟨.symbol .semicolon, us⟩, es⟩ := by
  simp [expressionStatement, run_bind, run_map, run_skipPeek, run_attempt_ok he]

theorem statement_func (hx : IsName x) (hxs : ∀ x ∈ xs, IsName x) (hn : xs.length ≤ n)
    (hb : block n fs xs ⟨⟨.symbol .lbrace, ts⟩, es⟩ = .ok b s') :
    statement (n + 2) fs
        ⟨⟨.word "func", .word x :: (paramTokens xs ++ .symbol .lbrace :: ts)⟩, es⟩ =
      .ok (some (.func .start x xs b)) s' := by
  simp [paramTokens, run_bind, run_map, run_expectPeek, Token.word_kind_of_isName hx,
    params_reread hxs hn, hb]

theorem statement_while (hts : ts ≠ [])
    (he : expression n fs Level.lowest ⟨.ofTokens ts, es⟩ =
      .ok e ⟨⟨c, .symbol .rparen :: .symbol .lbrace :: us⟩, es⟩)
    (hb : block n fs [] ⟨⟨.symbol .lbrace, us⟩, es⟩ = .ok b s') :
    statement (n + 2) fs ⟨⟨.word "while", .symbol .lparen :: ts⟩, es⟩ =
      .ok (some (.while .start (some e) b)) s' := by
  simp [run_bind, run_map, run_expectPeek, Stream.advance_eq_ofTokens _ hts, run_attempt_ok he, hb]

/-- The kinds that a statement of another form starts with, a function expression apart. -/
def introducing : List Kind :=
  [.kwLet, .kwConst, .kwReturn, .kwWhile, .kwFor, .kwFunc, .semicolon]

theorem statement_of_notMem (ht : t.kind ∉ introducing) :
    statement (n + 1) fs ⟨⟨t, ts⟩, es⟩ = (some <$> expressionStatement n fs) ⟨⟨t, ts⟩, es⟩ := by
  rw [statement, run_bind_ok (run_current _)]
  cases ht' : t.kind <;> simp_all [introducing]

theorem statement_expr_of_notMem (ht : t.kind ∉ introducing)
    (he : expression n fs Level.lowest ⟨⟨t, ts⟩, es⟩ =
      .ok e ⟨⟨c, .symbol .semicolon :: us⟩, es⟩) :
    statement (n + 2) fs ⟨⟨t, ts⟩, es⟩ =
      .ok (some (.expr t.pos t.literal e)) ⟨⟨.symbol .semicolon, us⟩, es⟩ := by
  rw [statement_of_notMem ht]
  simp [run_map, expressionStatement_run he]

theorem statement_expr (ht : t.kind.startsExpr = true)
    (hfunc : t.kind = .kwFunc → ts.head? = some (.symbol .lparen))
    (he : expression n fs Level.lowest ⟨⟨t, ts⟩, es⟩ =
      .ok e ⟨⟨c, .symbol .semicolon :: us⟩, es⟩) :
    statement (n + 2) fs ⟨⟨t, ts⟩, es⟩ =
      .ok (some (.expr t.pos t.literal e)) ⟨⟨.symbol .semicolon, us⟩, es⟩ := by
  by_cases hk : t.kind = .kwFunc
  · obtain ⟨ts', rfl⟩ := List.head?_eq_some_iff.mp (hfunc hk)
    simp [run_bind, run_map, hk, expressionStatement_run he]
  · refine statement_expr_of_notMem ?_ he
    have hstarts : ∀ k ∈ introducing, k ≠ .kwFunc → k.startsExpr = false := by decide
    intro hmem
    simp [hstarts _ hmem hk] at ht

/-! ## The clauses of a `for` -/

theorem forInit_none :
    forInit (n + 1) fs ⟨⟨.symbol .semicolon, us⟩, es⟩ =
      .ok none ⟨⟨.symbol .semicolon, us⟩, es⟩ := by
  simp [run_bind]

theorem forInit_declare {b : Bool} (hx : IsName x) (hts : ts ≠ []) (hc : c.kind ≠ .semicolon)
    (he : expression n ({} :: fs) Level.lowest ⟨.ofTokens ts, es⟩ =
      .ok e ⟨⟨c, .symbol .semicolon :: us⟩, es⟩) :
    forInit (n + 2) fs ⟨⟨.word (declareWord b), .word x :: .symbol .assign :: ts⟩, es⟩ =
      .ok (some (.declare .start b x e)) ⟨⟨.symbol .semicolon, us⟩, es⟩ := by
  have h := fun b => declaration_run (b := b) hx hts hc he
  cases b <;> simp [run_bind, h, Stmt.target?, Frames.checkTarget]

theorem forInit_expr (ht : t.kind.startsExpr = true)
    (hcheck : Frames.checkTarget ({} :: fs) e.target? = [])
    (he : expression n ({} :: fs) Level.lowest ⟨⟨t, ts⟩, es⟩ =
      .ok e ⟨⟨c, .symbol .semicolon :: us⟩, es⟩) :
    forInit (n + 2) fs ⟨⟨t, ts⟩, es⟩ =
      .ok (some (.expr t.pos t.literal e)) ⟨⟨.symbol .semicolon, us⟩, es⟩ := by
  have hk : t.kind ≠ .semicolon ∧ t.kind ≠ .kwLet ∧ t.kind ≠ .kwConst := by
    refine ⟨?_, ?_, ?_⟩ <;> intro h <;> simp [h, Kind.startsExpr] at ht
  have h := expressionStatement_run he
  simp [run_bind, hk, h, Stmt.target?, hcheck]

theorem forCondition_none :
    forCondition (n + 1) fs ⟨⟨.symbol .semicolon, us⟩, es⟩ =
      .ok none ⟨⟨.symbol .semicolon, us⟩, es⟩ := by
  simp [run_bind]

theorem forCondition_some (ht : t.kind.startsExpr = true)
    (he : expression n fs Level.lowest ⟨⟨t, ts⟩, es⟩ =
      .ok e ⟨⟨c, .symbol .semicolon :: us⟩, es⟩) :
    forCondition (n + 1) fs ⟨⟨t, ts⟩, es⟩ = .ok (some e) ⟨⟨.symbol .semicolon, us⟩, es⟩ := by
  have hk : t.kind ≠ .semicolon := by
    intro h
    simp [h, Kind.startsExpr] at ht
  simp [run_bind, run_map, run_expectPeek, hk, run_attempt_ok he]

theorem forUpdate_none :
    forUpdate (n + 1) fs ⟨⟨.symbol .rparen, us⟩, es⟩ = .ok none ⟨⟨.symbol .rparen, us⟩, es⟩ := by
  simp [run_bind]

theorem forUpdate_some (ht : t.kind.startsExpr = true)
    (hcheck : Frames.checkTarget fs e.target? = [])
    (he : expression n fs Level.lowest ⟨⟨t, ts⟩, es⟩ =
      .ok e ⟨⟨c, .symbol .rparen :: us⟩, es⟩) :
    forUpdate (n + 1) fs ⟨⟨t, ts⟩, es⟩ = .ok (some e) ⟨⟨.symbol .rparen, us⟩, es⟩ := by
  have hk : t.kind ≠ .rparen := by
    intro h
    simp [h, Kind.startsExpr] at ht
  simp [run_bind, run_map, run_expectPeek, hk, run_attempt_ok he, hcheck]

theorem statement_for {init : Option Stmt} {condition update : Option Expr} (hts : ts ≠ [])
    (hus : us ≠ []) (hvs : vs ≠ [])
    (hi : forInit n fs ⟨.ofTokens ts, es⟩ = .ok init ⟨⟨.symbol .semicolon, us⟩, es⟩)
    (hcond : forCondition n ((init.map (Frame.add {})).getD {} :: fs) ⟨.ofTokens us, es⟩ =
      .ok condition ⟨⟨.symbol .semicolon, vs⟩, es⟩)
    (hu : forUpdate n ((init.map (Frame.add {})).getD {} :: fs) ⟨.ofTokens vs, es⟩ =
      .ok update ⟨⟨.symbol .rparen, .symbol .lbrace :: ws⟩, es⟩)
    (hb : block n ((init.map (Frame.add {})).getD {} :: fs) [] ⟨⟨.symbol .lbrace, ws⟩, es⟩ =
      .ok b s') :
    statement (n + 2) fs ⟨⟨.word "for", .symbol .lparen :: ts⟩, es⟩ =
      .ok (some (.for .start init condition update b)) s' := by
  simp [run_bind, run_map, run_expectPeek, Stream.advance_eq_ofTokens _ hts,
    Stream.advance_eq_ofTokens _ hus, Stream.advance_eq_ofTokens _ hvs, hi, hcond, hu, hb]

/-! ## Programs -/

theorem programStatements_last (own : Frame) :
    programStatements (n + 1) own ⟨.ofTokens [.last], es⟩ = .ok [] ⟨⟨.last, []⟩, es⟩ := by
  simp [programStatements, run_bind, Stream.ofTokens, Token.last]

/-- A program of one expression and its semicolon. -/
theorem run_expr (ht : t.kind ∉ introducing) (heof : t.kind ≠ .eof)
    (hcheck : Frames.check {} [] (.expr t.pos t.literal e) = [])
    (he : expression n [{}] Level.lowest ⟨⟨t, ts⟩, []⟩ =
      .ok e ⟨⟨c, [.symbol .semicolon, .last]⟩, []⟩) :
    run (n + 3) (t :: ts) = some (⟨[.expr t.pos t.literal e]⟩, []) := by
  have hstatement := statement_expr_of_notMem ht he
  rw [run, Stream.ofTokens,
    programStatements_cons heof (by simp) hstatement hcheck (programStatements_last _)]
  rfl

/-- A program of one expression without a semicolon. -/
theorem run_last_expr (ht : t.kind ∉ introducing) (heof : t.kind ≠ .eof)
    (hcheck : Frames.check {} [] (.expr t.pos t.literal e) = [])
    (he : expression n [{}] Level.lowest ⟨⟨t, ts⟩, []⟩ = .ok e ⟨⟨c, [.last]⟩, []⟩) :
    run (n + 3) (t :: ts) = some (⟨[.expr t.pos t.literal e]⟩, []) := by
  have hexpression : expressionStatement (n + 1) [{}] ⟨⟨t, ts⟩, []⟩ =
      .ok (.expr t.pos t.literal e) ⟨⟨c, [.last]⟩, []⟩ := by
    simp [expressionStatement, run_bind, run_map, run_skipPeek, run_attempt_ok he, Token.last]
  have hstatement : statement (n + 2) [{}] ⟨⟨t, ts⟩, []⟩ =
      .ok (some (.expr t.pos t.literal e)) ⟨⟨c, [.last]⟩, []⟩ := by
    rw [statement_of_notMem ht, run_map, hexpression]
  rw [run, Stream.ofTokens,
    programStatements_cons heof (by simp) hstatement hcheck (programStatements_last _)]
  rfl

end Parse

end Vorn
