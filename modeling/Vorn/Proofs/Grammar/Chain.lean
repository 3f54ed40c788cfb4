import Vorn.Proofs.Grammar.Forms

/-!
# Operator chains

A chain is a row of operands with binary operators between them and no parentheses. `Chain.tree`
says which tree it has: the chain is split at the rightmost of its operators of the lowest level,
and what stands on the two sides are chains again.

The grammar reads a chain from left to right and never looks for a lowest operator. The two meet in
`Chain.treeFrom_cons`: an operator takes for its right side the links that bind tighter, as long as
no such link follows, and what it makes of them is the left side of the links behind.
`Parse.extend_links` takes the same step in the grammar, and `Chain.run_tokens` is about a whole
chain.
-/

namespace Vorn

/-- A name behind prefix operators. -/
structure Operand where
  prefixes : List UnaryOp
  name : String
  isName : IsName name

namespace Operand

/-- Each prefix operator applies to the rest of the operand and to nothing else. -/
def tree (o : Operand) : Expr := o.prefixes.foldr (.unary .start) (.ident .start o.name)

def tokens (o : Operand) : List Token :=
  o.prefixes.map (fun op => .symbol op.kind) ++ [.word o.name]

end Operand

/-- A binary operator and the operand behind it. -/
structure Link where
  op : BinaryOp
  operand : Operand

/-- An operand and the links behind it. -/
structure Chain where
  first : Operand
  links : List Link

/-- The tokens of links, one after the other. -/
def linkTokens (links : List Link) : List Token :=
  links.flatMap fun k => .symbol k.op.kind :: k.operand.tokens

namespace Chain

variable {before after ks ls : List Link} {k m : Link} {left : Expr} {level : Nat}

/-! ## Splitting -/

/-- No operator of the chain is looser than that of `m`, and none behind it is as loose. -/
structure Splits (before : List Link) (m : Link) (after : List Link) : Prop where
  before_le : ∀ k ∈ before, m.op.level ≤ k.op.level
  after_lt : ∀ k ∈ after, m.op.level < k.op.level

/-- The rightmost link of the lowest level, between those before it and those behind. -/
def split? : List Link → Option (List Link × Link × List Link)
  | [] => none
  | k :: ks =>
    match split? ks with
    | none => some ([], k, ks)
    | some (before, m, after) =>
      if m.op.level ≤ k.op.level then some (k :: before, m, after) else some ([], k, ks)

theorem eq_nil_of_split? (h : split? ks = none) : ks = [] := by
  cases ks with
  | nil => rfl
  | cons k ks =>
    simp only [split?] at h
    split at h
    · cases h
    · split at h <;> cases h

theorem splits_of_split? : ∀ {ks before : List Link} {m : Link} {after : List Link},
    split? ks = some (before, m, after) → ks = before ++ m :: after ∧ Splits before m after
  | k :: ks, before, m, after, h => by
    simp only [split?] at h
    split at h
    · rename_i hks
      obtain ⟨rfl, rfl, rfl⟩ : [] = before ∧ k = m ∧ ks = after := by simpa using h
      exact ⟨rfl, nofun, by simp [eq_nil_of_split? hks]⟩
    · rename_i before' m' after' hks
      obtain ⟨rfl, hsplits⟩ := splits_of_split? hks
      split at h
      · rename_i hle
        obtain ⟨rfl, rfl, rfl⟩ : k :: before' = before ∧ m' = m ∧ after' = after := by
          simpa using h
        refine ⟨rfl, ?_, hsplits.after_lt⟩
        simpa [hle] using hsplits.before_le
      · rename_i hlt
        obtain ⟨rfl, rfl, rfl⟩ : [] = before ∧ k = m ∧ before' ++ m' :: after' = after := by
          simpa using h
        -- Every other link is as tight as `m'`, which is tighter than `k`.
        refine ⟨rfl, nofun, fun l hl => Nat.lt_of_lt_of_le (Nat.lt_of_not_le hlt) ?_⟩
        rcases List.mem_append.mp hl with hl | hl
        · exact hsplits.before_le l hl
        · rcases List.mem_cons.mp hl with rfl | hl
          · exact Nat.le_refl _
          · exact Nat.le_of_lt (hsplits.after_lt l hl)

example (a b c d : Operand) : split? [⟨.sub, a⟩, ⟨.mul, b⟩, ⟨.sub, c⟩, ⟨.div, d⟩] =
    some ([⟨.sub, a⟩, ⟨.mul, b⟩], ⟨.sub, c⟩, [⟨.div, d⟩]) := rfl

theorem exists_splits (h : ks ≠ []) :
    ∃ before m after, ks = before ++ m :: after ∧ Splits before m after := by
  cases hs : split? ks with
  | none => exact (h (eq_nil_of_split? hs)).elim
  | some p =>
    obtain ⟨before, m, after⟩ := p
    exact ⟨before, m, after, splits_of_split? hs⟩

/-- There is one such link only. -/
theorem Splits.split? (h : Splits before m after) :
    split? (before ++ m :: after) = some (before, m, after) := by
  induction before with
  | nil =>
    rw [List.nil_append, Chain.split?]
    cases hs : Chain.split? after with
    | none => rfl
    | some p =>
      obtain ⟨before', m', after'⟩ := p
      obtain ⟨rfl, -⟩ := splits_of_split? hs
      exact if_neg (Nat.not_le_of_lt (h.after_lt m' (by simp)))
  | cons k before ih =>
    have hrest : Splits before m after :=
      ⟨fun l hl => h.before_le l (List.mem_cons_of_mem k hl), h.after_lt⟩
    simp only [List.cons_append, Chain.split?, ih hrest]
    exact if_pos (h.before_le k (by simp))

/-! ## The tree -/

/-- The tree of an expression and the links behind it. -/
def treeFrom (left : Expr) (links : List Link) : Expr :=
  match _h : split? links with
  | none => left
  | some (before, m, after) =>
    .binary .start m.op (treeFrom left before) (treeFrom m.operand.tree after)
termination_by links.length
decreasing_by
  all_goals
    have hlength := congrArg List.length (splits_of_split? _h).1
    simp at hlength
    omega

@[simp] theorem treeFrom_nil : treeFrom left [] = left := by
  rw [treeFrom]
  rfl

theorem treeFrom_split (h : Splits before m after) :
    treeFrom left (before ++ m :: after) =
      .binary .start m.op (treeFrom left before) (treeFrom m.operand.tree after) := by
  rw [treeFrom]
  split
  · rename_i hs
    simp [h.split?] at hs
  · rename_i before' m' after' hs
    obtain ⟨rfl, rfl, rfl⟩ : before = before' ∧ m = m' ∧ after = after' := by
      simpa [h.split?] using hs
    rfl

/-- An operator takes the links that bind tighter, if the next one does not, and becomes the left
side of the rest. -/
theorem treeFrom_cons {ls : List Link} (hks : ∀ l ∈ ks, k.op.level < l.op.level)
    (hls : ∀ l ∈ ls.head?, l.op.level ≤ k.op.level) :
    treeFrom left (k :: (ks ++ ls)) =
      treeFrom (.binary .start k.op left (treeFrom k.operand.tree ks)) ls := by
  by_cases hnil : ls = []
  · -- Nothing else is as loose as `k`.
    subst hnil
    have hsplits : Splits [] k ks := ⟨nofun, hks⟩
    rw [List.append_nil, treeFrom_nil]
    exact (treeFrom_split hsplits).trans (by rw [treeFrom_nil])
  · obtain ⟨before, m, after, hparts, hsplits⟩ := exists_splits hnil
    have hlength : before.length < ls.length := by simp [hparts]
    subst hparts
    have hm : m.op.level ≤ k.op.level := by
      cases before with
      | nil => exact hls m rfl
      | cons b bs => exact Nat.le_trans (hsplits.before_le b (by simp)) (hls b rfl)
    -- The loosest of the links behind is the loosest of all: `k` and `ks` are no looser.
    have hall : Splits (k :: (ks ++ before)) m after := by
      refine ⟨fun l hl => ?_, hsplits.after_lt⟩
      rcases List.mem_cons.mp hl with rfl | hl
      · exact hm
      · rcases List.mem_append.mp hl with hl | hl
        · exact Nat.le_trans hm (Nat.le_of_lt (hks l hl))
        · exact hsplits.before_le l hl
    have hbefore : ∀ l ∈ before.head?, l.op.level ≤ k.op.level := by
      intro l hl
      refine hls l ?_
      rw [List.head?_append, hl]
      rfl
    calc treeFrom left (k :: (ks ++ (before ++ m :: after)))
        = treeFrom left ((k :: (ks ++ before)) ++ m :: after) := by simp
      _ = .binary .start m.op (treeFrom left (k :: (ks ++ before)))
            (treeFrom m.operand.tree after) := treeFrom_split hall
      _ = .binary .start m.op
            (treeFrom (.binary .start k.op left (treeFrom k.operand.tree ks)) before)
            (treeFrom m.operand.tree after) := by rw [treeFrom_cons hks hbefore]
      _ = treeFrom (.binary .start k.op left (treeFrom k.operand.tree ks))
            (before ++ m :: after) := (treeFrom_split hsplits).symm
termination_by ls.length

/-- Operators of one level group to the left. -/
theorem treeFrom_of_level (h : ∀ k ∈ ks, k.op.level = level) :
    treeFrom left ks = ks.foldl (fun e k => .binary .start k.op e k.operand.tree) left := by
  induction ks generalizing left with
  | nil => simp
  | cons k ks ih =>
    have hks : ∀ l ∈ ks, l.op.level = level := fun l hl => h l (List.mem_cons_of_mem k hl)
    have hhead : ∀ l ∈ ks.head?, l.op.level ≤ k.op.level := by
      intro l hl
      exact Nat.le_of_eq ((hks l (List.mem_of_mem_head? hl)).trans (h k (by simp)).symm)
    have hnone : ∀ l ∈ ([] : List Link), k.op.level < l.op.level := nofun
    calc treeFrom left (k :: ks)
        = treeFrom (.binary .start k.op left (treeFrom k.operand.tree [])) ks :=
          treeFrom_cons hnone hhead
      _ = (k :: ks).foldl (fun e k => .binary .start k.op e k.operand.tree) left := by
        rw [treeFrom_nil, ih hks, List.foldl_cons]

/-! ## Links up to a level -/

/-- The links that an expression of the level is extended by. -/
def taken (level : Nat) (links : List Link) : List Link :=
  links.takeWhile fun k => level < k.op.level

/-- The links that are left over. -/
def rest (level : Nat) (links : List Link) : List Link :=
  links.dropWhile fun k => level < k.op.level

@[simp] theorem taken_nil : taken level [] = [] := rfl

theorem taken_append_rest : taken level ks ++ rest level ks = ks :=
  List.takeWhile_append_dropWhile

theorem level_lt_of_mem_taken (h : k ∈ taken level ks) : level < k.op.level := by
  simpa using List.all_eq_true.mp (List.all_takeWhile (l := ks)) k h

theorem level_le_of_mem_head?_rest (h : k ∈ (rest level ks).head?) : k.op.level ≤ level := by
  have hrest := List.head?_dropWhile_not (fun k : Link => decide (level < k.op.level)) ks
  rw [rest] at h
  rw [h] at hrest
  simpa using hrest

theorem taken_append (h : ∀ l ∈ ks, level < l.op.level) :
    taken level (ks ++ ls) = ks ++ taken level ls :=
  List.takeWhile_append_of_pos (by simpa using h)

theorem rest_append (h : ∀ l ∈ ks, level < l.op.level) : rest level (ks ++ ls) = rest level ls :=
  List.dropWhile_append_of_pos (by simpa using h)

/-- An operator of a higher level takes some of the links behind it, and the level the rest. -/
theorem taken_rest_cons (h : level < k.op.level) :
    taken level (k :: ks) = k :: (taken k.op.level ks ++ taken level (rest k.op.level ks)) ∧
      rest level (k :: ks) = rest level (rest k.op.level ks) := by
  have hks : ∀ l ∈ k :: taken k.op.level ks, level < l.op.level := by
    intro l hl
    rcases List.mem_cons.mp hl with rfl | hl
    · exact h
    · exact Nat.lt_trans h (level_lt_of_mem_taken hl)
  have hsplit : k :: ks = (k :: taken k.op.level ks) ++ rest k.op.level ks := by
    rw [List.cons_append, taken_append_rest]
  constructor
  · rw [hsplit, taken_append hks, List.cons_append]
  · rw [hsplit, rest_append hks]

theorem rest_lowest (ks : List Link) : rest Level.lowest ks = [] := by
  cases h : rest Level.lowest ks with
  | nil => rfl
  | cons k _ =>
    have hle : k.op.level ≤ Level.lowest := level_le_of_mem_head?_rest (by rw [h]; rfl)
    have hlt : Level.lowest < k.op.level := by cases k.op <;> decide
    omega

theorem taken_lowest (ks : List Link) : taken Level.lowest ks = ks := by
  have h : taken Level.lowest ks ++ rest Level.lowest ks = ks := taken_append_rest
  rwa [rest_lowest, List.append_nil] at h

theorem treeFrom_taken_cons (h : level < k.op.level) :
    treeFrom left (taken level (k :: ks)) =
      treeFrom (.binary .start k.op left (treeFrom k.operand.tree (taken k.op.level ks)))
        (taken level (rest k.op.level ks)) := by
  rw [(taken_rest_cons h).1]
  refine treeFrom_cons (fun l hl => level_lt_of_mem_taken hl) fun l hl => ?_
  rw [taken, List.head?_takeWhile] at hl
  have hhead : l ∈ (rest k.op.level ks).head? := (Option.mem_filter_iff.mp hl).1
  exact level_le_of_mem_head?_rest hhead

/-! ## Tokens -/

@[simp] theorem linkTokens_cons :
    linkTokens (k :: ks) = .symbol k.op.kind :: (k.operand.tokens ++ linkTokens ks) := rfl

theorem length_rest_le (level : Nat) (ks : List Link) :
    (rest level ks).length ≤ ks.length ∧
      (linkTokens (rest level ks)).length ≤ (linkTokens ks).length := by
  have hks : linkTokens ks = linkTokens (taken level ks) ++ linkTokens (rest level ks) := by
    rw [linkTokens, linkTokens, linkTokens, ← List.flatMap_append, taken_append_rest]
  constructor
  · exact (List.dropWhile_suffix _).length_le
  · rw [hks, List.length_append]
    exact Nat.le_add_left _ _

/-- The token behind an operand ends it. -/
structure EndsOperand (u : Token) : Prop where
  assignment : u.kind.assignment? = none
  level : u.kind.level ≤ Level.unary

theorem endsOperand_symbol (op : BinaryOp) : EndsOperand (.symbol op.kind) := by
  cases op <;> exact ⟨rfl, by decide⟩

end Chain

namespace Parse

open Chain

variable {fs : Frames} {es : List ParseError} {u : Token}

/-! ## Reading -/

/-- An operand is read up to its name. Three calls lead from one prefix operator to the next. -/
theorem operand_prefixes {x : String} (hx : IsName x) (hu : EndsOperand u) (us : List Token) :
    ∀ (ops : List UnaryOp) (n : Nat), 3 * ops.length + 2 ≤ n →
      operand n fs
          ⟨.ofTokens (ops.map (fun op => Token.symbol op.kind) ++ .word x :: u :: us), es⟩ =
        .ok (ops.foldr (.unary .start) (.ident .start x)) ⟨⟨.word x, u :: us⟩, es⟩
  | [], n + 2, _ => operand_name hx hu.assignment
  | op :: ops, n + 3, hn => by
    obtain ⟨n, rfl⟩ : ∃ k, n = k + 1 := ⟨n - 1, by simp at hn; omega⟩
    have hrest := operand_prefixes hx hu us ops (n + 1) (by simp at hn; omega)
    refine operand_unary (by simp) ?_
    exact (expression_of_operand hrest).trans (extend_stop hu.level)

/-- In front of more links and a token that ends the chain, an expression of the level begins with
the operand, which its links then extend. -/
theorem expression_operand (o : Operand) (links : List Link) (hu : EndsOperand u)
    (us : List Token) {level n : Nat} (hn : 3 * o.tokens.length ≤ n) :
    expression (n + 1) fs level ⟨.ofTokens (o.tokens ++ linkTokens links ++ u :: us), es⟩ =
      extend n fs level o.tree ⟨⟨.word o.name, linkTokens links ++ u :: us⟩, es⟩ := by
  obtain ⟨v, vs, hv, htokens⟩ : ∃ v vs, EndsOperand v ∧ linkTokens links ++ u :: us = v :: vs := by
    cases links with
    | nil => exact ⟨u, us, hu, rfl⟩
    | cons k ks => exact ⟨_, _, endsOperand_symbol k.op, rfl⟩
  have hfuel : 3 * o.prefixes.length + 2 ≤ n := by
    simp [Operand.tokens] at hn
    omega
  rw [List.append_assoc, htokens, Operand.tokens, List.append_assoc]
  exact expression_of_operand (operand_prefixes o.isName hv vs o.prefixes n hfuel)

/-- An expression is extended by the links of a higher level, and becomes the tree they have behind
it. The right side of the first operator is read by the same rule, and so is what it leaves. -/
theorem extend_links (fs : Frames) (es : List ParseError) (hu : EndsOperand u)
    (hlowest : u.kind.level ≤ Level.lowest) (us : List Token) {level : Nat}
    (hlevel : Level.lowest ≤ level) (left : Expr) (c : Token) :
    ∀ (links : List Link) {n : Nat}, 4 * (linkTokens links).length < n →
      ∃ d, extend n fs level left ⟨⟨c, linkTokens links ++ u :: us⟩, es⟩ =
        .ok (treeFrom left (taken level links))
          ⟨⟨d, linkTokens (rest level links) ++ u :: us⟩, es⟩
  | [], n + 1, _ => by
    refine ⟨c, ?_⟩
    rw [taken_nil, treeFrom_nil]
    exact extend_stop (Nat.le_trans hlowest hlevel)
  | k :: ks, n + 1, hn => by
    by_cases h : level < k.op.level
    · simp only [linkTokens_cons, List.length_cons, List.length_append] at hn
      obtain ⟨n, rfl⟩ : ∃ i, n = i + 2 := ⟨n - 2, by omega⟩
      obtain ⟨hlength, hrestTokens⟩ := length_rest_le k.op.level ks
      obtain ⟨d, hlinks⟩ := extend_links fs es hu hlowest us
        (Nat.le_trans hlevel (Nat.le_of_lt h))
        k.operand.tree (.word k.operand.name) ks (n := n) (by omega)
      have hright := (expression_operand k.operand ks hu us (by omega)).trans hlinks
      obtain ⟨d', hbehind⟩ := extend_links fs es hu hlowest us hlevel
        (.binary .start k.op left (treeFrom k.operand.tree (taken k.op.level ks))) d
        (rest k.op.level ks) (n := n + 2) (by omega)
      refine ⟨d', ?_⟩
      rw [treeFrom_taken_cons h, (taken_rest_cons h).2, ← hbehind]
      exact extend_go (by simpa [BinaryOp.level_kind] using h) (continuation_binary (by simp) hright)
    · obtain ⟨hnone, hall⟩ : taken level (k :: ks) = [] ∧ rest level (k :: ks) = k :: ks := by
        simp [taken, rest, h]
      refine ⟨c, ?_⟩
      rw [hnone, hall, treeFrom_nil]
      exact extend_stop (by simpa [BinaryOp.level_kind] using h)
termination_by links => links.length

end Parse

namespace Chain

/-- The tree of a chain. -/
def tree (c : Chain) : Expr := treeFrom c.first.tree c.links

def tokens (c : Chain) : List Token := c.first.tokens ++ linkTokens c.links

theorem target?_treeFrom (h : left.target? = none) : (treeFrom left ks).target? = none := by
  rw [treeFrom]
  split
  · exact h
  · rfl

theorem target?_tree (c : Chain) : c.tree.target? = none := by
  refine target?_treeFrom ?_
  obtain ⟨⟨ops, name, -⟩, -⟩ := c
  cases ops <;> rfl

theorem tokens_eq_cons (c : Chain) : ∃ t ts, c.tokens = t :: ts ∧ t.pos = .start ∧
    t.kind ∉ Parse.introducing ∧ t.kind ≠ .eof := by
  obtain ⟨⟨ops, name, hname⟩, links⟩ := c
  cases ops with
  | nil =>
    refine ⟨_, _, rfl, rfl, ?_⟩
    rw [Token.word_kind_of_isName hname]
    decide
  | cons op ops =>
    refine ⟨_, _, rfl, rfl, ?_⟩
    cases op <;> decide

theorem read_expression (c : Chain) (fs : Frames) (es : List ParseError) (us : List Token) {n : Nat}
    (hn : 4 * c.tokens.length < n) :
    ∃ d, Parse.expression (n + 1) fs Level.lowest
        ⟨.ofTokens (c.tokens ++ .symbol .semicolon :: us), es⟩ =
      .ok c.tree ⟨⟨d, .symbol .semicolon :: us⟩, es⟩ := by
  have hu : EndsOperand (.symbol .semicolon) := ⟨rfl, by decide⟩
  rw [tokens, List.length_append] at hn
  obtain ⟨d, hlinks⟩ := Parse.extend_links fs es hu (Nat.le_refl _) us (Nat.le_refl _)
    c.first.tree (.word c.first.name) c.links (n := n) (by omega)
  rw [rest_lowest, taken_lowest] at hlinks
  exact ⟨d, (Parse.expression_operand c.first c.links hu us (by omega)).trans hlinks⟩

/-- A chain and its semicolon are read as one statement, and nothing is reported. -/
theorem run_tokens (c : Chain) :
    Parse.run (Parse.fuel (c.tokens ++ [.symbol .semicolon, .last]))
        (c.tokens ++ [.symbol .semicolon, .last]) =
      some (⟨[.expr .start (c.tokens.headD .last).literal c.tree]⟩, []) := by
  obtain ⟨n, hfuel, hn⟩ : ∃ n, Parse.fuel (c.tokens ++ [.symbol .semicolon, .last]) = n + 4 ∧
      4 * c.tokens.length < n := by
    refine ⟨Parse.fuel (c.tokens ++ [.symbol .semicolon, .last]) - 4, ?_⟩
    simp [Parse.fuel]
    omega
  obtain ⟨d, hexpression⟩ := c.read_expression [{}] [] [.last] hn
  obtain ⟨t, ts, htokens, hpos, hplain, heof⟩ := c.tokens_eq_cons
  rw [htokens, List.cons_append, Stream.ofTokens] at hexpression
  have hcheck : Frames.check {} [] (.expr t.pos t.literal c.tree) = [] := by
    simp [Frames.check, Stmt.target?, target?_tree, Frames.checkTarget, Frame.checkFresh]
  rw [hfuel, htokens, List.cons_append, Parse.run_expr hplain heof hcheck hexpression, hpos]
  rfl

end Chain

end Vorn
