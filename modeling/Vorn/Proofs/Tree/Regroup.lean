import Vorn.Proofs.Tree.Marks
import Vorn.Proofs.Tree.WellFormed

/-!
# Calls of assignments

A call is written as what is called with the arguments behind it, and an assignment takes all that
follows for its value. So the call of an assignment and the assignment of a call are written alike,
and the text is read as the second. `regroup` moves every such call into the assigned value:

* `Program.text_regroup`: the source form stays;
* `Program.wellFormed_regroup`: well-formed nodes stay well-formed.
-/

namespace Vorn

/-- A call, moved into the value if an assignment is called. -/
def Expr.callOf (pos : Pos) (args : List Expr) : Expr → Expr
  | .assign p name value => .assign p name (Expr.callOf pos args value)
  | e => .call pos e args

mutual

def Expr.regroup : Expr → Expr
  | .array p elements => .array p (Expr.regroupAll elements)
  | .hash p pairs => .hash p (Expr.regroupPairs pairs)
  | .func p params body => .func p params body.regroup
  | .unary p op operand => .unary p op operand.regroup
  | .binary p op left right => .binary p op left.regroup right.regroup
  | .cond p condition consequence alternative =>
    .cond p (Expr.regroupOption condition) consequence.regroup (Block.regroupOption alternative)
  | .call p callee args => Expr.callOf p (Expr.regroupAll args) callee.regroup
  | .index p collection key => .index p collection.regroup key.regroup
  | .member p receiver namePos name => .member p receiver.regroup namePos name
  | .method p receiver namePos name callPos args =>
    .method p receiver.regroup namePos name callPos (Expr.regroupAll args)
  | .assign p name value => .assign p name value.regroup
  | .ident p name => .ident p name
  | .int p written value => .int p written value
  | .float p written value => .float p written value
  | .bool p value => .bool p value
  | .null p => .null p
  | .string p value => .string p value
  | .step p op name before => .step p op name before
  | .break p => .break p
  | .continue p => .continue p

def Expr.regroupAll : List Expr → List Expr
  | [] => []
  | e :: es => e.regroup :: Expr.regroupAll es

def Expr.regroupPairs : List (Expr × Expr) → List (Expr × Expr)
  | [] => []
  | (k, v) :: ps => (k.regroup, v.regroup) :: Expr.regroupPairs ps

def Expr.regroupOption : Option Expr → Option Expr
  | none => none
  | some e => some e.regroup

def Block.regroupOption : Option Block → Option Block
  | none => none
  | some b => some b.regroup

def Block.regroup : Block → Block
  | .mk p statements => .mk p (Stmt.regroupAll statements)

def Stmt.regroup : Stmt → Stmt
  | .expr p literal value => .expr p literal value.regroup
  | .declare p isConst name value => .declare p isConst name value.regroup
  | .return p value => .return p (Expr.regroupOption value)
  | .while p condition body => .while p (Expr.regroupOption condition) body.regroup
  | .for p init condition update body =>
    .for p (Stmt.regroupOption init) (Expr.regroupOption condition) (Expr.regroupOption update)
      body.regroup
  | .func p name params body => .func p name params body.regroup

def Stmt.regroupAll : List Stmt → List Stmt
  | [] => []
  | s :: ss => s.regroup :: Stmt.regroupAll ss

def Stmt.regroupOption : Option Stmt → Option Stmt
  | none => none
  | some s => some s.regroup

end

def Program.regroup (p : Program) : Program := ⟨Stmt.regroupAll p.statements⟩

/-! ## The source form -/

theorem Expr.text_callOf (pos : Pos) (args : List Expr) (e : Expr) :
    (Expr.callOf pos args e).text = e.text ++ parenthesized (Expr.texts args) := by
  fun_induction Expr.callOf pos args e with
  | case1 _ name value ih => simp only [Expr.text, ih, String.append_assoc]
  | case2 => rw [Expr.text]

mutual

theorem Expr.text_regroup : ∀ e : Expr, e.regroup.text = e.text
  | .ident _ _ | .int _ _ _ | .float _ _ _ | .bool _ _ | .null _ | .string _ _ | .step _ _ _ _
  | .break _ | .continue _ => rfl
  | .array _ es => by simp only [Expr.regroup, Expr.text, Expr.texts_regroupAll es]
  | .hash _ ps => by simp only [Expr.regroup, Expr.text, Expr.pairTexts_regroupPairs ps]
  | .func _ _ body => by simp only [Expr.regroup, Expr.text, Block.text_regroup body]
  | .unary _ _ e => by simp only [Expr.regroup, Expr.text, Expr.text_regroup e]
  | .binary _ _ l r => by
    simp only [Expr.regroup, Expr.text, Expr.text_regroup l, Expr.text_regroup r]
  | .cond _ c b a => by
    simp only [Expr.regroup, Expr.text, Expr.optionText_regroupOption c, Block.text_regroup b,
      Block.alternativeText_regroupOption a]
  | .call p f es => by
    rw [Expr.regroup, Expr.text_callOf, Expr.text_regroup f, Expr.texts_regroupAll es, Expr.text]
  | .index _ c k => by
    simp only [Expr.regroup, Expr.text, Expr.text_regroup c, Expr.text_regroup k]
  | .member _ r _ _ => by simp only [Expr.regroup, Expr.text, Expr.text_regroup r]
  | .method _ r _ _ _ es => by
    simp only [Expr.regroup, Expr.text, Expr.text_regroup r, Expr.texts_regroupAll es]
  | .assign _ _ e => by simp only [Expr.regroup, Expr.text, Expr.text_regroup e]

theorem Expr.texts_regroupAll : ∀ es : List Expr, Expr.texts (Expr.regroupAll es) = Expr.texts es
  | [] => rfl
  | e :: es => by
    simp only [Expr.regroupAll, Expr.texts, Expr.text_regroup e, Expr.texts_regroupAll es]

theorem Expr.pairTexts_regroupPairs :
    ∀ ps : List (Expr × Expr), Expr.pairTexts (Expr.regroupPairs ps) = Expr.pairTexts ps
  | [] => rfl
  | (k, v) :: ps => by
    simp only [Expr.regroupPairs, Expr.pairTexts, Expr.text_regroup k, Expr.text_regroup v,
      Expr.pairTexts_regroupPairs ps]

theorem Expr.optionText_regroupOption :
    ∀ e : Option Expr, Expr.optionText (Expr.regroupOption e) = Expr.optionText e
  | none => rfl
  | some e => by simp only [Expr.regroupOption, Expr.optionText, Expr.text_regroup e]

theorem Block.alternativeText_regroupOption :
    ∀ b : Option Block, Block.alternativeText (Block.regroupOption b) = Block.alternativeText b
  | none => rfl
  | some b => by simp only [Block.regroupOption, Block.alternativeText, Block.text_regroup b]

theorem Block.text_regroup : ∀ b : Block, b.regroup.text = b.text
  | .mk _ ss => by simp only [Block.regroup, Block.text, Stmt.texts_regroupAll ss]

theorem Stmt.text_regroup : ∀ s : Stmt, s.regroup.text = s.text
  | .expr _ _ e => by simp only [Stmt.regroup, Stmt.text, Expr.text_regroup e]
  | .declare _ _ _ e => by simp only [Stmt.regroup, Stmt.text, Expr.text_regroup e]
  | .return _ none => rfl
  | .return _ (some e) => by
    simp only [Stmt.regroup, Expr.regroupOption, Stmt.text, Expr.text_regroup e]
  | .while _ c b => by
    simp only [Stmt.regroup, Stmt.text, Expr.optionText_regroupOption c, Block.text_regroup b]
  | .for _ i c u b => by
    simp only [Stmt.regroup, Stmt.text, Stmt.initText_regroupOption i,
      Expr.optionText_regroupOption c, Expr.optionText_regroupOption u, Block.text_regroup b]
  | .func _ _ _ b => by simp only [Stmt.regroup, Stmt.text, Block.text_regroup b]

theorem Stmt.texts_regroupAll : ∀ ss : List Stmt, Stmt.texts (Stmt.regroupAll ss) = Stmt.texts ss
  | [] => rfl
  | s :: ss => by
    simp only [Stmt.regroupAll, Stmt.texts, Stmt.text_regroup s, Stmt.texts_regroupAll ss]

theorem Stmt.initText_regroupOption :
    ∀ s : Option Stmt, Stmt.initText (Stmt.regroupOption s) = Stmt.initText s
  | none => rfl
  | some s => by simp only [Stmt.regroupOption, Stmt.initText, Stmt.text_regroup s]

end

@[simp] theorem Program.text_regroup (p : Program) : p.regroup.text = p.text := by
  simp only [Program.text, Program.regroup, Stmt.texts_regroupAll]

/-! ## Well-formed nodes -/

/-- Every node of the list is well-formed. -/
def AllWellFormed (ns : List Node) : Prop := ∀ n ∈ ns, n.WellFormed

@[simp] theorem allWellFormed_nil : AllWellFormed [] := nofun

@[simp] theorem allWellFormed_cons {n : Node} {ns : List Node} :
    AllWellFormed (n :: ns) ↔ n.WellFormed ∧ AllWellFormed ns :=
  List.forall_mem_cons

@[simp] theorem allWellFormed_append {ms ns : List Node} :
    AllWellFormed (ms ++ ns) ↔ AllWellFormed ms ∧ AllWellFormed ns :=
  List.forall_mem_append

theorem Expr.wellFormed_callOf (pos : Pos) {args : List Expr}
    (hargs : AllWellFormed (Expr.nodesOfAll args)) {e : Expr} (h : AllWellFormed e.nodes) :
    AllWellFormed (Expr.callOf pos args e).nodes := by
  fun_induction Expr.callOf pos args e with
  | case1 _ name value ih =>
    simp only [Expr.nodes, allWellFormed_cons] at h ⊢
    exact ⟨h.1, ih h.2⟩
  | case2 =>
    rw [Expr.nodes, allWellFormed_cons, allWellFormed_append]
    exact ⟨trivial, h, hargs⟩

/-- What is asked of an optional part is asked of the regrouped part. -/
theorem Expr.isSome_regroupOption (e : Option Expr) :
    (Expr.regroupOption e).isSome = e.isSome := by
  cases e <;> rfl

theorem Stmt.isClause_regroup (s : Stmt) : s.regroup.isClause = s.isClause := by
  cases s <;> rfl

theorem Stmt.forall_regroupOption {s : Option Stmt} (h : ∀ c ∈ s, c.isClause = true) :
    ∀ c ∈ Stmt.regroupOption s, c.isClause = true := by
  cases s with
  | none => nofun
  | some s =>
    rintro c ⟨⟩
    rw [Stmt.isClause_regroup]
    exact h s rfl

mutual

theorem Expr.wellFormed_regroup : ∀ e : Expr, AllWellFormed e.nodes → AllWellFormed e.regroup.nodes
  | .ident _ _, h | .int _ _ _, h | .float _ _ _, h | .bool _ _, h | .null _, h | .string _ _, h
  | .step _ _ _ _, h | .break _, h | .continue _, h => h
  | .array _ es, h => by
    simp only [Expr.regroup, Expr.nodes, allWellFormed_cons] at h ⊢
    exact ⟨h.1, Expr.wellFormed_regroupAll es h.2⟩
  | .hash _ ps, h => by
    simp only [Expr.regroup, Expr.nodes, allWellFormed_cons] at h ⊢
    exact ⟨h.1, Expr.wellFormed_regroupPairs ps h.2⟩
  | .func _ _ b, h => by
    simp only [Expr.regroup, Expr.nodes, allWellFormed_cons] at h ⊢
    exact ⟨h.1, Block.wellFormed_regroup b h.2⟩
  | .unary _ _ e, h => by
    simp only [Expr.regroup, Expr.nodes, allWellFormed_cons] at h ⊢
    exact ⟨h.1, Expr.wellFormed_regroup e h.2⟩
  | .binary _ _ l r, h => by
    simp only [Expr.regroup, Expr.nodes, allWellFormed_cons, allWellFormed_append] at h ⊢
    exact ⟨h.1, Expr.wellFormed_regroup l h.2.1, Expr.wellFormed_regroup r h.2.2⟩
  | .cond _ c b a, h => by
    simp only [Expr.regroup, Expr.nodes, allWellFormed_cons, allWellFormed_append] at h ⊢
    refine ⟨?_, Expr.wellFormed_regroupOption c h.2.1, Block.wellFormed_regroup b h.2.2.1,
      Block.wellFormed_regroupOption a h.2.2.2⟩
    exact (Expr.isSome_regroupOption c).trans h.1
  | .call p f es, h => by
    simp only [Expr.nodes, allWellFormed_cons, allWellFormed_append] at h
    exact Expr.wellFormed_callOf p (Expr.wellFormed_regroupAll es h.2.2)
      (Expr.wellFormed_regroup f h.2.1)
  | .index _ c k, h => by
    simp only [Expr.regroup, Expr.nodes, allWellFormed_cons, allWellFormed_append] at h ⊢
    exact ⟨h.1, Expr.wellFormed_regroup c h.2.1, Expr.wellFormed_regroup k h.2.2⟩
  | .member _ r _ _, h => by
    simp only [Expr.regroup, Expr.nodes, allWellFormed_cons] at h ⊢
    exact ⟨h.1, Expr.wellFormed_regroup r h.2⟩
  | .method _ r _ _ _ es, h => by
    simp only [Expr.regroup, Expr.nodes, allWellFormed_cons, allWellFormed_append] at h ⊢
    exact ⟨h.1, Expr.wellFormed_regroup r h.2.1, Expr.wellFormed_regroupAll es h.2.2⟩
  | .assign _ _ e, h => by
    simp only [Expr.regroup, Expr.nodes, allWellFormed_cons] at h ⊢
    exact ⟨h.1, Expr.wellFormed_regroup e h.2⟩

theorem Expr.wellFormed_regroupAll : ∀ es : List Expr, AllWellFormed (Expr.nodesOfAll es) →
    AllWellFormed (Expr.nodesOfAll (Expr.regroupAll es))
  | [], h => h
  | e :: es, h => by
    simp only [Expr.regroupAll, Expr.nodesOfAll, allWellFormed_append] at h ⊢
    exact ⟨Expr.wellFormed_regroup e h.1, Expr.wellFormed_regroupAll es h.2⟩

theorem Expr.wellFormed_regroupPairs : ∀ ps : List (Expr × Expr),
    AllWellFormed (Expr.nodesOfPairs ps) → AllWellFormed (Expr.nodesOfPairs (Expr.regroupPairs ps))
  | [], h => h
  | (k, v) :: ps, h => by
    simp only [Expr.regroupPairs, Expr.nodesOfPairs, allWellFormed_append] at h ⊢
    exact ⟨Expr.wellFormed_regroup k h.1, Expr.wellFormed_regroup v h.2.1,
      Expr.wellFormed_regroupPairs ps h.2.2⟩

theorem Expr.wellFormed_regroupOption : ∀ e : Option Expr, AllWellFormed (Expr.nodesOfOption e) →
    AllWellFormed (Expr.nodesOfOption (Expr.regroupOption e))
  | none, h => h
  | some e, h => Expr.wellFormed_regroup e h

theorem Block.wellFormed_regroupOption : ∀ b : Option Block,
    AllWellFormed (Block.nodesOfOption b) →
      AllWellFormed (Block.nodesOfOption (Block.regroupOption b))
  | none, h => h
  | some b, h => Block.wellFormed_regroup b h

theorem Block.wellFormed_regroup : ∀ b : Block, AllWellFormed b.nodes →
    AllWellFormed b.regroup.nodes
  | .mk _ ss, h => Stmt.wellFormed_regroupAll ss h

theorem Stmt.wellFormed_regroup : ∀ s : Stmt, AllWellFormed s.nodes →
    AllWellFormed s.regroup.nodes
  | .expr _ _ e, h => by
    simp only [Stmt.regroup, Stmt.nodes, allWellFormed_cons] at h ⊢
    exact ⟨h.1, Expr.wellFormed_regroup e h.2⟩
  | .declare _ _ _ e, h => by
    simp only [Stmt.regroup, Stmt.nodes, allWellFormed_cons] at h ⊢
    exact ⟨h.1, Expr.wellFormed_regroup e h.2⟩
  | .return _ e, h => by
    simp only [Stmt.regroup, Stmt.nodes, allWellFormed_cons] at h ⊢
    exact ⟨h.1, Expr.wellFormed_regroupOption e h.2⟩
  | .while _ c b, h => by
    simp only [Stmt.regroup, Stmt.nodes, allWellFormed_cons, allWellFormed_append] at h ⊢
    refine ⟨?_, Expr.wellFormed_regroupOption c h.2.1, Block.wellFormed_regroup b h.2.2⟩
    exact (Expr.isSome_regroupOption c).trans h.1
  | .for _ i c u b, h => by
    simp only [Stmt.regroup, Stmt.nodes, allWellFormed_cons, allWellFormed_append] at h ⊢
    exact ⟨Stmt.forall_regroupOption h.1, Stmt.wellFormed_regroupOption i h.2.1,
      Expr.wellFormed_regroupOption c h.2.2.1, Expr.wellFormed_regroupOption u h.2.2.2.1,
      Block.wellFormed_regroup b h.2.2.2.2⟩
  | .func _ _ _ b, h => by
    simp only [Stmt.regroup, Stmt.nodes, allWellFormed_cons] at h ⊢
    exact ⟨h.1, Block.wellFormed_regroup b h.2⟩

theorem Stmt.wellFormed_regroupAll : ∀ ss : List Stmt, AllWellFormed (Stmt.nodesOfAll ss) →
    AllWellFormed (Stmt.nodesOfAll (Stmt.regroupAll ss))
  | [], h => h
  | s :: ss, h => by
    simp only [Stmt.regroupAll, Stmt.nodesOfAll, allWellFormed_append] at h ⊢
    exact ⟨Stmt.wellFormed_regroup s h.1, Stmt.wellFormed_regroupAll ss h.2⟩

theorem Stmt.wellFormed_regroupOption : ∀ s : Option Stmt, AllWellFormed (Stmt.nodesOfOption s) →
    AllWellFormed (Stmt.nodesOfOption (Stmt.regroupOption s))
  | none, h => h
  | some s, h => Stmt.wellFormed_regroup s h

end

theorem Program.wellFormed_regroup {p : Program} (h : AllWellFormed p.nodes) :
    AllWellFormed p.regroup.nodes :=
  Stmt.wellFormed_regroupAll p.statements h

end Vorn
