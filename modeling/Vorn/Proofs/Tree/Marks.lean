import Vorn.Tree.Render

/-!
# Trees up to their marks

A tree carries two kinds of marks that say where it was read and not what it says: the positions of
its nodes, and the literal of the first token of an expression statement. A `Marking` rewrites both.

* `Program.shape` forgets both. Two programs of one shape have the same nodes with the same names,
  operators, spellings and values, and the same clauses.
* `Marking.moved` rewrites positions only.
* `Program.shape_mark`: no marking changes the shape.
* `Program.text_mark`: no marking changes the source form, so that programs of one shape are
  written alike (`Program.text_eq_of_shape`).
-/

namespace Vorn

/-- A rewriting of marks. The new literal of an expression statement may depend on the expression. -/
structure Marking where
  pos : Pos → Pos
  literal : Expr → String → String

namespace Marking

/-- Forgets every mark. -/
def blank : Marking := ⟨fun _ => .start, fun _ _ => ""⟩

/-- Rewrites positions only. -/
def moved (f : Pos → Pos) : Marking := ⟨f, fun _ literal => literal⟩

theorem blank_pos (p : Pos) : blank.pos p = .start := rfl

theorem blank_literal (e : Expr) (literal : String) : blank.literal e literal = "" := rfl

@[simp] theorem moved_pos (f : Pos → Pos) (p : Pos) : (moved f).pos p = f p := rfl

@[simp] theorem moved_literal (f : Pos → Pos) (e : Expr) (literal : String) :
    (moved f).literal e literal = literal := rfl

end Marking

mutual

def Expr.mark (m : Marking) : Expr → Expr
  | .ident p name => .ident (m.pos p) name
  | .int p written value => .int (m.pos p) written value
  | .float p written value => .float (m.pos p) written value
  | .bool p value => .bool (m.pos p) value
  | .null p => .null (m.pos p)
  | .string p value => .string (m.pos p) value
  | .array p elements => .array (m.pos p) (Expr.markAll m elements)
  | .hash p pairs => .hash (m.pos p) (Expr.markPairs m pairs)
  | .func p params body => .func (m.pos p) params (body.mark m)
  | .unary p op operand => .unary (m.pos p) op (operand.mark m)
  | .binary p op left right => .binary (m.pos p) op (left.mark m) (right.mark m)
  | .cond p condition consequence alternative =>
    .cond (m.pos p) (Expr.markOption m condition) (consequence.mark m)
      (Block.markOption m alternative)
  | .call p callee args => .call (m.pos p) (callee.mark m) (Expr.markAll m args)
  | .index p collection key => .index (m.pos p) (collection.mark m) (key.mark m)
  | .member p receiver namePos name => .member (m.pos p) (receiver.mark m) (m.pos namePos) name
  | .method p receiver namePos name callPos args =>
    .method (m.pos p) (receiver.mark m) (m.pos namePos) name (m.pos callPos) (Expr.markAll m args)
  | .assign p name value => .assign (m.pos p) name (value.mark m)
  | .step p op name before => .step (m.pos p) op name before
  | .break p => .break (m.pos p)
  | .continue p => .continue (m.pos p)

def Expr.markAll (m : Marking) : List Expr → List Expr
  | [] => []
  | e :: es => e.mark m :: Expr.markAll m es

def Expr.markPairs (m : Marking) : List (Expr × Expr) → List (Expr × Expr)
  | [] => []
  | (k, v) :: ps => (k.mark m, v.mark m) :: Expr.markPairs m ps

def Expr.markOption (m : Marking) : Option Expr → Option Expr
  | none => none
  | some e => some (e.mark m)

def Block.markOption (m : Marking) : Option Block → Option Block
  | none => none
  | some b => some (b.mark m)

def Block.mark (m : Marking) : Block → Block
  | .mk p statements => .mk (m.pos p) (Stmt.markAll m statements)

def Stmt.mark (m : Marking) : Stmt → Stmt
  | .expr p literal value => .expr (m.pos p) (m.literal value literal) (value.mark m)
  | .declare p isConst name value => .declare (m.pos p) isConst name (value.mark m)
  | .return p value => .return (m.pos p) (Expr.markOption m value)
  | .while p condition body => .while (m.pos p) (Expr.markOption m condition) (body.mark m)
  | .for p init condition update body =>
    .for (m.pos p) (Stmt.markOption m init) (Expr.markOption m condition)
      (Expr.markOption m update) (body.mark m)
  | .func p name params body => .func (m.pos p) name params (body.mark m)

def Stmt.markAll (m : Marking) : List Stmt → List Stmt
  | [] => []
  | s :: ss => s.mark m :: Stmt.markAll m ss

def Stmt.markOption (m : Marking) : Option Stmt → Option Stmt
  | none => none
  | some s => some (s.mark m)

end

def Program.mark (m : Marking) (p : Program) : Program := ⟨Stmt.markAll m p.statements⟩

/-- What a program says, without any mark. -/
def Program.shape (p : Program) : Program := p.mark .blank

/-! ## Marking twice -/

mutual

theorem Expr.mark_mark_blank (m : Marking) : ∀ e : Expr, (e.mark m).mark .blank = e.mark .blank
  | .ident _ _ | .int _ _ _ | .float _ _ _ | .bool _ _ | .null _ | .string _ _ | .step _ _ _ _
  | .break _ | .continue _ => rfl
  | .array _ es => by simp only [Expr.mark, Marking.blank_pos, Expr.markAll_mark_blank m es]
  | .hash _ ps => by simp only [Expr.mark, Marking.blank_pos, Expr.markPairs_mark_blank m ps]
  | .func _ _ body => by simp only [Expr.mark, Marking.blank_pos, Block.mark_mark_blank m body]
  | .unary _ _ e => by simp only [Expr.mark, Marking.blank_pos, Expr.mark_mark_blank m e]
  | .binary _ _ l r => by
    simp only [Expr.mark, Marking.blank_pos, Expr.mark_mark_blank m l, Expr.mark_mark_blank m r]
  | .cond _ c b a => by
    simp only [Expr.mark, Marking.blank_pos, Expr.markOption_mark_blank m c,
      Block.mark_mark_blank m b, Block.markOption_mark_blank m a]
  | .call _ f es => by
    simp only [Expr.mark, Marking.blank_pos, Expr.mark_mark_blank m f,
      Expr.markAll_mark_blank m es]
  | .index _ c k => by
    simp only [Expr.mark, Marking.blank_pos, Expr.mark_mark_blank m c, Expr.mark_mark_blank m k]
  | .member _ r _ _ => by simp only [Expr.mark, Marking.blank_pos, Expr.mark_mark_blank m r]
  | .method _ r _ _ _ es => by
    simp only [Expr.mark, Marking.blank_pos, Expr.mark_mark_blank m r,
      Expr.markAll_mark_blank m es]
  | .assign _ _ e => by simp only [Expr.mark, Marking.blank_pos, Expr.mark_mark_blank m e]

theorem Expr.markAll_mark_blank (m : Marking) :
    ∀ es : List Expr, Expr.markAll .blank (Expr.markAll m es) = Expr.markAll .blank es
  | [] => rfl
  | e :: es => by
    simp only [Expr.markAll, Expr.mark_mark_blank m e, Expr.markAll_mark_blank m es]

theorem Expr.markPairs_mark_blank (m : Marking) :
    ∀ ps : List (Expr × Expr),
      Expr.markPairs .blank (Expr.markPairs m ps) = Expr.markPairs .blank ps
  | [] => rfl
  | (k, v) :: ps => by
    simp only [Expr.markPairs, Expr.mark_mark_blank m k, Expr.mark_mark_blank m v,
      Expr.markPairs_mark_blank m ps]

theorem Expr.markOption_mark_blank (m : Marking) :
    ∀ e : Option Expr, Expr.markOption .blank (Expr.markOption m e) = Expr.markOption .blank e
  | none => rfl
  | some e => by simp only [Expr.markOption, Expr.mark_mark_blank m e]

theorem Block.markOption_mark_blank (m : Marking) :
    ∀ b : Option Block, Block.markOption .blank (Block.markOption m b) = Block.markOption .blank b
  | none => rfl
  | some b => by simp only [Block.markOption, Block.mark_mark_blank m b]

theorem Block.mark_mark_blank (m : Marking) : ∀ b : Block, (b.mark m).mark .blank = b.mark .blank
  | .mk _ ss => by simp only [Block.mark, Marking.blank_pos, Stmt.markAll_mark_blank m ss]

theorem Stmt.mark_mark_blank (m : Marking) : ∀ s : Stmt, (s.mark m).mark .blank = s.mark .blank
  | .expr _ _ e => by
    simp only [Stmt.mark, Marking.blank_pos, Marking.blank_literal, Expr.mark_mark_blank m e]
  | .declare _ _ _ e => by simp only [Stmt.mark, Marking.blank_pos, Expr.mark_mark_blank m e]
  | .return _ e => by simp only [Stmt.mark, Marking.blank_pos, Expr.markOption_mark_blank m e]
  | .while _ c b => by
    simp only [Stmt.mark, Marking.blank_pos, Expr.markOption_mark_blank m c,
      Block.mark_mark_blank m b]
  | .for _ i c u b => by
    simp only [Stmt.mark, Marking.blank_pos, Stmt.markOption_mark_blank m i,
      Expr.markOption_mark_blank m c, Expr.markOption_mark_blank m u, Block.mark_mark_blank m b]
  | .func _ _ _ b => by simp only [Stmt.mark, Marking.blank_pos, Block.mark_mark_blank m b]

theorem Stmt.markAll_mark_blank (m : Marking) :
    ∀ ss : List Stmt, Stmt.markAll .blank (Stmt.markAll m ss) = Stmt.markAll .blank ss
  | [] => rfl
  | s :: ss => by
    simp only [Stmt.markAll, Stmt.mark_mark_blank m s, Stmt.markAll_mark_blank m ss]

theorem Stmt.markOption_mark_blank (m : Marking) :
    ∀ s : Option Stmt, Stmt.markOption .blank (Stmt.markOption m s) = Stmt.markOption .blank s
  | none => rfl
  | some s => by simp only [Stmt.markOption, Stmt.mark_mark_blank m s]

end

/-- No marking changes the shape. -/
@[simp] theorem Program.shape_mark (m : Marking) (p : Program) : (p.mark m).shape = p.shape := by
  simp only [Program.shape, Program.mark, Stmt.markAll_mark_blank m]

/-! ## The source form -/

mutual

theorem Expr.text_mark (m : Marking) : ∀ e : Expr, (e.mark m).text = e.text
  | .ident _ _ | .int _ _ _ | .float _ _ _ | .bool _ _ | .null _ | .string _ _ | .step _ _ _ _
  | .break _ | .continue _ => rfl
  | .array _ es => by simp only [Expr.mark, Expr.text, Expr.texts_markAll m es]
  | .hash _ ps => by simp only [Expr.mark, Expr.text, Expr.pairTexts_markPairs m ps]
  | .func _ _ body => by simp only [Expr.mark, Expr.text, Block.text_mark m body]
  | .unary _ _ e => by simp only [Expr.mark, Expr.text, Expr.text_mark m e]
  | .binary _ _ l r => by simp only [Expr.mark, Expr.text, Expr.text_mark m l, Expr.text_mark m r]
  | .cond _ c b a => by
    simp only [Expr.mark, Expr.text, Expr.optionText_markOption m c, Block.text_mark m b,
      Block.alternativeText_markOption m a]
  | .call _ f es => by
    simp only [Expr.mark, Expr.text, Expr.text_mark m f, Expr.texts_markAll m es]
  | .index _ c k => by simp only [Expr.mark, Expr.text, Expr.text_mark m c, Expr.text_mark m k]
  | .member _ r _ _ => by simp only [Expr.mark, Expr.text, Expr.text_mark m r]
  | .method _ r _ _ _ es => by
    simp only [Expr.mark, Expr.text, Expr.text_mark m r, Expr.texts_markAll m es]
  | .assign _ _ e => by simp only [Expr.mark, Expr.text, Expr.text_mark m e]

theorem Expr.texts_markAll (m : Marking) :
    ∀ es : List Expr, Expr.texts (Expr.markAll m es) = Expr.texts es
  | [] => rfl
  | e :: es => by
    simp only [Expr.markAll, Expr.texts, Expr.text_mark m e, Expr.texts_markAll m es]

theorem Expr.pairTexts_markPairs (m : Marking) :
    ∀ ps : List (Expr × Expr), Expr.pairTexts (Expr.markPairs m ps) = Expr.pairTexts ps
  | [] => rfl
  | (k, v) :: ps => by
    simp only [Expr.markPairs, Expr.pairTexts, Expr.text_mark m k, Expr.text_mark m v,
      Expr.pairTexts_markPairs m ps]

theorem Expr.optionText_markOption (m : Marking) :
    ∀ e : Option Expr, Expr.optionText (Expr.markOption m e) = Expr.optionText e
  | none => rfl
  | some e => by simp only [Expr.markOption, Expr.optionText, Expr.text_mark m e]

theorem Block.alternativeText_markOption (m : Marking) : ∀ b : Option Block,
    Block.alternativeText (Block.markOption m b) = Block.alternativeText b
  | none => rfl
  | some b => by simp only [Block.markOption, Block.alternativeText, Block.text_mark m b]

theorem Block.text_mark (m : Marking) : ∀ b : Block, (b.mark m).text = b.text
  | .mk _ ss => by simp only [Block.mark, Block.text, Stmt.texts_markAll m ss]

theorem Stmt.text_mark (m : Marking) : ∀ s : Stmt, (s.mark m).text = s.text
  | .expr _ _ e => by simp only [Stmt.mark, Stmt.text, Expr.text_mark m e]
  | .declare _ _ _ e => by simp only [Stmt.mark, Stmt.text, Expr.text_mark m e]
  | .return _ none => rfl
  | .return _ (some e) => by
    simp only [Stmt.mark, Expr.markOption, Stmt.text, Expr.text_mark m e]
  | .while _ c b => by
    simp only [Stmt.mark, Stmt.text, Expr.optionText_markOption m c, Block.text_mark m b]
  | .for _ i c u b => by
    simp only [Stmt.mark, Stmt.text, Stmt.initText_markOption m i, Expr.optionText_markOption m c,
      Expr.optionText_markOption m u, Block.text_mark m b]
  | .func _ _ _ b => by simp only [Stmt.mark, Stmt.text, Block.text_mark m b]

theorem Stmt.texts_markAll (m : Marking) :
    ∀ ss : List Stmt, Stmt.texts (Stmt.markAll m ss) = Stmt.texts ss
  | [] => rfl
  | s :: ss => by
    simp only [Stmt.markAll, Stmt.texts, Stmt.text_mark m s, Stmt.texts_markAll m ss]

theorem Stmt.initText_markOption (m : Marking) :
    ∀ s : Option Stmt, Stmt.initText (Stmt.markOption m s) = Stmt.initText s
  | none => rfl
  | some s => by simp only [Stmt.markOption, Stmt.initText, Stmt.text_mark m s]

end

/-- No marking changes the source form. -/
@[simp] theorem Program.text_mark (m : Marking) (p : Program) : (p.mark m).text = p.text := by
  simp only [Program.text, Program.mark, Stmt.texts_markAll m]

/-- Programs of one shape are written alike. -/
theorem Program.text_eq_of_shape {p q : Program} (h : q.shape = p.shape) : q.text = p.text := by
  rw [← Program.text_mark .blank q, ← Program.text_mark .blank p]
  exact congrArg Program.text h

/-! ## Marks of lists and options -/

section

variable (m : Marking)

@[simp] theorem Expr.markAll_eq_map (es : List Expr) :
    Expr.markAll m es = es.map (Expr.mark m) := by
  induction es with
  | nil => rfl
  | cons e es ih => simp [Expr.markAll, ih]

@[simp] theorem Expr.markPairs_eq_map (ps : List (Expr × Expr)) :
    Expr.markPairs m ps = ps.map fun p => (p.1.mark m, p.2.mark m) := by
  induction ps with
  | nil => rfl
  | cons p ps ih => simp [Expr.markPairs, ih]

@[simp] theorem Expr.markOption_eq_map (e : Option Expr) :
    Expr.markOption m e = e.map (Expr.mark m) := by
  cases e <;> rfl

@[simp] theorem Block.markOption_eq_map (b : Option Block) :
    Block.markOption m b = b.map (Block.mark m) := by
  cases b <;> rfl

@[simp] theorem Stmt.markAll_eq_map (ss : List Stmt) :
    Stmt.markAll m ss = ss.map (Stmt.mark m) := by
  induction ss with
  | nil => rfl
  | cons s ss ih => simp [Stmt.markAll, ih]

@[simp] theorem Stmt.markOption_eq_map (s : Option Stmt) :
    Stmt.markOption m s = s.map (Stmt.mark m) := by
  cases s <;> rfl

end

end Vorn
