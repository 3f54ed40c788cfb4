import Vorn.Proofs.Tree.Marks

/-!
# The places that stand in a tree

`places` lists every position of a tree: those of its expressions, statements and blocks, and the
two further ones of a method call. A marking that moves positions leaves a tree as it is if and only
if it moves none of them (`Program.mark_moved_eq_self`).
-/

namespace Vorn

mutual

def Expr.places : Expr → List Pos
  | .ident p _ | .int p _ _ | .float p _ _ | .bool p _ | .null p | .string p _ | .step p _ _ _
  | .break p | .continue p => [p]
  | .array p elements => p :: Expr.placesOfAll elements
  | .hash p pairs => p :: Expr.placesOfPairs pairs
  | .func p _ body => p :: body.places
  | .unary p _ operand => p :: operand.places
  | .binary p _ left right => p :: (left.places ++ right.places)
  | .cond p condition consequence alternative =>
    p :: (Expr.placesOfOption condition ++ (consequence.places ++
      Block.placesOfOption alternative))
  | .call p callee args => p :: (callee.places ++ Expr.placesOfAll args)
  | .index p collection key => p :: (collection.places ++ key.places)
  | .member p receiver namePos _ => p :: namePos :: receiver.places
  | .method p receiver namePos _ callPos args =>
    p :: namePos :: callPos :: (receiver.places ++ Expr.placesOfAll args)
  | .assign p _ value => p :: value.places

def Expr.placesOfAll : List Expr → List Pos
  | [] => []
  | e :: es => e.places ++ Expr.placesOfAll es

def Expr.placesOfPairs : List (Expr × Expr) → List Pos
  | [] => []
  | (k, v) :: ps => k.places ++ (v.places ++ Expr.placesOfPairs ps)

def Expr.placesOfOption : Option Expr → List Pos
  | none => []
  | some e => e.places

def Block.placesOfOption : Option Block → List Pos
  | none => []
  | some b => b.places

def Block.places : Block → List Pos
  | .mk p statements => p :: Stmt.placesOfAll statements

def Stmt.places : Stmt → List Pos
  | .expr p _ value => p :: value.places
  | .declare p _ _ value => p :: value.places
  | .return p value => p :: Expr.placesOfOption value
  | .while p condition body => p :: (Expr.placesOfOption condition ++ body.places)
  | .for p init condition update body =>
    p :: (Stmt.placesOfOption init ++ (Expr.placesOfOption condition ++
      (Expr.placesOfOption update ++ body.places)))
  | .func p _ _ body => p :: body.places

def Stmt.placesOfAll : List Stmt → List Pos
  | [] => []
  | s :: ss => s.places ++ Stmt.placesOfAll ss

def Stmt.placesOfOption : Option Stmt → List Pos
  | none => []
  | some s => s.places

end

def Program.places (p : Program) : List Pos := Stmt.placesOfAll p.statements

/-! ## Markings that move nothing -/

/-- All places stay where they are. -/
def Fixes (f : Pos → Pos) (ps : List Pos) : Prop := ∀ p ∈ ps, f p = p

@[simp] theorem fixes_nil (f : Pos → Pos) : Fixes f [] := by simp [Fixes]

@[simp] theorem fixes_cons {f : Pos → Pos} {p : Pos} {ps : List Pos} :
    Fixes f (p :: ps) ↔ f p = p ∧ Fixes f ps := List.forall_mem_cons

@[simp] theorem fixes_append {f : Pos → Pos} {ps qs : List Pos} :
    Fixes f (ps ++ qs) ↔ Fixes f ps ∧ Fixes f qs := List.forall_mem_append

mutual

theorem Expr.mark_moved_eq_self (f : Pos → Pos) : ∀ e : Expr,
    e.mark (.moved f) = e ↔ Fixes f e.places
  | .ident _ _ | .int _ _ _ | .float _ _ _ | .bool _ _ | .null _ | .string _ _ | .step _ _ _ _
  | .break _ | .continue _ => by simp [Expr.mark, Expr.places]
  | .array _ es => by
    simp only [Expr.mark, Expr.places, Expr.array.injEq, Marking.moved_pos, fixes_cons,
      Expr.markAll_moved_eq_self f es]
  | .hash _ ps => by
    simp only [Expr.mark, Expr.places, Expr.hash.injEq, Marking.moved_pos, fixes_cons,
      Expr.markPairs_moved_eq_self f ps]
  | .func _ _ b => by
    simp only [Expr.mark, Expr.places, Expr.func.injEq, Marking.moved_pos, fixes_cons, true_and,
      Block.mark_moved_eq_self f b]
  | .unary _ _ e => by
    simp only [Expr.mark, Expr.places, Expr.unary.injEq, Marking.moved_pos, fixes_cons, true_and,
      Expr.mark_moved_eq_self f e]
  | .binary _ _ l r => by
    simp only [Expr.mark, Expr.places, Expr.binary.injEq, Marking.moved_pos, fixes_cons,
      fixes_append, true_and, Expr.mark_moved_eq_self f l, Expr.mark_moved_eq_self f r]
  | .cond _ c b a => by
    simp only [Expr.mark, Expr.places, Expr.cond.injEq, Marking.moved_pos, fixes_cons,
      fixes_append, Expr.markOption_moved_eq_self f c, Block.mark_moved_eq_self f b,
      Block.markOption_moved_eq_self f a]
  | .call _ g es => by
    simp only [Expr.mark, Expr.places, Expr.call.injEq, Marking.moved_pos, fixes_cons,
      fixes_append, Expr.mark_moved_eq_self f g, Expr.markAll_moved_eq_self f es]
  | .index _ c k => by
    simp only [Expr.mark, Expr.places, Expr.index.injEq, Marking.moved_pos, fixes_cons,
      fixes_append, Expr.mark_moved_eq_self f c, Expr.mark_moved_eq_self f k]
  | .member _ r _ _ => by
    simp only [Expr.mark, Expr.places, Expr.member.injEq, Marking.moved_pos, fixes_cons, and_true,
      Expr.mark_moved_eq_self f r, and_comm (a := Fixes f r.places)]
  | .method _ r _ _ _ es => by
    simp only [Expr.mark, Expr.places, Expr.method.injEq, Marking.moved_pos, fixes_cons,
      fixes_append, true_and, Expr.mark_moved_eq_self f r, Expr.markAll_moved_eq_self f es,
      and_left_comm]
  | .assign _ _ e => by
    simp only [Expr.mark, Expr.places, Expr.assign.injEq, Marking.moved_pos, fixes_cons, true_and,
      Expr.mark_moved_eq_self f e]

theorem Expr.markAll_moved_eq_self (f : Pos → Pos) : ∀ es : List Expr,
    Expr.markAll (.moved f) es = es ↔ Fixes f (Expr.placesOfAll es)
  | [] => by simp [Expr.placesOfAll]
  | e :: es => by
    rw [Expr.markAll, Expr.placesOfAll, List.cons.injEq, fixes_append,
      Expr.mark_moved_eq_self f e, Expr.markAll_moved_eq_self f es]

theorem Expr.markPairs_moved_eq_self (f : Pos → Pos) : ∀ ps : List (Expr × Expr),
    Expr.markPairs (.moved f) ps = ps ↔ Fixes f (Expr.placesOfPairs ps)
  | [] => by simp [Expr.placesOfPairs]
  | (k, v) :: ps => by
    rw [Expr.markPairs, Expr.placesOfPairs, List.cons.injEq, Prod.mk.injEq, fixes_append,
      fixes_append, Expr.mark_moved_eq_self f k, Expr.mark_moved_eq_self f v,
      Expr.markPairs_moved_eq_self f ps, and_assoc]

theorem Expr.markOption_moved_eq_self (f : Pos → Pos) : ∀ e : Option Expr,
    Expr.markOption (.moved f) e = e ↔ Fixes f (Expr.placesOfOption e)
  | none => by simp [Expr.placesOfOption]
  | some e => by
    rw [Expr.markOption, Expr.placesOfOption, Option.some.injEq, Expr.mark_moved_eq_self f e]

theorem Block.markOption_moved_eq_self (f : Pos → Pos) : ∀ b : Option Block,
    Block.markOption (.moved f) b = b ↔ Fixes f (Block.placesOfOption b)
  | none => by simp [Block.placesOfOption]
  | some b => by
    rw [Block.markOption, Block.placesOfOption, Option.some.injEq, Block.mark_moved_eq_self f b]

theorem Block.mark_moved_eq_self (f : Pos → Pos) : ∀ b : Block,
    b.mark (.moved f) = b ↔ Fixes f b.places
  | .mk _ ss => by
    rw [Block.mark, Block.places, Block.mk.injEq, fixes_cons, Marking.moved_pos,
      Stmt.markAll_moved_eq_self f ss]

theorem Stmt.mark_moved_eq_self (f : Pos → Pos) : ∀ s : Stmt,
    s.mark (.moved f) = s ↔ Fixes f s.places
  | .expr _ _ e => by
    simp only [Stmt.mark, Stmt.places, Stmt.expr.injEq, Marking.moved_pos, Marking.moved_literal,
      fixes_cons, true_and, Expr.mark_moved_eq_self f e]
  | .declare _ _ _ e => by
    simp only [Stmt.mark, Stmt.places, Stmt.declare.injEq, Marking.moved_pos, fixes_cons, true_and,
      Expr.mark_moved_eq_self f e]
  | .return _ e => by
    simp only [Stmt.mark, Stmt.places, Stmt.return.injEq, Marking.moved_pos, fixes_cons,
      Expr.markOption_moved_eq_self f e]
  | .while _ c b => by
    simp only [Stmt.mark, Stmt.places, Stmt.while.injEq, Marking.moved_pos, fixes_cons,
      fixes_append, Expr.markOption_moved_eq_self f c, Block.mark_moved_eq_self f b]
  | .for _ i c u b => by
    simp only [Stmt.mark, Stmt.places, Stmt.for.injEq, Marking.moved_pos, fixes_cons,
      fixes_append, Stmt.markOption_moved_eq_self f i, Expr.markOption_moved_eq_self f c,
      Expr.markOption_moved_eq_self f u, Block.mark_moved_eq_self f b]
  | .func _ _ _ b => by
    simp only [Stmt.mark, Stmt.places, Stmt.func.injEq, Marking.moved_pos, fixes_cons, true_and,
      Block.mark_moved_eq_self f b]

theorem Stmt.markAll_moved_eq_self (f : Pos → Pos) : ∀ ss : List Stmt,
    Stmt.markAll (.moved f) ss = ss ↔ Fixes f (Stmt.placesOfAll ss)
  | [] => by simp [Stmt.placesOfAll]
  | s :: ss => by
    rw [Stmt.markAll, Stmt.placesOfAll, List.cons.injEq, fixes_append,
      Stmt.mark_moved_eq_self f s, Stmt.markAll_moved_eq_self f ss]

theorem Stmt.markOption_moved_eq_self (f : Pos → Pos) : ∀ s : Option Stmt,
    Stmt.markOption (.moved f) s = s ↔ Fixes f (Stmt.placesOfOption s)
  | none => by simp [Stmt.placesOfOption]
  | some s => by
    rw [Stmt.markOption, Stmt.placesOfOption, Option.some.injEq, Stmt.mark_moved_eq_self f s]

end

/-- A change of positions leaves a program as it is exactly if it moves no place of it. -/
theorem Program.mark_moved_eq_self (f : Pos → Pos) (p : Program) :
    p.mark (.moved f) = p ↔ ∀ q ∈ p.places, f q = q := by
  obtain ⟨ss⟩ := p
  rw [Program.mark, Program.mk.injEq]
  exact Stmt.markAll_moved_eq_self f ss

@[simp] theorem Program.mark_moved_id (p : Program) : p.mark (.moved id) = p :=
  (p.mark_moved_eq_self id).mpr fun _ _ => rfl

end Vorn
