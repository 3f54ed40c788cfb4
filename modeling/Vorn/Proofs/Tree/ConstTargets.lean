import Vorn.Proofs.Tree.Nodes

/-!
# Assignments that may reach a constant

The pass below looks at every assignment and step of a tree, wherever it stands, and resolves its
variable as evaluation does. It knows for each scope around a place which names are bound there by
then (`Level`). A function may be called at any later time, so in its body the names that the scopes
around it still get count as well, as far as they are constants.

`Program.SparesConsts` says that no assignment in a program may reach a constant.
-/

namespace Vorn

/-- The constant that a statement declares. -/
def Stmt.constName? : Stmt → Option String
  | .declare _ true name _ => some name
  | _ => none

/-- The constants of a statement list. -/
def Stmt.constNames (ss : List Stmt) : List String := ss.filterMap Stmt.constName?

/-- What is known about a scope at a place in a program. -/
structure Level where
  /-- The names that are bound. -/
  bound : List String := []
  /-- The names of the constants of the scope, which may not be bound yet. -/
  consts : List String := []
  /-- More names may be bound by the time the place is reached. -/
  moving : Bool := false

/-- Levels from the innermost outward. -/
abbrev Levels := List Level

namespace Level

/-- Behind a statement. -/
def add (l : Level) (s : Stmt) : Level := { l with bound := s.binds?.toList ++ l.bound }

/-- As the body of a function sees it. -/
def later (l : Level) : Level := { l with moving := true }

end Level

/-- The variable may be a constant. -/
def Levels.mayReachConst (name : String) : Levels → Bool
  | [] => false
  | l :: ls =>
    (l.consts.contains name && (l.bound.contains name || l.moving)) ||
      (!l.bound.contains name && Levels.mayReachConst name ls)

mutual

/-- No assignment in the expression may reach a constant. -/
def Expr.sparesConsts (ls : Levels) : Expr → Bool
  | .ident _ _ | .int _ _ _ | .float _ _ _ | .bool _ _ | .null _ | .string _ _ | .break _
  | .continue _ => true
  | .array _ elements => Expr.sparesConstsAll ls elements
  | .hash _ pairs => Expr.sparesConstsPairs ls pairs
  | .func _ params body => body.sparesConsts ({ bound := params } :: ls.map Level.later)
  | .unary _ _ operand => operand.sparesConsts ls
  | .binary _ _ left right => left.sparesConsts ls && right.sparesConsts ls
  | .cond _ condition consequence alternative =>
    Expr.sparesConstsOption ls condition && consequence.sparesConsts ls &&
      Block.sparesConstsOption ls alternative
  | .call _ callee args => callee.sparesConsts ls && Expr.sparesConstsAll ls args
  | .index _ collection key => collection.sparesConsts ls && key.sparesConsts ls
  | .member _ receiver _ _ => receiver.sparesConsts ls
  | .method _ receiver _ _ _ args => receiver.sparesConsts ls && Expr.sparesConstsAll ls args
  | .assign _ name value => !ls.mayReachConst name && value.sparesConsts ls
  | .step _ _ name _ => !ls.mayReachConst name

def Expr.sparesConstsAll (ls : Levels) : List Expr → Bool
  | [] => true
  | e :: es => e.sparesConsts ls && Expr.sparesConstsAll ls es

def Expr.sparesConstsPairs (ls : Levels) : List (Expr × Expr) → Bool
  | [] => true
  | (k, v) :: ps => k.sparesConsts ls && v.sparesConsts ls && Expr.sparesConstsPairs ls ps

def Expr.sparesConstsOption (ls : Levels) : Option Expr → Bool
  | none => true
  | some e => e.sparesConsts ls

def Block.sparesConstsOption (ls : Levels) : Option Block → Bool
  | none => true
  | some b => b.sparesConsts ls

/-- A block inside the levels. -/
def Block.sparesConsts (ls : Levels) : Block → Bool
  | .mk _ statements =>
    Stmt.sparesConstsAll { consts := Stmt.constNames statements } ls statements

def Stmt.sparesConsts (ls : Levels) : Stmt → Bool
  | .expr _ _ value => value.sparesConsts ls
  | .declare _ _ _ value => value.sparesConsts ls
  | .return _ value => Expr.sparesConstsOption ls value
  | .while _ condition body => Expr.sparesConstsOption ls condition && body.sparesConsts ls
  | .for _ init condition update body =>
    let own : Level := { consts := Stmt.constNames init.toList }
    let inner : Levels := (init.map own.add).getD own :: ls
    Stmt.sparesConstsOption (own :: ls) init && Expr.sparesConstsOption inner condition &&
      Expr.sparesConstsOption inner update && body.sparesConsts inner
  | .func _ _ params body => body.sparesConsts ({ bound := params } :: ls.map Level.later)

def Stmt.sparesConstsOption (ls : Levels) : Option Stmt → Bool
  | none => true
  | some s => s.sparesConsts ls

/-- The statements of a list with the level `own` so far. -/
def Stmt.sparesConstsAll (own : Level) (ls : Levels) : List Stmt → Bool
  | [] => true
  | s :: ss => s.sparesConsts (own :: ls) && Stmt.sparesConstsAll (own.add s) ls ss

end

theorem Expr.sparesConstsAll_eq (ls : Levels) : ∀ es : List Expr,
    Expr.sparesConstsAll ls es = es.all (Expr.sparesConsts ls)
  | [] => rfl
  | e :: es => by rw [Expr.sparesConstsAll, sparesConstsAll_eq ls es, List.all_cons]

theorem Expr.sparesConstsPairs_eq (ls : Levels) : ∀ ps : List (Expr × Expr),
    Expr.sparesConstsPairs ls ps =
      (ps.flatMap fun p => [p.1, p.2]).all (Expr.sparesConsts ls)
  | [] => rfl
  | (k, v) :: ps => by simp [Expr.sparesConstsPairs, sparesConstsPairs_eq ls ps, Bool.and_assoc]

theorem Expr.sparesConstsOption_eq (ls : Levels) (e : Option Expr) :
    Expr.sparesConstsOption ls e = e.toList.all (Expr.sparesConsts ls) := by
  cases e <;> simp [Expr.sparesConstsOption]

theorem Block.sparesConstsOption_eq (ls : Levels) (b : Option Block) :
    Block.sparesConstsOption ls b = b.toList.all (Block.sparesConsts ls) := by
  cases b <;> simp [Block.sparesConstsOption]

/-- The pass goes through all parts of an expression. -/
theorem Expr.sparesConsts_parts {ls : Levels} {e : Expr} (h : e.sparesConsts ls = true) :
    (∀ e' ∈ e.parts, e'.sparesConsts ls = true) ∧
      ∀ b ∈ e.branches, b.sparesConsts ls = true := by
  rw [← List.all_eq_true, ← List.all_eq_true]
  cases e with
  | hash pos ps =>
    rw [Expr.sparesConsts, Expr.sparesConstsPairs_eq] at h
    exact ⟨h, rfl⟩
  | _ =>
    simp_all [Expr.parts, Expr.branches, Expr.sparesConsts, Expr.sparesConstsAll_eq,
      Expr.sparesConstsOption_eq, Block.sparesConstsOption_eq]

theorem Stmt.sparesConsts_parts {ls : Levels} {s : Stmt} (h : s.sparesConsts ls = true) :
    ∀ e ∈ s.parts, e.sparesConsts ls = true := by
  cases s <;> simp_all [Stmt.parts, Stmt.sparesConsts, Expr.sparesConstsOption_eq]

/-- No assignment in the program may reach a constant. -/
def Program.SparesConsts (p : Program) : Prop :=
  Stmt.sparesConstsAll { consts := Stmt.constNames p.statements } [] p.statements = true

instance (p : Program) : Decidable p.SparesConsts :=
  inferInstanceAs (Decidable (_ = true))

end Vorn
