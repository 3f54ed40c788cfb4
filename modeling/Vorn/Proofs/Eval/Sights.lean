import Vorn.Proofs.Eval.Library
import Vorn.Proofs.Store.Cycles

/-!
# What the trace shows

Lines of the trace fall into classes by the words that they begin with (`TraceLine.classOf`): the
start and the end of a program, what is declared, assigned, defined and called, and the conditions
and iterations of conditionals and loops. Some lines show values. A sight is such a value, with the
level of its line and the store of that time; `Session.sights` lists those of a whole run:

* a call of a function shows its arguments (`Task.opens`);
* declarations, assignments and conditions show the value of the expression in them
  (`Task.shows?`);
* the end of a program shows its value.
-/

namespace Vorn

/-! ## Classes of lines -/

namespace TraceLine

/-- The words that lines begin with, and the classes of those lines. -/
def heads : List (String × Nat) :=
  [("run program ", 1), ("program finished: ", 1),
   ("declare ", 2), ("assign ", 2), ("define function ", 2), ("call ", 2),
   ("if condition ", 3), ("while condition ", 3), ("for condition ", 3),
   ("while iteration ", 3), ("for iteration ", 3)]

/-- The class of a line; one that begins with none of the words has no class below 4. -/
def classOf (line : TraceLine) : Nat :=
  ((heads.find? fun h => h.1.toList.isPrefixOf line.text.toList).map (·.2)).getD 4

/-- No head begins with another, so the head of a line says its class. -/
theorem classOf_head : ∀ h ∈ heads, ∀ level rest, classOf ⟨level, h.1 ++ rest⟩ = h.2 := by
  simp [classOf, heads, List.find?, String.toList_append, List.isPrefixOf]

theorem head_le_three : ∀ h ∈ heads, h.2 ≤ 3 := by decide

end TraceLine

/-! ## Values that are shown -/

/-- A value that a line of the trace shows. -/
structure Sight where
  /-- The level of the line. -/
  level : Nat
  /-- The store when the line is made. -/
  store : Store
  value : Value

/-- The value does not contain itself, and nothing inside it does. -/
def Sight.Clear (x : Sight) : Prop := x.store.Clear x.value

instance (x : Sight) : Decidable x.Clear := inferInstanceAs (Decidable (x.store.Clear x.value))

/-- What is shown up to a level is clear. -/
def Sight.AllClear (top : Nat) (xs : List Sight) : Prop := ∀ x ∈ xs, x.level ≤ top → x.Clear

instance (top : Nat) (xs : List Sight) : Decidable (Sight.AllClear top xs) :=
  inferInstanceAs (Decidable (∀ x ∈ xs, x.level ≤ top → x.Clear))

/-- What a task shows first of all: a call of a function shows its arguments, if their number is
right. -/
def Task.opens : Task → State → List Sight
  | .apply _ (.function c) args, s =>
    if args.length = c.params.length then args.map fun v => ⟨2, s.store, v⟩ else []
  | _, _ => []

/-- The level at which an expression shows the value of a task inside it: an assignment shows what
it assigns, and a conditional its condition. -/
def Expr.shows? : Expr → Task → Option Nat
  | .assign _ _ _, .expr _ _ => some 2
  | .cond _ _ _ _, .expr _ _ => some 3
  | _, _ => none

/-- The level at which a statement shows the value of a task inside it. Of the expressions that a
`for` evaluates, the condition is known by its place. -/
def Stmt.shows? : Stmt → Task → Option Nat
  | .expr _ _ e, t => e.shows? t
  | .declare _ _ _ _, .expr _ _ => some 2
  | .while _ _ _, .expr _ _ => some 3
  | .for _ _ condition _ _, .expr e _ =>
    if condition.any (·.pos = e.pos) then some 3 else none
  | _, _ => none

def Task.shows? : Task → Task → Option Nat
  | .expr e _, t => e.shows? t
  | .stmt st _, t => st.shows? t
  | _, _ => none

/-- What is shown of the end of a task, at a level if there is one. -/
def Ending.sights (level? : Option Nat) : Ending Value → List Sight
  | .ok v s => level?.toList.map fun level => ⟨level, s.store, v⟩
  | .error _ _ => []

/-- What is shown while steps are played: what the tasks show that they hand out, and what the steps
show of the values of these. -/
def Step.sights {α : Type} (shows? : Task → Option Nat) (go : Task → Run Value)
    (tell : Task → State → List Sight) : Step α → List Sight
  | done _ => []
  | ask t s resume =>
    tell t s ++ (Ending.sights (shows? t) (go t s) ++ (resume (go t s)).sights shows? go tell)

/-- What is shown while a task is done. -/
def Eval.sights (settings : Settings) : (depth : Nat) → Task → State → List Sight
  | 0, _, _ => []
  | depth + 1, t, s =>
    t.opens s ++
      (runTask settings t s).sights t.shows? (eval settings depth) (sights settings depth)

/-- What is shown while a program runs. -/
def Session.sights (settings : Settings) (p : Program) (s : State) : List Sight :=
  (Eval.runTopLevel .null p.statements (Eval.opened settings p s)).sights (fun _ => none)
      (Eval.eval settings settings.depth) (Eval.sights settings settings.depth) ++
    Ending.sights (some 1) (Eval.ended settings p s)

end Vorn
