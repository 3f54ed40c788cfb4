import Vorn.Eval.Basic

/-!
# Scripts

A task is one thing to evaluate. What has to be done for it is a script: it works on the state,
hands out the tasks inside the task one after the other, and goes on with what comes of each. A
script leaves open how tasks are done; `Script.perform` plays it with a way to do them.
-/

namespace Vorn

/-- Something to evaluate. -/
inductive Task where
  | expr (e : Expr) (scope : ScopeRef)
  | stmt (s : Stmt) (scope : ScopeRef)
  /-- A block, which gets a new scope inside `scope`. -/
  | block (b : Block) (scope : ScopeRef)
  | apply (pos : Pos) (f : Value) (args : List Value)

/-- How a run ends, and in which state. -/
abbrev Ending (α : Type) := EStateM.Result Stop State α

/-- What a script does next. -/
inductive Step (α : Type) where
  /-- The script ends. -/
  | done (ending : Ending α)
  /-- A task has to be done in a state; `resume` goes on with how that ends. -/
  | ask (t : Task) (s : State) (resume : Ending Value → Step α)

namespace Step

variable {α β : Type}

/-- Goes on with `f` behind the last step; a script that stopped stays where it is. -/
def bind (f : α → State → Step β) : Step α → Step β
  | done (.ok a s) => f a s
  | done (.error stop s) => done (.error stop s)
  | ask t s resume => ask t s fun ending => (resume ending).bind f

/-- Plays the steps, with `go` for the tasks. -/
def play (go : Task → Run Value) : Step α → Ending α
  | done ending => ending
  | ask t s resume => (resume (go t s)).play go

end Step

/-- A computation that hands out tasks. -/
def Script (α : Type) := State → Step α

namespace Script

variable {α : Type}

instance : Monad Script where
  pure a := fun s => .done (.ok a s)
  bind m f := fun s => (m s).bind f

/-- A run hands out nothing. -/
instance : MonadLift Run Script where
  monadLift m := fun s => .done (m s)

/-- Hands out a task and gives its value. -/
def ask (t : Task) : Script Value := fun s => .ask t s .done

/-- Plays a script, with `go` for the tasks. -/
def perform (go : Task → Run Value) (m : Script α) : Run α := fun s => (m s).play go

/-- Walks over an array by index and looks at its elements as they are when their turn comes; the
array may grow or shrink on the way. -/
def walk {β : Type} (r : ArrayRef) (visit : β → Nat → Value → Script (ForInStep β)) :
    (fuel : Nat) → (index : Nat) → β → Script β
  | 0, _, _ => (throw .outOfFuel : Run β)
  | fuel + 1, index, b => do
    match (← Run.elements r)[index]? with
    | none => return b
    | some v =>
      match ← visit b index v with
      | .done b => return b
      | .yield b => walk r visit fuel (index + 1) b

end Script

end Vorn
