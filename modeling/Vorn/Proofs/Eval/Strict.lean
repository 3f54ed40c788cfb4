import Vorn.Proofs.Eval.Built

/-!
# Scripts pass faults on

A script is strict if it ends as soon as a task that it handed out stops, in the state of that
task, and for the same reason if that is a fault. There is no rule that makes it so: each script
decides how it goes on when a task stops, and the body of a function does turn exhaustion into a
fault. But the pieces that scripts are built of are strict (`Script.Built.strict`), and so is the
script of every task (`Eval.strict_runTask`), with the loops, the callbacks and the comparisons of
a sort in it.
-/

namespace Vorn

/-- Whatever task stops, the steps end there, and a fault stays the fault it is. -/
def Step.Strict {α : Type} : Step α → Prop
  | done _ => True
  | ask _ _ resume =>
    (∀ stop s, ∃ stop', resume (.error stop s) = done (.error stop' s) ∧
      ∀ f, stop = .fault f → stop' = .fault f) ∧
    ∀ v s, (resume (.ok v s)).Strict

theorem Step.Strict.bind {α β : Type} {f : α → State → Step β} (hf : ∀ a s, (f a s).Strict) :
    ∀ {m : Step α}, m.Strict → (m.bind f).Strict
  | .done (.ok a s), _ => hf a s
  | .done (.error _ _), _ => trivial
  | .ask _ _ resume, ⟨hstop, hok⟩ => by
    refine ⟨fun stop s => ?_, fun v s => (hok v s).bind hf⟩
    obtain ⟨stop', hresume, hfault⟩ := hstop stop s
    exact ⟨stop', congrArg (Step.bind f) hresume, hfault⟩

namespace Script

variable {α β : Type}

/-- A script all of whose plays are strict. -/
def Strict (m : Script α) : Prop := ∀ s, (m s).Strict

namespace Strict

theorem pure (a : α) : Strict (Pure.pure a : Script α) := fun _ => trivial

theorem lift (m : Run α) : Strict (liftM m : Script α) := fun _ => trivial

theorem bind {m : Script α} {f : α → Script β} (hm : Strict m) (hf : ∀ a, Strict (f a)) :
    Strict (m >>= f) :=
  fun s => (hm s).bind fun a s => hf a s

/-- What follows a run may rely on how the run ended. -/
theorem lift_bind {m : Run α} {f : α → Script β}
    (h : ∀ a s s', m s = .ok a s' → Strict (f a)) : Strict (liftM m >>= f) := by
  intro s
  rw [run_bind, run_lift]
  cases hm : m s with
  | ok a s' => exact h a s s' hm s'
  | error stop s' => trivial

theorem ask (t : Task) : Strict (Script.ask t) :=
  fun _ => ⟨fun stop _ => ⟨stop, rfl, fun _ h => h⟩, fun _ _ => trivial⟩

/-- The one place where a stop changes: exhaustion becomes a fault. -/
theorem body (pos : Pos) (b : Block) (scope : ScopeRef) : Strict (Eval.runBody pos b scope) := by
  refine fun _ => ⟨fun stop s => ?_, fun _ _ => trivial⟩
  cases stop with
  | exhausted => exact ⟨_, rfl, fun _ h => nomatch h⟩
  | _ => exact ⟨_, rfl, fun _ h => h⟩

end Strict

/-- **What is built of the pieces is strict.** -/
theorem Built.strict {m : Script α} (h : Built m) : Strict m := by
  induction h with
  | pure a => exact .pure a
  | run => exact .lift _
  | ask t => exact .ask t
  | body pos b scope => exact .body pos b scope
  | bind _ _ ihm ihf => exact .bind ihm ihf
  | run_bind _ _ ihf => exact .lift_bind ihf

end Script

open Script

namespace Eval

variable {settings : Settings}

/-- **The script of a task passes faults on.** -/
theorem strict_runTask (t : Task) : Strict (runTask settings t) := (built_runTask t).strict

theorem strict_runTopLevel {last : Value} {ss : List Stmt} : Strict (runTopLevel last ss) :=
  (built_runTopLevel last ss).strict

end Eval

end Vorn
