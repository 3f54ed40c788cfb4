import Vorn.Proofs.Eval.Built

/-!
# Nothing looks at the trace

Runs add lines to the trace and do nothing else with it. So a run that starts behind more lines does
the same, and leaves its own lines behind those (`Run.Blind`); a script hands out the same tasks
(`Script.Blind`).

* `Run.Built.blind` and `Script.Built.blind`: the pieces that tasks are built of are blind;
* `Step.Blind.play`: what holds of the tasks holds of the steps as a whole;
* `Eval.blind_eval`: every task, by induction on how deeply tasks may nest;
* `Eval.blind_runTopLevel`: the statements of a program.
-/

namespace Vorn

/-- The state with more lines in front of its trace. -/
def State.behind (lines : Array TraceLine) (s : State) : State := s.retraced (lines ++ s.trace)

/-- The ending with more lines in front of its trace. -/
def Ending.behind {α : Type} (lines : Array TraceLine) : Ending α → Ending α
  | .ok a s => .ok a (s.behind lines)
  | .error stop s => .error stop (s.behind lines)

/-! ## Runs -/

namespace Run

variable {α β : Type} {settings : Settings}

/-- Behind more lines the run does the same. -/
def Blind (m : Run α) : Prop := ∀ lines s, m (s.behind lines) = Ending.behind lines (m s)

theorem Basic.blind {m : Run α} (h : Basic .changing m) : Blind m := by
  intro lines s
  have htrace := h.trace_eq s
  rw [State.behind, h.run_retraced]
  cases hrun : m s with
  | ok a s' | error stop s' =>
    rw [hrun] at htrace
    rw [← show s'.trace = s.trace from htrace]
    rfl

namespace Blind

theorem pure (a : α) : Blind (Pure.pure a : Run α) := fun _ _ => rfl

theorem throw (stop : Stop) : Blind (MonadExcept.throw stop : Run α) := fun _ _ => rfl

theorem bind {m : Run α} {f : α → Run β} (hm : Blind m) (hf : ∀ a, Blind (f a)) :
    Blind (m >>= f) := by
  intro lines s
  rw [run_bind, run_bind, hm lines s]
  cases m s with
  | ok a s' => exact hf a lines s'
  | error stop s' => rfl

theorem enclose (r : ScopeRef) : Blind (Run.enclose r) := fun _ _ => rfl

theorem bindName (r : ScopeRef) (name : String) (v : Value) : Blind (Run.bind r name v) :=
  fun _ _ => rfl

theorem trace {line : Run String} (level : Nat) (h : Basic .changing line) :
    Blind (Run.trace settings level line) := by
  unfold Run.trace
  split
  · refine bind h.blind fun text lines s => ?_
    exact congrArg (fun tr => EStateM.Result.ok () (s.retraced tr)) Array.push_append
  · exact pure ()

end Blind

theorem Built.blind {m : Run α} (h : Built m) : Blind m := by
  induction h with
  | basic h => exact h.blind
  | throw stop => exact .throw stop
  | enclose r => exact .enclose r
  | bindName r name v => exact .bindName r name v
  | trace settings level h => exact .trace level h.changing
  | bind _ _ ihm ihf => exact .bind ihm ihf

end Run

open Run

/-! ## Steps and scripts -/

/-- Behind more lines the steps hand out the same tasks. -/
inductive Step.Blind (lines : Array TraceLine) {α : Type} : Step α → Step α → Prop
  | done (ending : Ending α) : Blind lines (.done (ending.behind lines)) (.done ending)
  | ask (t : Task) (s : State) {resume resume' : Ending Value → Step α}
      (h : ∀ ending, Blind lines (resume (ending.behind lines)) (resume' ending)) :
      Blind lines (.ask t (s.behind lines) resume) (.ask t s resume')

namespace Step.Blind

variable {α β : Type} {lines : Array TraceLine} {m m' : Step α}

theorem bind {f f' : α → State → Step β} (hm : Blind lines m m')
    (hf : ∀ a s, Blind lines (f a (s.behind lines)) (f' a s)) :
    Blind lines (m.bind f) (m'.bind f') := by
  induction hm with
  | done ending =>
    cases ending with
    | ok a s => exact hf a s
    | error stop s => exact .done (.error stop s)
  | ask t s _ ih => exact .ask t s ih

/-- Played with tasks that do not look at the trace, steps do not look at it. -/
theorem play {go : Task → Run Value} (hgo : ∀ t, Run.Blind (go t)) (hm : Blind lines m m') :
    m.play go = Ending.behind lines (m'.play go) := by
  induction hm with
  | done ending => rfl
  | ask t s _ ih =>
    rw [Step.play, hgo t lines s]
    exact ih (go t s)

end Step.Blind

namespace Script

variable {α β : Type}

/-- Behind more lines the script does the same. -/
def Blind (m : Script α) : Prop := ∀ lines s, Step.Blind lines (m (s.behind lines)) (m s)

namespace Blind

theorem pure (a : α) : Blind (Pure.pure a : Script α) := fun _ s => .done (.ok a s)

theorem lift {m : Run α} (h : Run.Blind m) : Blind (liftM m : Script α) := by
  intro lines s
  rw [run_lift, run_lift, h lines s]
  exact .done (m s)

theorem bind {m : Script α} {f : α → Script β} (hm : Blind m) (hf : ∀ a, Blind (f a)) :
    Blind (m >>= f) :=
  fun lines s => (hm lines s).bind fun a s' => hf a lines s'

theorem ask (t : Task) : Blind (Script.ask t) := fun _ s => .ask t s fun ending => .done ending

theorem body (pos : Pos) (b : Block) (scope : ScopeRef) : Blind (Eval.runBody pos b scope) := by
  refine fun lines s => .ask _ s fun ending => ?_
  match ending with
  | .ok v s' => exact .done (.ok v s')
  | .error .exhausted s' => exact .done (.error (.fault ⟨pos, .stackOverflow⟩) s')
  | .error (.fault f) s' => exact .done (.error (.fault f) s')
  | .error .outOfFuel s' => exact .done (.error .outOfFuel s')
  | .error .incomplete s' => exact .done (.error .incomplete s')

/-- What follows a run may rely on how the run ended. -/
theorem lift_bind {m : Run α} {f : α → Script β} (hm : Run.Blind m)
    (hf : ∀ a s s', m s = .ok a s' → Blind (f a)) : Blind (liftM m >>= f) := by
  intro lines s
  rw [run_bind, run_bind, run_lift, run_lift, hm lines s]
  cases hend : m s with
  | error stop s' => exact .done (.error stop s')
  | ok a s' => exact hf a s s' hend lines s'

end Blind

theorem Built.blind {m : Script α} (h : Built m) : Blind m := by
  induction h with
  | pure a => exact .pure a
  | run h => exact .lift h.blind
  | ask t => exact .ask t
  | body pos b scope => exact .body pos b scope
  | bind _ _ ihm ihf => exact .bind ihm ihf
  | run_bind hm _ ihf => exact .lift_bind hm.blind ihf

end Script

namespace Eval

variable {settings : Settings}

/-- **No task looks at the trace.** -/
theorem blind_eval : ∀ depth t, Run.Blind (eval settings depth t)
  | 0, _ => .throw .exhausted
  | depth + 1, t => fun lines s => ((built_runTask t).blind lines s).play (blind_eval depth)

theorem blind_runTopLevel (ss : List Stmt) (last : Value) : Script.Blind (runTopLevel last ss) :=
  (built_runTopLevel last ss).blind

end Eval

end Vorn
