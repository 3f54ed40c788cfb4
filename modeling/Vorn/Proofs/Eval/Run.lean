import Vorn.Session

/-!
# What runs and scripts do to the state

One equation for each way to put copies, runs and scripts together. Later proofs use these and do
not look into the monads.
-/

namespace Vorn

namespace Store.Copy

variable {α β : Type}

theorem run_bind (m : Copy α) (f : α → Copy β) (s : Store) :
    (m >>= f).run s =
      match m.run s with
      | (some a, s') => (f a).run s'
      | (none, s') => (none, s') := by
  rw [OptionT.run_bind]
  change StateT.run ((m.run s : Option α × Store).1.elim (pure none) fun a => (f a).run)
    (m.run s : Option α × Store).2 = _
  cases (m.run s : Option α × Store) with
  | mk o s' => cases o <;> rfl

end Store.Copy

namespace Run

variable {α β : Type} (s : State)

theorem run_bind (m : Run α) (f : α → Run β) :
    (m >>= f) s =
      match m s with
      | .ok a s' => f a s'
      | .error stop s' => .error stop s' := by
  change EStateM.bind m f s = _
  unfold EStateM.bind
  cases m s <;> rfl

theorem run_pure (a : α) : (pure a : Run α) s = .ok a s := rfl

/-- Leaves the state with one more line in its trace, if lines of that level are kept. -/
def traced (settings : Settings) (level : Nat) (text : String) (s : State) : State :=
  if level ≤ settings.traceLevel then { s with trace := s.trace.push ⟨level, text⟩ } else s

theorem traced_store (settings : Settings) (level : Nat) (text : String) :
    (traced settings level text s).store = s.store := by
  unfold traced
  split <;> rfl

theorem run_trace_pure (settings : Settings) (level : Nat) (text : String) :
    trace settings level (pure text) s = .ok () (traced settings level text s) := by
  unfold trace traced
  split <;> rfl

theorem run_inspect {s : State} {v : Value} {text : String}
    (h : s.store.inspect? v = some text) : inspect v s = .ok text s := by
  rw [inspect, run_bind, show store s = .ok s.store s from rfl]
  dsimp only
  rw [h]
  rfl

end Run

namespace Script

variable {α β : Type} (s : State)

theorem run_bind (m : Script α) (f : α → Script β) : (m >>= f) s = (m s).bind f := rfl

theorem run_pure (a : α) : (pure a : Script α) s = .done (.ok a s) := rfl

theorem run_lift (m : Run α) : (liftM m : Script α) s = .done (m s) := rfl

/-- A lifted run, one part after the other. -/
theorem run_lift_bind (m : Run α) (f : α → Run β) :
    (liftM (m >>= f) : Script β) s = ((liftM m : Script α) >>= fun a => liftM (f a)) s := by
  rw [run_lift, run_bind, run_lift, Run.run_bind]
  cases m s <;> rfl

/-- What follows a lifted run follows the last part of it. -/
theorem lift_bind_bind {γ : Type} (m : Run α) (f : α → Run β) (k : β → Script γ) :
    ((liftM (m >>= f) : Script β) >>= k) =
      ((liftM m : Script α) >>= fun a => (liftM (f a) : Script β) >>= k) := by
  funext s
  rw [run_bind, run_bind, run_lift, run_lift, Run.run_bind]
  cases m s <;> rfl

theorem play_ask_bind (go : Task → Run Value) (t : Task) (f : Value → Script α) :
    ((ask t >>= f) s).play go =
      match go t s with
      | .ok v s' => (f v s').play go
      | .error stop s' => .error stop s' := by
  change ((Step.done (go t s)).bind f).play go = _
  cases go t s <;> rfl

theorem run_store_bind (f : Store → Script α) :
    ((liftM Run.store : Script Store) >>= f) s = f s.store s := rfl

theorem run_enclose_bind (r : ScopeRef) (f : ScopeRef → Script α) :
    ((liftM (Run.enclose r) : Script ScopeRef) >>= f) s =
      f (s.store.scopes.enclose r).1 { s with store := (s.store.enclose r).2 } := rfl

theorem run_bind_bind (r : ScopeRef) (name : String) (v : Value) (f : Unit → Script α) :
    ((liftM (Run.bind r name v) : Script Unit) >>= f) s =
      f () { s with store := s.store.bind r name v } := rfl

theorem run_elements_bind (r : ArrayRef) (f : Array Value → Script α) :
    ((liftM (Run.elements r) : Script (Array Value)) >>= f) s = f (s.store.array r) s := rfl

end Script

namespace Eval

/-- How a program ends, from how its statements end. -/
theorem runProgram_eq (settings : Settings) (p : Program) (s : State) :
    runProgram settings p s =
      match (runTopLevel .null p.statements).perform (eval settings settings.depth)
        (Run.traced settings 1
          ("run program (" ++ p.statements.length.repr ++ " statements)") s) with
      | .ok v s' =>
        (do
          Run.trace settings 1 (return "program finished: " ++ (← Run.inspect v))
          return .ok v : Run (Except Fault Value)) s'
      | .error (.fault f) s' =>
        .ok (.error f) (Run.traced settings 1 ("program finished: " ++ f.shown) s')
      | .error stop s' => .error stop s' := by
  have hclosing : ∀ (f : Fault) (s : State),
      Run.trace settings 1 (do return "program finished: " ++ (← shown (.error f))) s =
        .ok () (Run.traced settings 1 ("program finished: " ++ f.shown) s) :=
    fun f s => Run.run_trace_pure s settings 1 ("program finished: " ++ f.shown)
  simp only [runProgram, Run.run_bind, Run.run_trace_pure, settle]
  generalize Script.perform _ _ _ = ending
  match ending with
  | .ok v s' => rfl
  | .error (.fault f) s' => simp only [hclosing, Run.run_pure]
  | .error .exhausted s' | .error .outOfFuel s' | .error .incomplete s' => rfl

end Eval

end Vorn
