import Vorn.Proofs.Arithmetic

/-!
# Conversions

One built-in function applied to the result of another, and the conversion of a value to its text.
-/

namespace Vorn.Builtin

open Run

/-- `g(f(v))` for two built-in functions, the inner one called at `pos`. -/
def compose (settings : Settings) (pos pos' : Pos) (f g : Builtin) (v : Value) : Script Value := do
  let w ← Eval.apply settings pos (.builtin f) [v]
  Eval.apply settings pos' (.builtin g) [w]

/-- The state behind `g(f(v))`, if the functions themselves leave it alone. -/
def composed (settings : Settings) (f g : Builtin) (s : State) : State :=
  traced settings 2 ("call builtin " ++ g.name) (traced settings 2 ("call builtin " ++ f.name) s)

section

variable (settings : Settings) (pos pos' : Pos) {s : State} {v : Value} {text : String}

/-- Converting a value to its text. -/
theorem apply_string (h : s.store.inspect? v = some text) :
    Eval.apply settings pos (.builtin .string) [v] s =
      .done (.ok (.string text pos) (traced settings 2 "call builtin string" s)) := by
  have htext : toText pos v (traced settings 2 "call builtin string" s) =
      .ok (.string text pos) (traced settings 2 "call builtin string" s) := by
    rw [← traced_store s settings 2 "call builtin string"] at h
    rw [toText, run_bind, run_inspect h]
    rfl
  rw [apply_eq settings pos s rfl, run]
  exact congrArg Step.done htext

/-- A function applied to the text of a value. -/
theorem compose_string (h : s.store.inspect? v = some text) (g : Builtin) :
    compose settings pos pos' .string g v s = Eval.apply settings pos' (.builtin g)
      [.string text pos] (traced settings 2 "call builtin string" s) := by
  rw [compose, Script.run_bind, apply_string settings pos h]
  rfl

end

end Vorn.Builtin
