import Vorn.Proofs.Eval.Run

/-!
# Calls of built-in functions

The call of a built-in function is refused for the number of its arguments, or it leaves a line in
the trace and the function runs.
-/

namespace Vorn.Builtin

open Run Script

/-- The call of a built-in function is refused, or it is the function that runs. -/
theorem apply_cases (settings : Settings) (pos : Pos) (b : Builtin) (args : List Value)
    (s : State) :
    (∃ n, b.arity = some n ∧ args.length ≠ n ∧
      Eval.apply settings pos (.builtin b) args s =
        .done (.error (.fault ⟨pos, .builtinCount args.length n.repr⟩) s)) ∨
    Eval.apply settings pos (.builtin b) args s =
      b.run settings pos args (traced settings 2 ("call builtin " ++ b.name) s) := by
  have hrun : ((liftM (trace settings 2 (return "call builtin " ++ b.name)) : Script Unit) >>=
      fun _ => b.run settings pos args) s =
        b.run settings pos args (traced settings 2 ("call builtin " ++ b.name) s) := by
    rw [Script.run_bind, run_lift, run_trace_pure]
    rfl
  cases harity : b.arity with
  | none =>
    refine .inr ?_
    rw [Eval.apply, Eval.applyBuiltin, harity]
    exact hrun
  | some n =>
    by_cases hn : args.length = n
    · refine .inr ?_
      rw [Eval.apply, Eval.applyBuiltin, harity]
      dsimp only
      rw [if_neg (by simpa using hn)]
      exact hrun
    · refine .inl ⟨n, rfl, hn, ?_⟩
      rw [Eval.apply, Eval.applyBuiltin, harity]
      dsimp only
      rw [if_pos hn]
      rfl

variable (settings : Settings) (pos : Pos) (s : State)

/-- A call with the right number of arguments is traced and runs the function. -/
theorem apply_eq {b : Builtin} {args : List Value} (hcount : b.arity = some args.length) :
    Eval.apply settings pos (.builtin b) args s =
      b.run settings pos args (traced settings 2 ("call builtin " ++ b.name) s) := by
  rcases apply_cases settings pos b args s with ⟨n, harity, hn, -⟩ | happly
  · rw [hcount] at harity
    cases harity
    exact absurd rfl hn
  · exact happly

end Vorn.Builtin
