import Vorn.Proofs.Eval.Thinning
import Vorn.Proofs.Layout

/-!
# The trace only observes

A program that runs from the start at different levels of the trace does the same, as long as no
value contains itself that the trace shows (`Session.tracing_observes`): the runs come to an end or
not together, with the same outcome, output and store. The lines at a level are those of the higher
one, without the lines of the classes above, in the same order.

* `Eval.ended_thin`: the statements of a program at two levels, from `Eval.eval_thin`;
* `Eval.runProgram_thin`: the whole program, with the lines at its start and its end.
-/

namespace Vorn

open Run

/-- A line that is made without looking at values, at two levels. -/
theorem Run.traced_thin {settings : Settings} {k top level : Nat} {text : String}
    (head rest : String) (hwithin : LevelWithin k top) (hhead : (head, level) ∈ TraceLine.heads)
    (htext : text = head ++ rest) (s : State) :
    traced (settings.tracing k) level text (s.thin k) =
      (traced (settings.tracing top) level text s).thin k := by
  have hline : Thins k (trace (settings.tracing k) level (pure text))
      (trace (settings.tracing top) level (pure text)) :=
    thins_trace_pure head rest hwithin hhead htext
  have hends := hline s
  rw [run_trace_pure, run_trace_pure] at hends
  injection hends

namespace Eval

variable {settings : Settings} {k top : Nat} {p : Program} {s : State}

theorem opened_thin (hwithin : LevelWithin k top) :
    opened (settings.tracing k) p (s.thin k) = (opened (settings.tracing top) p s).thin k := by
  refine traced_thin "run program " ("(" ++ p.statements.length.repr ++ " statements)") hwithin
    (by decide) ?_ s
  simp only [← String.append_assoc]
  rfl

/-- **The statements of a program at two levels.** -/
theorem ended_thin (hwithin : LevelWithin k top)
    (hclear : Sight.AllClear top (Session.sights (settings.tracing top) p s)) :
    ended (settings.tracing k) p (s.thin k) =
      Ending.thin k (ended (settings.tracing top) p s) := by
  have hsteps : Step.Thins (fun _ => none) k top
      (runTopLevel .null p.statements (opened (settings.tracing k) p (s.thin k)))
      (runTopLevel .null p.statements (opened (settings.tracing top) p s)) := by
    rw [opened_thin hwithin]
    exact thins_runTopLevel p.statements .null _
  exact hsteps.play (eval_thin hwithin settings.depth) (List.forall_mem_append.mp hclear).1

/-- **A program at two levels.** The line at its end shows its value. -/
theorem runProgram_thin (hwithin : LevelWithin k top)
    (hclear : Sight.AllClear top (Session.sights (settings.tracing top) p s)) :
    runProgram (settings.tracing k) p (s.thin k) =
      Ending.thin k (runProgram (settings.tracing top) p s) := by
  have hend := ended_thin hwithin hclear
  have hvalue := (List.forall_mem_append.mp hclear).2
  unfold ended opened at hend hvalue
  rw [runProgram_eq, runProgram_eq, hend]
  generalize Script.perform _ _ _ = ending at hvalue ⊢
  match ending with
  | .ok v s' =>
    have hshown : 1 ≤ top → s'.store.Clear v :=
      hvalue ⟨1, s'.store, v⟩ (List.mem_singleton.mpr rfl)
    dsimp only [Ending.thin]
    rw [run_bind, run_bind, trace_inspect_thin "program finished: " hwithin (by decide)
      (fun text => ⟨text, rfl⟩) hshown]
    cases Run.trace _ _ _ _ <;> rfl
  | .error (.fault f) s' =>
    dsimp only [Ending.thin]
    rw [traced_thin "program finished: " f.shown hwithin (by decide) rfl s']
  | .error .exhausted s' | .error .outOfFuel s' | .error .incomplete s' => rfl

end Eval

namespace Session

variable {settings : Settings} {k top : Nat} {p : Program} {s : State}

theorem run_thin (hwithin : LevelWithin k top)
    (hclear : Sight.AllClear top (sights (settings.tracing top) p s)) :
    run (settings.tracing k) p (s.thin k) =
      ((run (settings.tracing top) p s).1, (run (settings.tracing top) p s).2.thin k) := by
  rw [run, run, Eval.runProgram_thin hwithin hclear]
  obtain ⟨f | v, s'⟩ | ⟨stop, s'⟩ := Eval.runProgram (settings.tracing top) p s <;> rfl

end Session

/-- Two ends of runs that differ in nothing but the trace. -/
structure SameButTrace (r r' : Outcome × State) : Prop where
  outcome : r.1 = r'.1
  output : r.2.output = r'.2.output
  store : r.2.store = r'.2.store

theorem SameButTrace.outcome_eq_iff {r r' : Outcome × State} (h : SameButTrace r r') (o : Outcome) :
    r.1 = o ↔ r'.1 = o := by
  rw [h.outcome]

namespace Session

variable {settings : Settings} {k k' top : Nat} {p : Program}

/-- A fresh run at a level, from one at a higher level. -/
theorem run_start_thin (hwithin : LevelWithin k top)
    (hclear : Sight.AllClear top (sights (settings.tracing top) p start)) :
    run (settings.tracing k) p start =
      ((run (settings.tracing top) p start).1, (run (settings.tracing top) p start).2.thin k) :=
  run_thin (s := start) hwithin hclear

theorem sameButTrace (hk : LevelWithin k top) (hk' : LevelWithin k' top)
    (hclear : Sight.AllClear top (sights (settings.tracing top) p start)) :
    SameButTrace (run (settings.tracing k) p start) (run (settings.tracing k') p start) := by
  rw [run_start_thin hk hclear, run_start_thin hk' hclear]
  exact ⟨rfl, by simp only [State.thin_output], by simp only [State.thin_store]⟩

/-- The tree of `let a = [1]; func f(x) { a = x } while (a[0]) { f([]) } a`. -/
def observed : Program := ⟨[
  .declare ⟨1, 2⟩ false "a" (.array ⟨1, 10⟩ [.int ⟨1, 11⟩ "1" 1]),
  .func ⟨1, 15⟩ "f" ["x"] (.mk ⟨1, 25⟩
    [.expr ⟨1, 27⟩ "a" (.assign ⟨1, 29⟩ "a" (.ident ⟨1, 31⟩ "x"))]),
  .while ⟨1, 35⟩ (some (.index ⟨1, 43⟩ (.ident ⟨1, 42⟩ "a") (.int ⟨1, 44⟩ "0" 0)))
    (.mk ⟨1, 48⟩ [.expr ⟨1, 50⟩ "f" (.call ⟨1, 51⟩ (.ident ⟨1, 50⟩ "f") [.array ⟨1, 52⟩ []])]),
  .expr ⟨1, 58⟩ "a" (.ident ⟨1, 58⟩ "a")]⟩

/-- The condition on values is needed: the trace cannot show an array that holds itself. -/
example :
    let p := (parse "let a = [1]; a.append(a); let b = a; print(1)").1
    (run {} p start).2.output = "1\n" ∧ (run { traceLevel := 2 } p start).2.output = "" := by
  decide +kernel

end Session

end Vorn
