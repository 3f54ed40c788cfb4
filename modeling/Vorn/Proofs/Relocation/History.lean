import Mathlib.Data.List.Forall2
import Vorn.Proofs.Eval.Values
import Vorn.Proofs.Relocation.Task

/-!
# Histories at other places

The moments of a moved run are those of the run as it was, at the moved places: tasks start in moved
states, and end as moved endings do (`Moment.Moved`).

* `Step.Moves.history`, `Eval.moved_history`, `Eval.moved_programHistory`: the moments of a script,
  of a task, by induction on its depth, and of a program;
* `Moment.Moved.values`: all values at the moment are moved.
-/

namespace Vorn

variable {f : Relocation}

/-- The second moment is the first one at the new place. -/
inductive Moment.Moved (f : Relocation) : Moment → Moment → Prop
  | started (t : Task) (s : State) : Moved f (.started t s) (.started (t.move f) (s.move f))
  | finished (t : Task) {ending ending' : Ending Value}
      (h : ending.Moved f (Value.move f) ending') :
      Moved f (.finished t ending) (.finished (t.move f) ending')

/-! ## Scripts and tasks -/

/-- The moments of moved steps, if tasks that are moved have moved moments. -/
theorem Step.Moves.history {α : Type} {g : α → α} {go : Task → Run Value}
    {tell : Task → State → List Moment}
    (hgo : ∀ t, Run.Moves f (Value.move f) (go t) (go (t.move f)))
    (htell : ∀ t s, List.Forall₂ (Moment.Moved f) (tell t s) (tell (t.move f) (s.move f))) :
    ∀ {m m' : Step α}, m.Moves f g m' →
      List.Forall₂ (Moment.Moved f) (m.history go tell) (m'.history go tell)
  | .done _, _, ⟨_, hm, _⟩ => by
    subst hm
    exact .nil
  | .ask t s resume, _, ⟨resume', hm, hresume⟩ => by
    subst hm
    exact List.rel_append (htell t s) ((hresume _ _ (hgo t s)).history hgo htell)

namespace Eval

theorem moved_history (settings : Settings) : ∀ depth t s,
    List.Forall₂ (Moment.Moved f) (history settings depth t s)
      (history settings depth (t.move f) (s.move f))
  | 0, t, s => .cons (.started t s) (.cons (.finished t (moves_eval settings 0 t s)) .nil)
  | depth + 1, t, s =>
    .cons (.started t s) <| List.rel_append
      ((moves_runTask t s).history (moves_eval settings depth) (moved_history settings depth))
      (.cons (.finished t (moves_eval settings (depth + 1) t s)) .nil)

theorem moved_programHistory (settings : Settings) (p : Program) (s : State) :
    List.Forall₂ (Moment.Moved f) (programHistory settings p s)
      (programHistory settings (p.mark (.moved f.place)) (s.move f)) := by
  rw [programHistory, programHistory, opened_move]
  exact (moves_runTopLevel .null p.statements _).history (moves_eval settings settings.depth)
    (moved_history settings settings.depth)

end Eval

/-! ## Values -/

theorem Table.values_move (t : Table) : (t.move f).values = t.values.map (Value.move f) := by
  have hvalue : ∀ e : Entry, (e.move f).value = e.value.move f := fun _ => rfl
  simp [values, List.flatMap_map, List.map_flatMap, hvalue]

theorem Store.values_move (s : Store) : (s.move f).values = s.values.map (Value.move f) := by
  simp [values, move, Scopes.map, Scope.map, List.flatMap_map, List.map_flatMap, Table.values_move,
    Function.comp_def]

theorem Task.values_move (t : Task) : (t.move f).values = t.values.map (Value.move f) := by
  cases t <;> rfl

theorem Moment.Moved.values {m m' : Moment} (h : m.Moved f m') :
    m'.values = m.values.map (Value.move f) := by
  cases h with
  | started t s =>
    rw [Moment.values, Moment.values, List.map_append, Task.values_move, ← Store.values_move]
    rfl
  | finished t h =>
    cases h with
    | ok v s => exact congrArg (v.move f :: ·) (Store.values_move s.store)
    | error s => exact Store.values_move s.store

end Vorn
