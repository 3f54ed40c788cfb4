import Vorn.Proofs.Eval.History

/-!
# Open tasks

The tasks that have started and not yet ended at some point of a history are a stack: each was
handed out by the script of the one below it. `openTasks` reads the stack off the moments before.

* `Eval.linked_programHistory`: behind the end of a task, the history goes on with the rest of the
  script that handed the task out, and then with the end of that script's own task. What the rest
  can be is said by `Step.Handles`, which looks at each task that a script hands out.
* `Eval.closed_programHistory`: the end of a task closes the moments of that task.
-/

namespace Vorn

/-! ## The stack -/

/-- The open tasks behind the moments, the innermost first, if those of `stack` are open before. -/
def openFrom (stack : List Task) : List Moment → List Task
  | [] => stack
  | .started t _ :: ms => openFrom (t :: stack) ms
  | .finished _ _ :: ms => openFrom stack.tail ms

/-- The open tasks behind the moments of a history, the innermost first. -/
def openTasks (ms : List Moment) : List Task := openFrom [] ms

theorem openFrom_append (stack : List Task) (ms ms' : List Moment) :
    openFrom stack (ms ++ ms') = openFrom (openFrom stack ms) ms' := by
  induction ms generalizing stack with
  | nil => rfl
  | cons m ms ih => cases m <;> exact ih _

/-- A task that is open has started. -/
theorem started_of_mem_openFrom {stack : List Task} {ms : List Moment} {t : Task}
    (h : t ∈ openFrom stack ms) : t ∈ stack ∨ ∃ s, .started t s ∈ ms := by
  induction ms generalizing stack with
  | nil => exact .inl h
  | cons m ms ih =>
    cases m with
    | started t' s =>
      rcases ih h with ht | ⟨s', hs'⟩
      · rcases List.mem_cons.mp ht with rfl | ht
        · exact .inr ⟨s, List.mem_cons_self⟩
        · exact .inl ht
      · exact .inr ⟨s', List.mem_cons_of_mem _ hs'⟩
    | finished t' ending =>
      rcases ih h with ht | ⟨s', hs'⟩
      · exact .inl (List.mem_of_mem_tail ht)
      · exact .inr ⟨s', List.mem_cons_of_mem _ hs'⟩

/-! ## What scripts do with values -/

namespace Step

variable {α : Type}

/-- Whatever value a task that the steps hand out gives, `Q` holds of how they go on. -/
def Handles (Q : Task → Value → State → Step α → Prop) : Step α → Prop
  | done _ => True
  | ask t _ resume =>
    (∀ v s, Q t v s (resume (.ok v s))) ∧ ∀ ending, (resume ending).Handles Q

end Step

namespace Eval

variable (settings : Settings)

/-! ## Behind the end of a task -/

/-- The moments are the rest of a script, of which `Q` holds: the script of `parent`, with its end
and more behind it, or else the script of the program, which ends with `final`. -/
def GoesOn (final : Ending Value) (Q : Step Value → Prop) : Option Task → List Moment → Prop
  | some parent, ms => ∃ depth step rest, Q step ∧
    ms = step.history (eval settings depth) (history settings depth) ++
      .finished parent (step.play (eval settings depth)) :: rest
  | none, ms => ∃ depth step, Q step ∧
    ms = step.history (eval settings depth) (history settings depth) ∧
      step.play (eval settings depth) = final

/-- Whenever a task gives a value, the script that handed it out goes on as `Q` says; the tasks of
`stack` are open before the moments. -/
def Linked (final : Ending Value) (Q : Option Task → Task → Value → State → Step Value → Prop)
    (stack : List Task) (ms : List Moment) : Prop :=
  ∀ before t v s behind outer, ms = before ++ .finished t (.ok v s) :: behind →
    openFrom stack before = t :: outer →
      GoesOn settings final (Q outer.head? t v s) outer.head? behind

variable {settings} {final : Ending Value}
  {Q : Option Task → Task → Value → State → Step Value → Prop}

namespace Linked

variable {stack : List Task} {ms : List Moment} {t : Task}

theorem nil : Linked settings final Q stack [] := by
  intro before t v s behind outer h
  simp at h

theorem started {s : State} (h : Linked settings final Q (t :: stack) ms) :
    Linked settings final Q stack (.started t s :: ms) := by
  intro before t' v s' behind outer hms hopen
  cases before with
  | nil => cases hms
  | cons m before =>
    obtain ⟨rfl, rfl⟩ := List.cons_eq_cons.mp hms
    exact h before t' v s' behind outer rfl hopen

/-- The end of a task, if what follows it is the rest of the script below it. -/
theorem finished {ending : Ending Value}
    (hend : ∀ v s, ending = .ok v s →
      GoesOn settings final (Q stack.head? t v s) stack.head? ms)
    (h : Linked settings final Q stack ms) :
    Linked settings final Q (t :: stack) (.finished t ending :: ms) := by
  intro before t' v s behind outer hms hopen
  cases before with
  | nil =>
    obtain ⟨hfirst, rfl⟩ := List.cons_eq_cons.mp hms
    obtain ⟨rfl, rfl⟩ := List.cons_eq_cons.mp hopen
    cases hfirst
    exact hend v s rfl
  | cons m before =>
    obtain ⟨rfl, rfl⟩ := List.cons_eq_cons.mp hms
    exact h before t' v s behind outer rfl hopen

end Linked

section

variable (hQ : ∀ t s, (runTask settings t s).Handles (Q (some t)))
include hQ

/-- The moments of a task and what follows them. The induction is on the depth, and for each depth
on the steps of the script. -/
theorem linked_history : ∀ depth t s stack ms,
    (∀ v s', eval settings depth t s = .ok v s' →
      GoesOn settings final (Q stack.head? t v s') stack.head? ms) →
    Linked settings final Q stack ms →
      Linked settings final Q stack (history settings depth t s ++ ms)
  | 0, t, s, stack, ms, hend, hms => .started (.finished hend hms)
  | depth + 1, t, s, stack, ms, hend, hms => by
    have hsteps : ∀ step : Step Value, step.Handles (Q (some t)) →
        (∀ v s', step.play (eval settings depth) = .ok v s' →
          GoesOn settings final (Q stack.head? t v s') stack.head? ms) →
        Linked settings final Q (t :: stack)
          (step.history (eval settings depth) (history settings depth) ++
            .finished t (step.play (eval settings depth)) :: ms) := by
      intro step
      induction step with
      | done ending => exact fun _ hend => .finished hend hms
      | ask t' s' resume ih =>
        intro ⟨hask, hresume⟩ hend
        rw [Step.history, Step.play, List.append_assoc]
        refine linked_history depth t' s' (t :: stack) _ ?_ (ih _ (hresume _) hend)
        intro v s'' heval
        rw [heval]
        exact ⟨depth, _, ms, hask v s'', rfl⟩
    rw [history, List.cons_append, List.append_assoc]
    exact .started (hsteps _ (hQ t s) hend)

/-- **Behind the end of a task the script that handed it out goes on.** -/
theorem linked_programHistory {p : Program} {s : State}
    (hprogram : (runTopLevel .null p.statements (opened settings p s)).Handles (Q none)) :
    Linked settings (ended settings p s) Q [] (programHistory settings p s) := by
  unfold programHistory ended Script.perform
  generalize runTopLevel .null p.statements (opened settings p s) = step at hprogram
  induction step with
  | done => exact .nil
  | ask t s resume ih =>
    obtain ⟨hask, hresume⟩ := hprogram
    rw [Step.history, Step.play]
    refine linked_history hQ _ t s [] _ (fun v s' heval => ?_) (ih _ (hresume _))
    rw [heval]
    exact ⟨_, _, hask v s', rfl, rfl⟩

end

/-! ## The end of a task -/

/-- The moments of a task are its start, moments of tasks that start and end, and its end. -/
theorem exists_history_eq : ∀ depth t s, ∃ ms,
    history settings depth t s = .started t s :: (ms ++ [.finished t (eval settings depth t s)]) ∧
      ∀ stack, openFrom stack ms = stack
  | 0, _, _ => ⟨[], rfl, fun _ => rfl⟩
  | depth + 1, t, s => by
    refine ⟨_, rfl, ?_⟩
    generalize runTask settings t s = step
    induction step with
    | done => exact fun _ => rfl
    | ask t s resume ih =>
      intro stack
      obtain ⟨ms, hms, hopen⟩ := exists_history_eq depth t s
      rw [Step.history, openFrom_append, hms, openFrom, openFrom_append, hopen]
      exact ih _ stack

variable (settings) in
/-- Every end of a task closes the moments of the task. -/
def Closed (ms : List Moment) : Prop :=
  ∀ before t ending behind, ms = before ++ .finished t ending :: behind →
    ∃ depth s front, before ++ [.finished t ending] = front ++ history settings depth t s ∧
      eval settings depth t s = ending

namespace Closed

variable {ms ms' : List Moment}

theorem nil : Closed settings [] := by
  intro before t ending behind h
  simp at h

theorem append (h : Closed settings ms) (h' : Closed settings ms') :
    Closed settings (ms ++ ms') := by
  intro before t ending behind hms
  rcases List.append_eq_append_iff.mp hms with ⟨front, rfl, hms'⟩ | ⟨rest, rfl, hrest⟩
  · obtain ⟨depth, s, front', hfront, heval⟩ := h' _ _ _ _ hms'
    exact ⟨depth, s, ms ++ front', by rw [List.append_assoc, hfront, List.append_assoc], heval⟩
  · cases rest with
    | nil =>
      obtain ⟨depth, s, front', hfront, heval⟩ := h' [] _ _ _ hrest.symm
      exact ⟨depth, s, before ++ front', by rw [List.append_assoc, ← hfront]; rfl, heval⟩
    | cons m rest =>
      obtain ⟨rfl, -⟩ := List.cons_eq_cons.mp hrest
      exact h _ _ _ _ rfl

theorem started {t : Task} {s : State} (h : Closed settings ms) :
    Closed settings (.started t s :: ms) := by
  intro before t' ending behind hms
  cases before with
  | nil => cases hms
  | cons m before =>
    obtain ⟨rfl, rfl⟩ := List.cons_eq_cons.mp hms
    obtain ⟨depth, s', front, hfront, heval⟩ := h _ _ _ _ rfl
    exact ⟨depth, s', _ :: front, by rw [List.cons_append, hfront, List.cons_append], heval⟩

/-- The moments of a task: its end closes them, and the others are those of the tasks in it. -/
theorem around {depth : Nat} {t : Task} {s : State} (h : Closed settings ms)
    (hms : history settings depth t s =
      .started t s :: (ms ++ [.finished t (eval settings depth t s)])) :
    Closed settings (history settings depth t s) := by
  intro before t' ending behind hsplit
  rw [hms] at hsplit
  rcases List.eq_nil_or_concat behind with rfl | ⟨behind, m, rfl⟩
  · -- The moment is the last one.
    rw [← List.cons_append] at hsplit
    obtain ⟨hbefore, hlast⟩ := List.append_inj' hsplit rfl
    cases hlast
    exact ⟨depth, s, [], by rw [hms, ← hbefore]; rfl, rfl⟩
  · have hinner : (.started t s :: ms) ++ [.finished t (eval settings depth t s)] =
        (before ++ .finished t' ending :: behind) ++ [m] := by
      rw [List.cons_append, hsplit]
      simp
    exact h.started _ _ _ _ (List.append_inj' hinner rfl).1

end Closed

theorem closed_history : ∀ depth t s, Closed settings (history settings depth t s)
  | 0, _, _ => Closed.around .nil rfl
  | depth + 1, t, s => by
    have hsteps : ∀ step : Step Value,
        Closed settings (step.history (eval settings depth) (history settings depth)) := by
      intro step
      induction step with
      | done => exact .nil
      | ask t s resume ih => exact (closed_history depth t s).append (ih _)
    exact Closed.around (hsteps (runTask settings t s)) rfl

/-- **The end of a task closes the moments of the task.** -/
theorem closed_programHistory (p : Program) (s : State) :
    Closed settings (programHistory settings p s) := by
  unfold programHistory
  generalize runTopLevel .null p.statements (opened settings p s) = step
  induction step with
  | done => exact .nil
  | ask t s resume ih => exact (closed_history _ t s).append (ih _)

/-- A task that ends is the innermost open one. -/
theorem openTasks_eq_cons {ms before behind : List Moment} {t : Task} {ending : Ending Value}
    (h : Closed settings ms) (hms : ms = before ++ .finished t ending :: behind) :
    ∃ outer, openTasks before = t :: outer := by
  obtain ⟨depth, s, front, hfront, -⟩ := h _ _ _ _ hms
  obtain ⟨inner, hinner, hopen⟩ := @exists_history_eq settings depth t s
  rw [hinner, ← List.cons_append, ← List.append_assoc] at hfront
  obtain ⟨rfl, -⟩ := List.append_inj' hfront rfl
  exact ⟨openFrom [] front, by rw [openTasks, openFrom_append, openFrom, hopen]⟩

/-- What comes before the end of a task that gives a value: its start and what its script hands
out. -/
theorem exists_steps_of_closed {ms before behind : List Moment} {t : Task} {v : Value} {s : State}
    (h : Closed settings ms) (hms : ms = before ++ .finished t (.ok v s) :: behind) :
    ∃ depth s₀ front, before = front ++ .started t s₀ ::
        (runTask settings t s₀).history (eval settings depth) (history settings depth) ∧
      (runTask settings t s₀).play (eval settings depth) = .ok v s := by
  obtain ⟨depth, s₀, front, hfront, heval⟩ := h _ _ _ _ hms
  cases depth with
  | zero => cases heval
  | succ depth =>
    rw [history, ← List.cons_append, ← List.append_assoc] at hfront
    exact ⟨depth, s₀, front, (List.append_inj' hfront rfl).1, heval⟩

end Eval

end Vorn
