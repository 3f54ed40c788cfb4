import Vorn.Proofs.BoundNames
import Vorn.Proofs.Eval.Blind
import Vorn.Proofs.Grammar.Stacked
import Vorn.Proofs.Layout

/-!
# A batch is a session

Source texts that run one after the other in one state can as well be put below one another and run
at once (`batch_eq_session`). The tree of the whole text holds the statements of the texts in their
order. If every text before the last gives a value, and no `return` at its top level ends it, then
the run of the whole text cannot be told from the last step of the session, but for places: it has
the same outcome, and leaves the same output and the same store.

What a run does depends neither on places (`Run.Moves`) nor on the trace (`Run.Blind`). So states
are compared bare, without both (`State.bare`):

* `Eval.bare_runFrom`: statements that are the same but for places, from states that are;
* `Eval.runFrom_append`: statements in front of others;
* `Session.bare_stacked`: source texts in front of others, by induction on their number.
-/

namespace Vorn

open Relocation (forget)

/-! ## Bare states -/

/-- What is left of a state without places and without the trace. -/
def State.bare (s : State) : State := (s.move forget).retraced #[]

/-- What is left of an ending; `g` takes the places out of the result. -/
def Ending.bare {α : Type} (g : α → α) (ending : Ending α) : Ending α :=
  Ending.retraced #[] (Ending.move forget g ending)

theorem State.move_forget_eq (s : State) : s.move forget = s.bare.behind s.trace := by
  simp [bare, behind, retraced, move]

/-- Runs that become the same one without places do the same in states that are the same bare. -/
theorem Run.Moves.bare_eq {α : Type} {g : α → α} {m₁ m₂ m : Run α} (h₁ : Run.Moves forget g m₁ m)
    (h₂ : Run.Moves forget g m₂ m) (hm : Run.Blind m) {s₁ s₂ : State} (hs : s₁.bare = s₂.bare) :
    Ending.bare g (m₁ s₁) = Ending.bare g (m₂ s₂) := by
  have hbare : ∀ {m' : Run α}, Run.Moves forget g m' m → ∀ s,
      Ending.bare g (m' s) = Ending.retraced #[] (m s.bare) := by
    intro m' h s
    rw [Ending.bare, ← h.eq rfl s, State.move_forget_eq, hm]
    cases m s.bare <;> rfl
  rw [hbare h₁, hbare h₂, hs]

theorem Script.asked_ask_bind {α : Type} (go : Task → Run Value) (t : Task) (f : Value → Script α)
    (s : State) :
    ((Script.ask t >>= f) s).asked go =
      (t, go t s) :: match go t s with
        | .ok v s' => (f v s').asked go
        | .error _ _ => [] := by
  change (t, go t s) :: ((Step.done (go t s)).bind f).asked go = _
  cases go t s <;> rfl

/-- The statement ends with what a `return` gives. -/
def Ending.isReturn : Ending Value → Bool
  | .ok (.returned _ _ _) _ => true
  | _ => false

namespace Eval

variable {settings : Settings} {s s' s₁ : State} {last last' v : Value} {ss ss' : List Stmt}

/-- Statements at the top level, behind one with the value `last`. -/
def runFrom (settings : Settings) (last : Value) (ss : List Stmt) : Run Value :=
  (runTopLevel last ss).perform (eval settings settings.depth)

/-- The statements that are run, each with its end. -/
def ranFrom (settings : Settings) (last : Value) (ss : List Stmt) (s : State) :
    List (Task × Ending Value) :=
  (runTopLevel last ss s).asked (eval settings settings.depth)

/-- Statements that are the same but for places, from states that are. -/
theorem bare_runFrom (hss : Stmt.markAll (.moved forget.place) ss =
    Stmt.markAll (.moved forget.place) ss') (hlast : last.move forget = last'.move forget)
    (hs : s.bare = s'.bare) :
    Ending.bare (Value.move forget) (runFrom settings last ss s) =
      Ending.bare (Value.move forget) (runFrom settings last' ss' s') := by
  have hmoves := moves_eval (f := forget) settings settings.depth
  refine Run.Moves.bare_eq ((moves_runTopLevel last ss).perform hmoves) ?_ (fun lines s => ?_) hs
  · rw [hss, hlast]
    exact (moves_runTopLevel last' ss').perform hmoves
  · exact (blind_runTopLevel _ _ lines s).play (blind_eval settings.depth)

/-- **Statements in front of others.** If they come to their end and none of them returns, the rest
is run from there. -/
theorem runFrom_append (h : runFrom settings last ss s = .ok v s₁)
    (hreturn : ∀ d ∈ ranFrom settings last ss s, d.2.isReturn = false) (rest : List Stmt) :
    runFrom settings last (ss ++ rest) s = runFrom settings v rest s₁ := by
  induction ss generalizing last s with
  | nil =>
    cases h
    rfl
  | cons st ss ih =>
    rw [runFrom, Script.perform, runTopLevel, Script.play_ask_bind] at h
    rw [ranFrom, runTopLevel, Script.asked_ask_bind, List.forall_mem_cons] at hreturn
    rw [List.cons_append, runFrom, Script.perform, runTopLevel, Script.play_ask_bind]
    cases hend : eval settings settings.depth (.stmt st Scopes.root) s with
    | error stop s₂ =>
      rw [hend] at h
      cases h
    | ok w s₂ =>
      rw [hend] at h hreturn
      cases w with
      | returned => cases hreturn.1
      | «break» | «continue» => cases h
      | _ => exact ih h hreturn.2

/-- The value before matters only if there are no statements. -/
theorem runFrom_last (last last' : Value) (hne : ss ≠ []) :
    runFrom settings last ss s = runFrom settings last' ss s := by
  cases ss with
  | nil => exact (hne rfl).elim
  | cons st ss => rfl

/-- The statements of a program in front of others, behind any value. -/
theorem exists_runFrom_append {p : Program} (h : ended settings p s = .ok v s₁)
    (hreturn : ∀ d ∈ topLevel settings p s, d.2.isReturn = false) (last : Value) :
    ∃ w, ∀ rest, runFrom settings last (p.statements ++ rest) (opened settings p s) =
      runFrom settings w rest s₁ := by
  cases hss : p.statements with
  | nil =>
    rw [ended, hss] at h
    cases h
    exact ⟨last, fun rest => rfl⟩
  | cons st ss =>
    rw [ended, hss] at h
    rw [topLevel, hss] at hreturn
    exact ⟨v, fun rest => (runFrom_last last .null (by simp)).trans (runFrom_append h hreturn rest)⟩

end Eval

/-! ## Programs -/

theorem State.bare_traced (settings : Settings) (level : Nat) (text : String) (s : State) :
    (Run.traced settings level text s).bare = s.bare := by
  unfold Run.traced
  split <;> rfl

/-- What a program leaves is what its statements leave, but for the trace. -/
theorem Session.bare_run (settings : Settings) (p : Program) (s : State) :
    (run settings p s).2.bare = (Eval.ended settings p s).state.bare := by
  obtain ⟨lines, hlines⟩ := run_retraced settings p s
  rw [hlines]
  rfl

theorem State.bare_eq_iff {s s' : State} :
    s.bare = s'.bare ↔ s.store.move forget = s'.store.move forget ∧ s.output = s'.output := by
  simp [bare, move, retraced]

theorem Ending.state_bare {α : Type} {g : α → α} {r r' : Ending α} (h : r.bare g = r'.bare g) :
    r.state.bare = r'.state.bare := by
  cases r <;> cases r' <;> injection h

/-- How the outcome of a program follows from how its statements end. -/
theorem Session.outcome_run (settings : Settings) (p : Program) (s : State) :
    (run settings p s).1 =
      match Eval.ended settings p s with
      | .ok v s' =>
        if settings.traceLevel < 1 ∨ (s'.store.inspect? v).isSome then .value v
        else .cut .exhausted
      | .error (.fault f) _ => .fault f
      | .error stop _ => .cut stop := by
  rw [run_eq]
  match Eval.ended settings p s with
  | .ok v s' =>
    dsimp only
    by_cases hlevel : 1 ≤ settings.traceLevel
    · rw [if_pos hlevel]
      cases s'.store.inspect? v with
      | some text => simp
      | none => rw [if_neg (by simpa using Nat.ne_of_gt hlevel)]
    · rw [if_neg hlevel, if_pos (.inl (by omega))]
  | .error (.fault f) s' | .error .exhausted s' | .error .outOfFuel s' | .error .incomplete s' =>
    rfl

/-- Programs whose statements end alike run alike. -/
theorem Alike.of_bare_ended {settings : Settings} {p p' : Program} {s s' : State}
    (h : Ending.bare (Value.move forget) (Eval.ended settings p s) =
      Ending.bare (Value.move forget) (Eval.ended settings p' s')) :
    Alike (Session.run settings p s) (Session.run settings p' s') := by
  have hstate := Ending.state_bare h
  rw [← Session.bare_run, ← Session.bare_run, State.bare_eq_iff] at hstate
  refine ⟨?_, hstate.1, hstate.2⟩
  rw [Session.outcome_run, Session.outcome_run]
  cases hend : Eval.ended settings p s with
  | ok v s₁ =>
    cases hend' : Eval.ended settings p' s' with
    | error stop' s₁' =>
      rw [hend, hend'] at h
      cases h
    | ok v' s₁' =>
      rw [hend, hend'] at h
      injection h with hv hs
      have hshown : s₁.store.inspect? v = s₁'.store.inspect? v' := by
        rw [← s₁.store.inspect?_move forget, hv, (State.bare_eq_iff.mp hs).1, Store.inspect?_move]
      dsimp only
      rw [hshown]
      split
      · exact congrArg Outcome.value hv
      · rfl
  | error stop s₁ =>
    cases hend' : Eval.ended settings p' s' with
    | ok v' s₁' =>
      rw [hend, hend'] at h
      cases h
    | error stop' s₁' =>
      rw [hend, hend'] at h
      injection h with hstop hs
      cases stop with
      | fault x =>
        cases stop' with
        | fault x' => exact congrArg Outcome.fault (Stop.fault.inj hstop)
        | _ => cases hstop
      | _ =>
        cases stop' <;> cases hstop
        rfl

/-! ## Sessions -/

/-- Further down a tree is the same but for places. -/
theorem markAll_forget_down (k : Nat) (source : String) :
    Stmt.markAll (.moved forget.place)
        (Stmt.markAll (.moved (Pos.down k)) (parse source).1.statements) =
      Stmt.markAll (.moved forget.place) (parse source).1.statements := by
  have htokens : ((tokens source).map (Token.move (Pos.down k))).map (Token.move forget.place) =
      (tokens source).map (Token.move forget.place) := by
    rw [List.map_map]
    refine List.map_congr_left fun t ht => ?_
    have hcolumn := two_le_column_of_mem_tokens t ht
    simp [Token.move, forget, Pos.down, hcolumn]
  have hne : (tokens source).map (Token.move (Pos.down k)) ≠ [] := by simpa using tokens_ne_nil source
  have hdown := run_move_tokens (Pos.down k) source (Nat.le_refl _)
  have hboth := Parse.run_move forget.place (Nat.le_refl _) hne hdown
  rw [htokens, run_move_tokens forget.place source (Nat.le_refl _)] at hboth
  exact (congrArg Program.statements (congrArg Prod.fst (Option.some.inj hboth))).symm

theorem Stmt.markAll_append (m : Marking) (ss ss' : List Stmt) :
    Stmt.markAll m (ss ++ ss') = Stmt.markAll m ss ++ Stmt.markAll m ss' := by
  simp only [Stmt.markAll_eq_map, List.map_append]

theorem stacked_append : ∀ (k : Nat) (before : List String) (last : String),
    ∃ j, stacked k (before ++ [last]) =
      stacked k before ++ Stmt.markAll (.moved (Pos.down j)) (parse last).1.statements
  | k, [], last => ⟨k, by simp [stacked]⟩
  | k, source :: before, last => by
    obtain ⟨j, hj⟩ := stacked_append (k + lineCount source) before last
    exact ⟨j, by rw [List.cons_append, stacked, hj, stacked, List.append_assoc]⟩

namespace Session

variable {settings : Settings}

/-- **Source texts in front of other statements.** If each of them gives a value and none returns
at its top level, then what follows them in one run is run as behind the steps of a session. -/
theorem bare_stacked {before : List String} (k : Nat) (last : Value) (rest : List Stmt)
    {s s' : State} (hs : s.bare = s'.bare)
    (hvalues : ∀ a ∈ answers settings before s', ∃ v, a.1 = .ran (.value v))
    (hreturn : ∀ d ∈ topLevel settings before s', d.2.isReturn = false) :
    ∃ v, Ending.bare (Value.move forget)
        (Eval.runFrom settings last (stacked k before ++ rest) s) =
      Ending.bare (Value.move forget)
        (Eval.runFrom settings v rest (after settings before s')) := by
  induction before generalizing k last s s' with
  | nil => exact ⟨last, Eval.bare_runFrom rfl rfl hs⟩
  | cons source before ih =>
    obtain ⟨⟨v, hv⟩, hvalues⟩ := List.forall_mem_cons.mp hvalues
    rw [topLevel, List.forall_mem_append] at hreturn
    unfold step at hv hvalues hreturn
    cases hp : parse? source with
    | error errors =>
      rw [hp] at hv
      cases hv
    | ok p =>
      rw [hp] at hv hvalues hreturn
      dsimp only at hv hvalues hreturn
      obtain ⟨s₁, hended⟩ := (Eval.run_of_ended settings p s').2 v (by injection hv)
      have hstatements : (parse source).1 = p := by rw [parse?_eq_ok.mp hp]
      have hopened : (Eval.opened settings p s').bare = s'.bare := State.bare_traced ..
      have hbehind : (run settings p s').2.bare = s₁.bare := by
        rw [bare_run, hended]
        rfl
      have hmark : Stmt.markAll (.moved forget.place) (stacked k (source :: before) ++ rest) =
          Stmt.markAll (.moved forget.place)
            (p.statements ++ (stacked (k + lineCount source) before ++ rest)) := by
        rw [stacked, List.append_assoc, Stmt.markAll_append, markAll_forget_down, hstatements,
          ← Stmt.markAll_append]
      have hafter : after settings (source :: before) s' =
          after settings before (run settings p s').2 := by
        rw [after, List.foldl_cons, step, hp]
        rfl
      obtain ⟨w, hfirst⟩ := Eval.exists_runFrom_append hended hreturn.1 last
      obtain ⟨v', hrest⟩ := ih (k + lineCount source) w hbehind.symm hvalues hreturn.2
      refine ⟨v', ?_⟩
      rw [Eval.bare_runFrom hmark rfl (hs.trans hopened.symm), hfirst, hrest, hafter]

end Session

/-- The value that a global name is bound to, without places. -/
def State.global? (s : State) (x : String) : Option Value :=
  (s.store.scopes.getLocal? Scopes.root x).map (Value.move forget)

namespace Alike

variable {r r' : Outcome × State}

theorem scopes_eq (h : Alike r r') :
    r.2.store.scopes.map (Value.move forget) = r'.2.store.scopes.map (Value.move forget) :=
  congrArg Store.scopes h.store

theorem globals_eq (h : Alike r r') : Session.globals r.2 = Session.globals r'.2 := by
  rw [Session.globals, ← Scopes.names_map (Value.move forget), h.scopes_eq, Scopes.names_map]
  rfl

theorem global?_eq (h : Alike r r') (x : String) : r.2.global? x = r'.2.global? x := by
  rw [State.global?, ← Scopes.getLocal?_map, h.scopes_eq, Scopes.getLocal?_map]
  rfl

end Alike

theorem Answer.values_ne_nil_iff {a : Answer} : a.values ≠ [] ↔ ∃ v, a = .ran (.value v) := by
  match a with
  | .ran (.value v) => simp [values]
  | .ran (.fault f) | .ran (.cut stop) | .refused errors => simp [values]

/-- **A batch is a session.** Take source texts that are accepted, each with a semicolon as its last
token, such that they are accepted below one another as well. The tree of the whole text holds their
statements in their order, at places further down. If the last text has a statement, and the ones
before give values in a session, none of them through a `return` at its top level, then the run of
the whole text from the start ends like the last step of the session: with the same outcome, the
same output and the same store but for places, and so with the same global names and values. -/
theorem batch_eq_session {before : List String} {last : String} {p : Program}
    (haccepted : ∀ source ∈ before ++ [last], ∃ p, parse? source = .ok p)
    (hends : ∀ source ∈ before ++ [last], EndsWithSemicolon source)
    (hstack : parse? (stack (before ++ [last])) = .ok p) :
    p.statements = stacked 0 (before ++ [last]) ∧
      ∀ settings, (parse last).1.statements ≠ [] →
        (∀ a ∈ Session.answers settings before Session.start, ∃ v, a.1 = .ran (.value v)) →
        (∀ d ∈ Session.topLevel settings before Session.start, d.2.isReturn = false) →
        ∃ r r' : Outcome × State,
          Session.step settings (stack (before ++ [last])) Session.start = (.ran r.1, r.2) ∧
          Session.step settings last (Session.after settings before Session.start) =
            (.ran r'.1, r'.2) ∧
          Session.after settings (before ++ [last]) Session.start = r'.2 ∧
          Alike r r' ∧ Session.globals r.2 = Session.globals r'.2 ∧
          ∀ x, r.2.global? x = r'.2.global? x := by
  have hstatements : p.statements = stacked 0 (before ++ [last]) := by
    rw [← parse_stack (by simp) haccepted hends, parse?_eq_ok.mp hstack]
  refine ⟨hstatements, fun settings hne hvalues hreturn => ?_⟩
  obtain ⟨q, hq⟩ := haccepted last (by simp)
  have hlast : (parse last).1 = q := by rw [parse?_eq_ok.mp hq]
  obtain ⟨j, hj⟩ := stacked_append 0 before last
  obtain ⟨v, hv⟩ := Session.bare_stacked 0 .null
    (Stmt.markAll (.moved (Pos.down j)) (parse last).1.statements) (s := Eval.opened settings p _)
    (State.bare_traced ..) hvalues hreturn
  rw [← hj, ← hstatements] at hv
  have hmoved : Stmt.markAll (.moved (Pos.down j)) (parse last).1.statements ≠ [] := by
    rwa [Stmt.markAll_eq_map, Ne, List.map_eq_nil_iff]
  have hbare : Ending.bare (Value.move forget) (Eval.ended settings p Session.start) =
      Ending.bare (Value.move forget)
        (Eval.ended settings q (Session.after settings before Session.start)) := by
    refine hv.trans ?_
    rw [Eval.runFrom_last v .null hmoved]
    refine Eval.bare_runFrom ?_ rfl (State.bare_traced ..).symm
    rw [markAll_forget_down, hlast]
  have halike := Alike.of_bare_ended hbare
  refine ⟨_, _, by rw [Session.step, hstack], by rw [Session.step, hq], ?_, halike,
    halike.globals_eq, halike.global?_eq⟩
  rw [Session.after, List.foldl_append, List.foldl_cons, List.foldl_nil, ← Session.after,
    Session.step, hq]

/-- Two texts that share a function and an array. -/
def firstTexts : List String :=
  ["let a = [1]; func f() \x7b return a; \x7d;", "// next\nf().append(2); print(a);"]

/-- A text that goes on with both. -/
def lastText : String := "f().pop(); print(a);"

/-- The three texts print two lines, at once as well as one after the other. -/
theorem batch_eq_session_sharing :
    (∀ source ∈ firstTexts ++ [lastText], ∃ p, parse? source = .ok p) ∧
      (∀ source ∈ firstTexts ++ [lastText], EndsWithSemicolon source) ∧
      (parse lastText).1.statements ≠ [] ∧
      (∀ a ∈ Session.answers {} firstTexts Session.start, ∃ v, a.1 = .ran (.value v)) ∧
      (∀ d ∈ Session.topLevel {} firstTexts Session.start, d.2.isReturn = false) ∧
      ∃ p, parse? (stack (firstTexts ++ [lastText])) = .ok p ∧
        p.statements = stacked 0 (firstTexts ++ [lastText]) ∧
        ∃ r r' : Outcome × State,
          Session.step {} (stack (firstTexts ++ [lastText])) Session.start = (.ran r.1, r.2) ∧
          Session.after {} (firstTexts ++ [lastText]) Session.start = r'.2 ∧ Alike r r' ∧
          r.2.output = "[1, 2]\n[1]\n" := by
  obtain ⟨herrors, hends, hstackErrors⟩ :
      (∀ source ∈ firstTexts ++ [lastText], (parse source).2 = []) ∧
      (∀ source ∈ firstTexts ++ [lastText], EndsWithSemicolon source) ∧
      (parse (stack (firstTexts ++ [lastText]))).2 = [] := by
    decide +kernel
  obtain ⟨hlength, hlengths, hreturn, houtput⟩ :
      (parse lastText).1.statements.length ≠ 0 ∧
      (∀ a ∈ Session.answers {} firstTexts Session.start, a.1.values.length ≠ 0) ∧
      (∀ d ∈ Session.topLevel {} firstTexts Session.start, d.2.isReturn = false) ∧
      (Session.after {} (firstTexts ++ [lastText]) Session.start).output = "[1, 2]\n[1]\n" := by
    decide +kernel
  have haccepted : ∀ source ∈ firstTexts ++ [lastText], ∃ p, parse? source = .ok p :=
    fun source h => ⟨_, parse?_eq_ok.mpr (Prod.ext rfl (herrors source h))⟩
  have hvalues : ∀ a ∈ Session.answers {} firstTexts Session.start,
      ∃ v, a.1 = .ran (.value v) :=
    fun a h => Answer.values_ne_nil_iff.mp fun hnil => hlengths a h (by rw [hnil]; rfl)
  have hne : (parse lastText).1.statements ≠ [] := fun hnil => hlength (by rw [hnil]; rfl)
  have hstack := parse?_eq_ok.mpr (Prod.ext rfl hstackErrors)
  obtain ⟨hstatements, hruns⟩ := batch_eq_session haccepted hends hstack
  obtain ⟨r, r', hstep, -, hafter, halike, -⟩ := hruns {} hne hvalues hreturn
  rw [hafter, ← halike.output] at houtput
  exact ⟨haccepted, hends, hne, hvalues, hreturn, _, hstack, hstatements, r, r', hstep, hafter,
    halike, houtput⟩

/-- A `return` ends the whole text, but only its own step of a session. -/
example :
    let batch := Session.run {} (parse (stack ["return 1;", "2;"])).1 Session.start
    let step := Session.run {} (parse "2;").1 (Session.after {} ["return 1;"] Session.start)
    batch.1.shown? batch.2.store = some "1" ∧ step.1.shown? step.2.store = some "2" := by
  decide +kernel

end Vorn
