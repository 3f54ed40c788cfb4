import Vorn.Proofs.Eval.Run

/-!
# Histories

The moments of an evaluation are the starts and the ends of the tasks in it, with the states they
happen in. `Eval.history` lists those of a task, in their order and through all tasks inside it;
`Eval.programHistory` those of a program, and `Session.history` those of source texts that run one
after the other in one state. All three follow the steps of the scripts that are played.
-/

namespace Vorn

/-- The state in which a run ends. -/
def Ending.state {α : Type} : Ending α → State
  | .ok _ s => s
  | .error _ s => s

/-- The start or the end of a task. -/
inductive Moment where
  | started (t : Task) (s : State)
  | finished (t : Task) (ending : Ending Value)

/-- The state at the moment. -/
def Moment.state : Moment → State
  | started _ s => s
  | finished _ ending => ending.state

namespace Step

variable {α : Type}

/-- The moments of the tasks that the steps hand out: `go` does a task, and `tell` lists its
moments. -/
def history (go : Task → Run Value) (tell : Task → State → List Moment) : Step α → List Moment
  | done _ => []
  | ask t s resume => tell t s ++ (resume (go t s)).history go tell

end Step

/-- A task that is handed out has its moments first, and then what is done with its value. -/
theorem Script.history_ask_bind {α : Type} (go : Task → Run Value)
    (tell : Task → State → List Moment) (t : Task) (f : Value → Script α) (s : State) :
    ((ask t >>= f) s).history go tell =
      tell t s ++ match go t s with
        | .ok v s' => (f v s').history go tell
        | .error _ _ => [] := by
  change tell t s ++ ((Step.done (go t s)).bind f).history go tell = _
  cases go t s <;> rfl

namespace Eval

/-- The moments of a task whose tasks nest at most `depth` deep. -/
def history (settings : Settings) : (depth : Nat) → Task → State → List Moment
  | 0, t, s => [.started t s, .finished t (eval settings 0 t s)]
  | depth + 1, t, s =>
    .started t s ::
      ((runTask settings t s).history (eval settings depth) (history settings depth) ++
        [.finished t (eval settings (depth + 1) t s)])

/-- The state in which the statements of a program start. -/
def opened (settings : Settings) (p : Program) (s : State) : State :=
  Run.traced settings 1 ("run program (" ++ p.statements.length.repr ++ " statements)") s

/-- How the statements of a program end. -/
def ended (settings : Settings) (p : Program) (s : State) : Ending Value :=
  (runTopLevel .null p.statements).perform (eval settings settings.depth) (opened settings p s)

/-- The moments of a program. -/
def programHistory (settings : Settings) (p : Program) (s : State) : List Moment :=
  (runTopLevel .null p.statements (opened settings p s)).history (eval settings settings.depth)
    (history settings settings.depth)

end Eval

namespace Session

/-- The moments of a source text; one that is refused has none. -/
def moments (settings : Settings) (source : String) (s : State) : List Moment :=
  match parse? source with
  | .error _ => []
  | .ok p => Eval.programHistory settings p s

/-- The moments of source texts that run one after the other. -/
def history (settings : Settings) : List String → State → List Moment
  | [], _ => []
  | source :: rest, s =>
    moments settings source s ++ history settings rest (step settings source s).2

/-- The state behind source texts that run one after the other. -/
def after (settings : Settings) (sources : List String) (s : State) : State :=
  sources.foldl (fun s source => (step settings source s).2) s

end Session

end Vorn
