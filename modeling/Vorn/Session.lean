import Vorn.Eval.Task
import Vorn.Grammar.Parse

/-!
# Sessions

A session runs source texts one after the other in one state, so that each sees what the earlier
ones declared.
-/

namespace Vorn

/-- How the run of a program ends. -/
inductive Outcome where
  | value (v : Value)
  | fault (f : Fault)
  /-- The run was cut off. -/
  | cut (s : Stop)

/-- How a source text fares. -/
inductive Answer where
  | refused (errors : List ParseError)
  | ran (outcome : Outcome)

namespace Session

/-- The state before anything ran. -/
def start : State := {}

/-- Runs a program in a state. -/
def run (settings : Settings) (p : Program) (s : State) : Outcome × State :=
  match Eval.runProgram settings p s with
  | .ok (.ok v) s => (.value v, s)
  | .ok (.error f) s => (.fault f, s)
  | .error stop s => (.cut stop, s)

/-- Parses a source text and runs it if it is accepted. -/
def step (settings : Settings) (source : String) (s : State) : Answer × State :=
  match parse? source with
  | .error errors => (.refused errors, s)
  | .ok p =>
    let (outcome, s) := run settings p s
    (.ran outcome, s)

/-- The names of the root scope in the order of their characters. -/
def globals (s : State) : List String :=
  (s.store.scopes.names Scopes.root).mergeSort fun a b => decide (a ≤ b)

end Session

/-- The kept lines of the trace as one text. -/
def State.traceText (s : State) : String :=
  String.join (s.trace.toList.map fun line => line.text ++ "\n")

end Vorn
