import Vorn.Session

/-!
# Dialogues

In a dialogue every line of the input is a source text. The machine asks for a line, runs it and
shows its result or what is wrong with it.
-/

namespace Vorn.Dialogue

def prompt : String := ">> "

/-- What is wrong with a source text, one error on a line. -/
def complaint (errors : List ParseError) : String :=
  "Syntax errors:\n" ++ String.join (errors.map fun e => e.message ++ "\n")

/-- Writes to the output of a state. -/
def write (text : String) (s : State) : State := { s with output := s.output ++ text }

/-- Answers one line. A line without statements has no answer. `none` stands for a run that was
cut off, which ends the dialogue. -/
def reply (settings : Settings) (line : String) (s : State) : Option State :=
  match parse? line with
  | .error errors => some (write (complaint errors) s)
  | .ok ⟨[]⟩ => some s
  | .ok p =>
    match Session.run settings p s with
    | (.value v, s) => (s.store.inspect? v).map fun text => write (text ++ "\n") s
    | (.fault f, s) => some (write (f.shown ++ "\n") s)
    | (.cut _, _) => none

/-- The lines of a text, each with its line feed. -/
def lines (text : String) : List String := go [] text.toList
where
  go (line : List Char) : List Char → List String
    | [] => if line.isEmpty then [] else [.ofList line.reverse]
    | '\n' :: cs => .ofList ('\n' :: line).reverse :: go [] cs
    | c :: cs => go (c :: line) cs

/-- Goes through the lines and says good-bye with an empty line. -/
def runLines (settings : Settings) : List String → State → Option State
  | [], s => some (write (prompt ++ "\n") s)
  | line :: rest, s => do
    let s ← reply settings line (write prompt s)
    runLines settings rest s

/-- A whole dialogue; `none` if a run was cut off. -/
def run (settings : Settings) (input : String) : Option State :=
  runLines settings (lines input) Session.start

end Vorn.Dialogue
