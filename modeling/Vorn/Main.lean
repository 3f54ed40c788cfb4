import Vorn.Command

/-!
# The executable

Connects the command line to the terminal and to files.
-/

namespace Vorn.Main

/-- The contents of a file, if it can be read. -/
def readFile? (path : String) : IO (Option String) := do
  try return some (← IO.FS.readFile path)
  catch _ => return none

/-- What is left to say when a run was cut off. -/
def cutOff : IO UInt32 := do
  IO.eprintln "the program is nested too deeply"
  return 1

/-- Hands out a report. -/
def deliver (r : Command.Report) : IO UInt32 := do
  IO.print r.stdout
  IO.eprint r.stderr
  if let some text := r.trace then IO.FS.writeFile Command.traceFile text
  return r.exit.toUInt32

/-- Holds a dialogue on the terminal, a line at a time. -/
partial def converse (settings : Settings) (s : State) : IO (Option State) := do
  IO.print Dialogue.prompt
  (← IO.getStdout).flush
  let line ← (← IO.getStdin).getLine
  if line.isEmpty then
    IO.println ""
    return some s
  match Dialogue.reply settings line { s with output := "" } with
  | none => return none
  | some s =>
    IO.print s.output
    converse settings s

def run (args : List String) : IO UInt32 := do
  match Command.plan args with
  | .refuse refusal => deliver (Command.refused refusal)
  | .dialogue debug =>
    match ← converse (Command.settings debug) Session.start with
    | none => cutOff
    | some s => deliver { trace := Command.traceOf debug s }
  | .program o path =>
    match Command.withFile o path (← readFile? path) with
    | none => cutOff
    | some r => deliver r

end Vorn.Main

def main (args : List String) : IO UInt32 := Vorn.Main.run args
