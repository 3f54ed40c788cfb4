import Vorn.Command.Options
import Vorn.Dialogue
import Vorn.Tree.Document

/-!
# The command line

Without a program name the command holds a dialogue. With one it prints the tokens or the tree of
the program, or runs it.
-/

namespace Vorn.Command

def versionText : String := "vorn 0.1.0\n"

def usageText : String := "usage: vorn [-h] [-v] [-d] [--tokens | -a] [--json] [program]\n"

def helpText : String :=
  usageText ++ String.join (
    ["",
     "Vorn language interpreter",
     "",
     "positional arguments:",
     "  program        Vorn program file (.vorn) to execute",
     "",
     "options:",
     "  -h, --help     show this help message and exit",
     "  -v, --version  show program's version number and exit",
     "  -d             increase debug verbosity (can be repeated)",
     "  --tokens       print the tokens of the program",
     "  -a, --ast      print the AST of the program",
     "  --json         with --ast, print the AST as JSON"].map (· ++ "\n"))

/-- The name of the file for the trace, in the current directory. -/
def traceFile : String := "debug.txt"

/-- What a command leaves behind. -/
structure Report where
  exit : Nat := 0
  stdout : String := ""
  stderr : String := ""
  /-- The trace, if one was asked for and a program could run. -/
  trace : Option String := none
deriving DecidableEq, Repr

/-! ## Files -/

/-- What the file for the trace holds behind a command, if it held `before` in front of it. A
command without a trace leaves the file alone. -/
def Report.traceFileText? (r : Report) (before : Option String) : Option String :=
  r.trace <|> before

/-- The parts of a path between its slashes, without those that name the place itself. -/
def pathParts (path : String) : List String :=
  ((path.toList.splitOn '/').map String.ofList).filter fun part => part ≠ "" ∧ part ≠ "."

/-- A path without what does not matter: empty parts, dots and a slash at the end. Two slashes at
the head, but not more, differ from one. -/
def normalPath (path : String) : String :=
  let root := match path.toList.takeWhile (· = '/') with
    | [] => ""
    | ['/', '/'] => "//"
    | _ => "/"
  match root, pathParts path with
  | "", [] => "."
  | root, parts => root ++ String.intercalate "/" parts

/-- A carriage return ends a line, alone or before a line feed. -/
def unifyLines : List Char → List Char
  | [] => []
  | '\r' :: '\n' :: cs => '\n' :: unifyLines cs
  | '\r' :: cs => '\n' :: unifyLines cs
  | c :: cs => c :: unifyLines cs

/-! ## Ways to look at a program -/

/-- The kinds of the tokens, with a new line behind every semicolon; `line` holds the kinds of the
line so far, latest first. -/
def tokenLines (line : List Kind) : List Token → List String
  | [] => if line.isEmpty then [] else [shown line]
  | t :: ts =>
    if t.kind = .semicolon then shown (t.kind :: line) :: tokenLines [] ts
    else tokenLines (t.kind :: line) ts
where
  shown (line : List Kind) : String := String.intercalate " " (line.reverse.map Kind.text)

def printTokens (source : String) : Report :=
  { stdout := String.join ((tokenLines [] (tokens source)).map (· ++ "\n")) }

def printTree (json : Bool) (p : Program) : Report :=
  { stdout := (if json then p.document.render else p.text) ++ "\n" }

/-- The settings that a number of `-d` options asks for. -/
def settings (debug : Nat) : Settings := { traceLevel := debug }

/-- The trace of a state, if one was asked for. -/
def traceOf (debug : Nat) (s : State) : Option String :=
  if debug = 0 then none else some s.traceText

/-- Runs a program. Its result is not shown, but a fault is. `none` if the run was cut off. -/
def runProgram (debug : Nat) (p : Program) : Option Report :=
  match Session.run (settings debug) p Session.start with
  | (.value _, s) => some { stdout := s.output, trace := traceOf debug s }
  | (.fault f, s) =>
    some { exit := 1, stdout := s.output ++ f.shown ++ "\n", trace := traceOf debug s }
  | (.cut _, _) => none

/-- Does with a source text what the options ask for. -/
def withSource (o : Options) (source : String) : Option Report :=
  if o.tokens then some (printTokens source)
  else
    match parse? source with
    | .error errors => some { exit := 1, stdout := Dialogue.complaint errors }
    | .ok p => if o.tree then some (printTree o.json p) else runProgram o.debug p

/-! ## Command lines -/

/-- What a command line comes down to. -/
inductive Plan where
  | refuse (refusal : Refusal)
  | dialogue (debug : Nat)
  /-- A program is to be read from the file at `path`. -/
  | program (options : Options) (path : String)
deriving DecidableEq, Repr

/-- Reads a command line. An empty name is no name. -/
def plan (args : List String) : Plan :=
  match Options.read args with
  | .error refusal => .refuse refusal
  | .ok o =>
    match o.program.getD "" with
    | "" => .dialogue o.debug
    | name => .program o (normalPath name)

/-- The report on a command line that asks for no program. -/
def refused : Refusal → Report
  | .usage => { exit := 2, stderr := usageText }
  | .help => { stdout := helpText }
  | .version => { stdout := versionText }

/-- The report on a program whose file was looked up; `none` if its run was cut off. -/
def withFile (o : Options) (path : String) : Option String → Option Report
  | none => some { exit := 1, stderr := "Error: file " ++ path ++ " not found\n" }
  | some text => withSource o (.ofList (unifyLines text.toList))

/-- Runs a command line. `file` finds the contents of a file by its path. The result is `none` if a
run was cut off. -/
def run (args : List String) (file : String → Option String) (stdin : String) : Option Report :=
  match plan args with
  | .refuse refusal => some (refused refusal)
  | .dialogue debug =>
    (Dialogue.run (settings debug) stdin).map fun s =>
      { stdout := s.output, trace := traceOf debug s }
  | .program o path => withFile o path (file path)

end Vorn.Command
