import Vorn.Text.Digit

/-!
# The options of the command line

Options may stand before and behind the program name. A long option may be cut short as long as it
stays clear which one is meant, and short options may share a dash. No option takes a value: an
equals sign behind a long option is refused, and behind a short one it is skipped, so that more
short options follow. Behind `--` nothing is an option.
-/

namespace Vorn.Command

/-- What an option asks for. -/
inductive Flag where
  | help | version | debug | tokens | tree | json
deriving DecidableEq, Repr

/-- All spellings of the options. -/
def spellings : List (String × Flag) :=
  [("-h", .help), ("--help", .help), ("-v", .version), ("--version", .version), ("-d", .debug),
   ("--tokens", .tokens), ("-a", .tree), ("--ast", .tree), ("--json", .json)]

/-- What the command line asks for. -/
structure Options where
  /-- How often `-d` was given. -/
  debug : Nat := 0
  tokens : Bool := false
  tree : Bool := false
  json : Bool := false
  program : Option String := none
deriving DecidableEq, Repr

/-- Why no program is run. -/
inductive Refusal where
  | usage
  | help
  | version
deriving DecidableEq, Repr

/-- How an argument is read. -/
inductive Argument where
  /-- An option, with the letters that share its dash. -/
  | option (flag : Flag) (group : List Char)
  /-- An option with a value. -/
  | valued
  | unknown
  | separator
  | plain (text : String)
deriving DecidableEq, Repr

/-- The texts before and behind the first equals sign, if there is one. -/
def splitEquals? (cs : List Char) : Option (String × List Char) :=
  match cs.dropWhile (· != '=') with
  | [] => none
  | _ :: value => some (.ofList (cs.takeWhile (· != '=')), value)

/-- A line without its line feed. -/
def chomp (cs : List Char) : List Char := if cs.getLast? = some '\n' then cs.dropLast else cs

/-- A dash and digits, with or without a point: a number rather than an option. A line feed may
stand behind it. -/
def looksNegative (cs : List Char) : Bool :=
  match chomp cs with
  | '-' :: cs =>
    let digit (c : Char) : Bool := (Text.decimal? c).isSome
    match cs.dropWhile digit with
    | [] => !cs.isEmpty
    | '.' :: fraction => !fraction.isEmpty && fraction.all digit
    | _ => false
  | _ => false

/-- A fully spelled option with an equals sign behind it. -/
def withEquals? (cs : List Char) : Option Argument := do
  let (name, value) ← splitEquals? cs
  let flag ← spellings.lookup name
  return if name.length = 2 ∧ value ≠ [] then .option flag value else .valued

/-- The options that a cut-short or grouped spelling can stand for. -/
def candidates (arg : String) : List Argument :=
  match arg.toList with
  | '-' :: '-' :: _ =>
    let (head, valued) := match splitEquals? arg.toList with
      | some (head, _) => (head, true)
      | none => (arg, false)
    (spellings.filter fun (s, _) => head.toList.isPrefixOf s.toList).map
      fun (_, flag) => if valued then .valued else .option flag []
  | '-' :: c :: rest =>
    ((spellings.lookup (.ofList ['-', c])).map fun flag => .option flag rest).toList
  | _ => []

/-- Reads one argument before any `--`. -/
def classify (arg : String) : Except Refusal Argument :=
  let cs := arg.toList
  if cs.head? ≠ some '-' ∨ cs.length = 1 then .ok (.plain arg)
  else
    match spellings.lookup arg, withEquals? cs with
    | some flag, _ => .ok (.option flag [])
    | none, some a => .ok a
    | none, none =>
      match candidates arg with
      | [a] => .ok a
      | [] => .ok (if looksNegative cs ∨ ' ' ∈ cs then .plain arg else .unknown)
      | _ => .error .usage

/-- Reads all arguments. -/
def classifyAll : List String → Except Refusal (List Argument)
  | [] => .ok []
  | "--" :: rest => .ok (.separator :: rest.map .plain)
  | arg :: rest => do return (← classify arg) :: (← classifyAll rest)

/-- What was read so far. -/
structure Progress where
  options : Options := {}
  /-- The place of the program name is taken. -/
  named : Bool := false
  /-- Something was left over. -/
  surplus : Bool := false

/-- Does what an option asks for. The two ways to print a program exclude each other. -/
def Progress.apply (p : Progress) : Flag → Except Refusal Progress
  | .help => .error .help
  | .version => .error .version
  | .debug => .ok { p with options := { p.options with debug := p.options.debug + 1 } }
  | .json => .ok { p with options := { p.options with json := true } }
  | .tokens =>
    if p.options.tree then .error .usage
    else .ok { p with options := { p.options with tokens := true } }
  | .tree =>
    if p.options.tokens then .error .usage
    else .ok { p with options := { p.options with tree := true } }

/-- The options that the letters of a group stand for. One letter that is no option is enough to
refuse the group before anything of it is done. -/
def letters (group : List Char) : Except Refusal (List Flag) :=
  group.mapM fun c =>
    match spellings.lookup (.ofList ['-', c]) with
    | some flag => .ok flag
    | none => .error .usage

def isPlain : Argument → Bool
  | .plain _ | .separator => true
  | _ => false

/-- Arguments between options: the first one names the program if none did before. -/
def Progress.takeNames (p : Progress) (names : List Argument) : Progress :=
  if p.named then { p with surplus := true }
  else
    let p := { p with named := true }
    match names.dropWhile (· = .separator) with
    | .plain name :: rest =>
      { p with
        options := { p.options with program := some name }
        surplus := p.surplus || !(rest.dropWhile (· = .separator)).isEmpty }
    | _ => p

/-- Goes through the arguments from left to right. -/
def collect (p : Progress) (args : List Argument) : Except Refusal Progress :=
  match args with
  | [] => .ok p
  | .option flag group :: rest => do
    let flags ← letters group
    collect (← (flag :: flags).foldlM Progress.apply p) rest
  | .valued :: _ => .error .usage
  | .unknown :: rest => collect { p with surplus := true } rest
  | a :: rest =>
    collect (p.takeNames (a :: rest.takeWhile isPlain)) (rest.dropWhile isPlain)
termination_by args.length
decreasing_by
  all_goals simp only [List.length_cons]
  · omega
  · omega
  · have := (List.dropWhile_sublist isPlain (l := rest)).length_le
    omega

/-- Reads a command line. A program can only be printed if one is named. -/
def Options.read (args : List String) : Except Refusal Options := do
  let p ← collect {} (← classifyAll args)
  let o := p.options
  if p.surplus then throw .usage
  if o.program.getD "" = "" ∧ (o.tokens ∨ o.tree) then throw .usage
  return o

end Vorn.Command
