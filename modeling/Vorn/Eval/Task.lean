import Vorn.Eval.Operator
import Vorn.Eval.StringMethod

/-!
# Evaluation

The functions below are the scripts of tasks; `eval` plays them, with a bound on how deeply tasks
may nest.
-/

namespace Vorn

namespace Eval

open Run Script

/-- The result of an operator. -/
def ofResult : Operator.Result → Run Value
  | .ok v => return v
  | .error f => throw (.fault f)

/-- A part that the grammar guarantees. -/
def present {α : Type} : Option α → Run α
  | some a => return a
  | none => throw .incomplete

/-- A truth value as the trace writes it. -/
def verdict (b : Bool) : String := if b then "True" else "False"

section

variable (settings : Settings)

/-! ## Calls -/

/-- Evaluates expressions from left to right. -/
def evalAll (scope : ScopeRef) : List Expr → Script (List Value)
  | [] => return []
  | e :: es => do
    let v ← ask (.expr e scope)
    return v :: (← evalAll scope es)

/-- Binds parameters to arguments; of two parameters with one name the later counts. -/
def bindAll (scope : ScopeRef) : List String → List Value → Run Unit
  | p :: ps, v :: vs => do
    Run.bind scope p v
    bindAll scope ps vs
  | _, _ => return ()

/-- Runs the body of a function that is called at `pos`; exhaustion inside it is a fault there. -/
def runBody (pos : Pos) (body : Block) (scope : ScopeRef) : Script Value := fun s =>
  .ask (.block body scope) s fun
    | .error .exhausted s => .done (.error (.fault ⟨pos, .stackOverflow⟩) s)
    | ending => .done ending

/-- Calls a function of the program. Its value is what `return` gives, or `null`. -/
def applyClosure (pos : Pos) (c : Closure) (args : List Value) : Script Value := do
  if args.length ≠ c.params.length then
    fault pos (.parameterCount c.params.length args.length)
  trace settings 2 do
    let shown ← args.mapM inspect
    return "call func" ++ parenthesized c.params ++ " with " ++ parenthesized shown
  let scope ← enclose c.scope
  bindAll scope c.params args
  match ← runBody pos c.body scope with
  | .returned _ v _ => return v
  | .break _ p => fault p .breakOutside
  | .continue _ p => fault p .continueOutside
  | _ => return .null

/-- Calls a built-in function. -/
def applyBuiltin (pos : Pos) (b : Builtin) (args : List Value) : Script Value := do
  if let some n := b.arity then
    if args.length ≠ n then fault pos (.builtinCount args.length n.repr)
  trace settings 2 (return "call builtin " ++ b.name)
  b.run settings pos args

/-- Calls a value. -/
def apply (pos : Pos) (f : Value) (args : List Value) : Script Value :=
  match f with
  | .function c => applyClosure settings pos c args
  | .builtin b => applyBuiltin settings pos b args
  | v => fault pos (.notFunction v.ty)

/-- Calls a method by its name, which stands at `namePos`. -/
def callMethod (receiver : Value) (namePos : Pos) (name : String) (args : List Value) :
    Script Value :=
  match receiver with
  | .array r _ =>
    match ArrayMethod.ofName? name with
    | some m => m.run settings r receiver args
    | none => fault namePos (.noMethod .array name)
  | .string s pos =>
    match StringMethod.ofName? name with
    | some m => m.run s pos args
    | none => fault namePos (.noMethod .string name)
  | .hash r pos =>
    match HashMethod.ofName? name with
    | some m => m.run r pos args
    | none => fault namePos (.noMethod .object name)
  | v => fault namePos (.noMembers v.ty name)

/-! ## Expressions -/

/-- The value of a name: the nearest binding, or else the built-in function. -/
def evalName (scope : ScopeRef) (pos : Pos) (name : String) : Run Value := do
  match (← store).scopes.get? scope name with
  | some (v, _) => return v
  | none =>
    match Builtin.ofName? name with
    | some b => return .builtin b
    | none => fault pos (.notFound name)

/-- Fills a hash from left to right. -/
def evalPairs (scope : ScopeRef) (t : Table) : List (Expr × Expr) → Script Table
  | [] => return t
  | (k, v) :: rest => do
    let key ← ask (.expr k scope)
    match key.key? with
    | none => fault key.pos (.notHashable key.ty)
    | some k =>
      let value ← ask (.expr v scope)
      evalPairs scope (t.insert k key.pos value) rest

/-- A binary operator. `&&` and `||` look at their second operand only if the first leaves the
answer open. -/
def evalBinary (scope : ScopeRef) (pos : Pos) (op : BinaryOp) (l r : Expr) : Script Value := do
  let left ← ask (.expr l scope)
  match op with
  | .and =>
    if left.isTruthy then return .bool (← ask (.expr r scope)).isTruthy else return .bool false
  | .or =>
    if left.isTruthy then return .bool true else return .bool (← ask (.expr r scope)).isTruthy
  | op =>
    let right ← ask (.expr r scope)
    ofResult (Operator.binary pos op left right)

/-- A condition of an `if` or a loop, for which the trace uses `word`. -/
def evalCondition (word : String) (scope : ScopeRef) (condition : Expr) : Script Bool := do
  let v ← ask (.expr condition scope)
  trace settings 3 do
    return word ++ " condition " ++ (← inspect v) ++ " -> " ++ verdict v.isTruthy
  return v.isTruthy

def evalCond (scope : ScopeRef) (condition : Option Expr) (consequence : Block)
    (alternative : Option Block) : Script Value := do
  if ← evalCondition settings "if" scope (← present condition) then
    ask (.block consequence scope)
  else
    match alternative with
    | some b => ask (.block b scope)
    | none => return .null

/-- The element of an array at an index, which counts from the end if it is negative. -/
def elementAt (vs : Array Value) (i : Int) : Value :=
  let i := if i < 0 then i + vs.size else i
  if i < 0 then .null else vs.getD i.toNat .null

/-- Indexing gives `null` for what is not there. -/
def evalIndex (collection key : Value) : Run Value := do
  match collection, key with
  | .array r _, .int i _ => return elementAt (← elements r) i
  | .hash r _, key =>
    match key.key? with
    | none => fault key.pos (.notHashable key.ty)
    | some k => return (((← store).table r).get? k).getD .null
  | v, key => fault key.pos (.notIndexable v.ty)

/-- Assigns to the nearest binding of the name; the binding is looked up first. -/
def evalAssign (scope : ScopeRef) (pos : Pos) (name : String) (value : Expr) : Script Value := do
  match (← store).scopes.get? scope name with
  | none => fault pos (.notInitialized name)
  | some (_, target) =>
    let v ← ask (.expr value scope)
    Run.bind target name v
    trace settings 2 (return "assign " ++ name ++ " = " ++ (← inspect v))
    return v

/-- A step changes the variable; its value is the new one if the operator stands before the
variable, and the old one otherwise. -/
def evalStep (scope : ScopeRef) (pos : Pos) (op : StepOp) (name : String) (before : Bool) :
    Run Value := do
  match (← store).scopes.get? scope name with
  | none => fault pos (.notInitialized name)
  | some (old, target) =>
    let new ← ofResult (Operator.step pos op before old)
    Run.bind target name new
    return if before then new else old

/-- A function made at `pos` in `scope`. -/
def makeClosure (scope : ScopeRef) (pos : Pos) (params : List String) (body : Block) :
    Run Value := do
  return .function { id := ← newId, params, body, scope, pos }

def evalExpr (scope : ScopeRef) : Expr → Script Value
  | .ident pos name => evalName scope pos name
  | .int pos _ n => return .int n pos
  | .float pos _ x => return .float x pos
  | .bool _ b => return .bool b
  | .null _ => return .null
  | .string pos s => return .string s pos
  | .array pos es => do newArray (← evalAll scope es).toArray pos
  | .hash pos ps => do newTable (← evalPairs scope .empty ps) pos
  | .func pos params body => makeClosure scope pos params body
  | .unary pos op e => do ofResult (Operator.unary pos op (← ask (.expr e scope)))
  | .binary pos op l r => evalBinary scope pos op l r
  | .cond _ condition consequence alternative =>
    evalCond settings scope condition consequence alternative
  | .call pos callee args => do
    let f ← ask (.expr callee scope)
    let vs ← evalAll scope args
    ask (.apply pos f vs)
  | .index _ collection key => do
    let v ← ask (.expr collection scope)
    let k ← ask (.expr key scope)
    evalIndex v k
  | .member _ receiver namePos name => do
    let v ← ask (.expr receiver scope)
    fault namePos (.noMembers v.ty name)
  | .method _ receiver namePos name _ args => do
    let v ← ask (.expr receiver scope)
    let vs ← evalAll scope args
    callMethod settings v namePos name vs
  | .assign pos name value => evalAssign settings scope pos name value
  | .step pos op name before => evalStep scope pos op name before
  | .break pos => return .break (← newId) pos
  | .continue pos => return .continue (← newId) pos

/-! ## Statements -/

/-- Runs statements until one yields a signal. -/
def runStatements (scope : ScopeRef) : List Stmt → Script Value
  | [] => return .null
  | s :: ss => do
    let v ← ask (.stmt s scope)
    if v.isSignal then return v else runStatements scope ss

/-- Refuses a name that the scope itself binds. -/
def checkFree (scope : ScopeRef) (pos : Pos) (name : String) : Run Unit := do
  if (← store).scopes.contains scope name then fault pos (.alreadyDefined name)

def runDeclaration (scope : ScopeRef) (pos : Pos) (isConst : Bool) (name : String) (value : Expr) :
    Script Value := do
  checkFree scope pos name
  let v ← ask (.expr value scope)
  Run.bind scope name v
  trace settings 2 do
    let word := if isConst then "const " else "let "
    return "declare " ++ word ++ name ++ " = " ++ (← inspect v)
  return .null

def runFunction (scope : ScopeRef) (pos : Pos) (name : String) (params : List String)
    (body : Block) : Run Value := do
  checkFree scope pos name
  Run.bind scope name (← makeClosure scope pos params body)
  trace settings 2 (return "define function " ++ name)
  return .null

/-- What the body of a loop says about going on: a value ends the loop. -/
def loopEnd? : Value → Option Value
  | .break _ _ => some .null
  | .returned id v pos => some (.returned id v pos)
  | _ => none

/-- Whether a loop goes on; without a condition it does. -/
def proceeds (word : String) (scope : ScopeRef) : Option Expr → Script Bool
  | some c => evalCondition settings word scope c
  | none => return true

/-- Runs the update of a `for`, if there is one. -/
def runUpdate (scope : ScopeRef) : Option Expr → Script Unit
  | some u => do let _ ← ask (.expr u scope)
  | none => return ()

/-- Goes round a loop; `condition` and `update` may be missing. -/
def runLoop (word : String) (scope : ScopeRef) (condition update : Option Expr) (body : Block) :
    (fuel : Nat) → (iteration : Nat) → Script Value
  | 0, _ => (throw .outOfFuel : Run Value)
  | fuel + 1, iteration => do
    if ← proceeds settings word scope condition then
      trace settings 3 (return word ++ " iteration " ++ iteration.repr)
      let v ← ask (.block body scope)
      match loopEnd? v with
      | some result => return result
      | none =>
        runUpdate scope update
        runLoop word scope condition update body fuel (iteration + 1)
    else return .null

/-- Runs the first clause of a `for`, if there is one. -/
def runInit (scope : ScopeRef) : Option Stmt → Script Unit
  | some s => do let _ ← ask (.stmt s scope)
  | none => return ()

/-- A `for` has a scope of its own around its clauses and its body. -/
def runFor (scope : ScopeRef) (init : Option Stmt) (condition update : Option Expr) (body : Block) :
    Script Value := do
  let scope ← enclose scope
  runInit scope init
  runLoop settings "for" scope condition update body settings.iterations 1

def runStmt (scope : ScopeRef) : Stmt → Script Value
  | .expr _ _ e => evalExpr settings scope e
  | .declare pos isConst name value => runDeclaration settings scope pos isConst name value
  | .return pos none => return .returned (← newId) .null pos
  | .return pos (some e) => do
    let v ← ask (.expr e scope)
    return .returned (← newId) v pos
  | .while _ condition body => do
    let condition ← present condition
    runLoop settings "while" scope (some condition) none body settings.iterations 1
  | .for _ init condition update body => runFor settings scope init condition update body
  | .func pos name params body => runFunction settings scope pos name params body

/-- The script of a task. -/
def runTask : Task → Script Value
  | .expr e scope => evalExpr settings scope e
  | .stmt s scope => runStmt settings scope s
  | .block b scope => do
    let inner ← enclose scope
    runStatements inner b.statements
  | .apply pos f args => apply settings pos f args

end

/-- Does a task whose tasks nest at most `depth` deep. -/
def eval (settings : Settings) : (depth : Nat) → Task → Run Value
  | 0, _ => throw .exhausted
  | depth + 1, t => (runTask settings t).perform (eval settings depth)

/-! ## Programs -/

/-- Runs the statements of a program; `last` is the value of the one before. A `return` ends the
program, and a loop signal is a fault. -/
def runTopLevel (last : Value) : List Stmt → Script Value
  | [] => return last
  | s :: ss => do
    match ← ask (.stmt s Scopes.root) with
    | .returned _ v _ => return v
    | .break _ p => fault p .breakOutside
    | .continue _ p => fault p .continueOutside
    | v => runTopLevel v ss

/-- Turns a fault into a result. -/
def settle {α : Type} (r : Run α) : Run (Except Fault α) := fun s =>
  match r s with
  | .ok a s => .ok (.ok a) s
  | .error (.fault f) s => .ok (.error f) s
  | .error stop s => .error stop s

/-- How the result of a program is shown. -/
def shown : Except Fault Value → Run String
  | .ok v => inspect v
  | .error f => return f.shown

/-- Runs a program in the root scope. -/
def runProgram (settings : Settings) (p : Program) : Run (Except Fault Value) := do
  trace settings 1 (return "run program (" ++ p.statements.length.repr ++ " statements)")
  let result ← settle ((runTopLevel .null p.statements).perform (eval settings settings.depth))
  trace settings 1 (return "program finished: " ++ (← shown result))
  return result

end Eval

end Vorn
