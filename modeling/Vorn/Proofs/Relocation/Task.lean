import Vorn.Proofs.Eval.History
import Vorn.Proofs.Relocation.Method
import Vorn.Session

/-!
# Evaluation at other places

The script of every task does the same for the moved task: `Eval.moves_runTask`. By induction on
the depth, so does evaluation (`Eval.moves_eval`), and a program whose nodes are moved ends as it
did (`Session.run_move`).
-/

namespace Vorn

variable {f : Relocation}

open Run Script

namespace Eval

variable {settings : Settings}

/-! ## Operators -/

section Operators

variable (pos : Pos)

theorem moves_unary (op : UnaryOp) (v : Value) :
    Run.Moves f (Value.move f) (ofResult (Operator.unary pos op v))
      (ofResult (Operator.unary (f.place pos) op (v.move f))) := by
  cases op with
  | not =>
    simp only [Operator.unary, Value.isTruthy_move]
    exact .pure (Value.bool (!v.isTruthy))
  | negate =>
    cases v with
    | int n => exact .pure (Value.int (Word.wrap (-n)) pos)
    | float x => exact .pure (Value.float (-x) pos)
    | null => exact moves_fault_at (v := .null) .negated
    | bool b => exact moves_fault_at (v := .bool b) .negated
    | builtin b => exact moves_fault_at (v := .builtin b) .negated
    | _ => exact .fault _ _
  | complement =>
    cases v with
    | int n => exact .pure (Value.int (Word.complement n) pos)
    | _ => exact .fault _ _

theorem moves_integers (op : BinaryOp) (a b : Int) :
    Run.Moves f (Value.move f) (ofResult (Operator.integers pos op a b))
      (ofResult (Operator.integers (f.place pos) op a b)) := by
  cases op with
  | mod | shiftLeft | shiftRight =>
    simp only [Operator.integers, apply_ite ofResult]
    exact .ite (.fault _ _) (.pure _)
  | and | or => exact .fault _ _
  | _ => exact .pure _

theorem moves_floats (op : BinaryOp) (l r : Ty) (a b : Float) :
    Run.Moves f (Value.move f) (ofResult (Operator.floats pos op l r a b))
      (ofResult (Operator.floats (f.place pos) op l r a b)) := by
  cases op <;> first | exact .pure _ | exact .fault _ _

theorem moves_strings (op : BinaryOp) (a b : String) :
    Run.Moves f (Value.move f) (ofResult (Operator.strings pos op a b))
      (ofResult (Operator.strings (f.place pos) op a b)) := by
  cases op <;> first | exact .pure _ | exact .fault _ _

theorem moves_others (op : BinaryOp) (l r : Value) :
    Run.Moves f (Value.move f) (ofResult (Operator.others pos op l r))
      (ofResult (Operator.others (f.place pos) op (l.move f) (r.move f))) := by
  cases op with
  | eq =>
    simp only [Operator.others, Value.equal_move]
    exact .pure (Value.bool (l.equal r))
  | ne =>
    simp only [Operator.others, Value.equal_move]
    exact .pure (Value.bool (!l.equal r))
  | _ =>
    simp only [Operator.others, Value.ty_move, apply_ite ofResult]
    exact .ite (.fault _ _) (.fault _ _)

theorem moves_binary (op : BinaryOp) (l r : Value) :
    Run.Moves f (Value.move f) (ofResult (Operator.binary pos op l r))
      (ofResult (Operator.binary (f.place pos) op (l.move f) (r.move f))) := by
  have hothers := @moves_others f pos op l r
  cases l with
  | int a =>
    cases r with
    | int b => exact moves_integers pos op a b
    | float b => exact moves_floats pos op .integer .float (.ofInt a) b
    | _ => exact hothers
  | float a =>
    cases r with
    | int b => exact moves_floats pos op .float .integer a (.ofInt b)
    | float b => exact moves_floats pos op .float .float a b
    | _ => exact hothers
  | string a =>
    cases r with
    | string b => exact moves_strings pos op a b
    | _ => exact hothers
  | _ => exact hothers

theorem moves_step (op : StepOp) (before : Bool) (v : Value) :
    Run.Moves f (Value.move f) (ofResult (Operator.step pos op before v))
      (ofResult (Operator.step (f.place pos) op before (v.move f))) := by
  cases v with
  | int n => exact .pure (Value.int (Word.wrap (n + op.amount)) pos)
  | float x => exact .pure (Value.float (x + Float.ofInt op.amount) pos)
  | _ => exact .fault _ _

end Operators

/-! ## Calls -/

variable (scope : ScopeRef)

theorem moves_evalAll (es : List Expr) :
    Moves f (List.map (Value.move f)) (evalAll scope es)
      (evalAll scope (Expr.markAll (.moved f.place) es)) := by
  induction es with
  | nil => exact .pure []
  | cons e es ih =>
    exact .bind (.ask (.expr e scope)) fun v => .bind ih fun vs => .pure (v :: vs)

theorem moves_bindAll : ∀ (ps : List String) (vs : List Value),
    Run.Moves f id (bindAll scope ps vs) (bindAll scope ps (vs.map (Value.move f)))
  | [], _ | _ :: _, [] => .pure ()
  | p :: ps, v :: vs => .bind (moves_bind scope p v) fun _ => moves_bindAll ps vs

theorem moves_runBody (pos : Pos) (body : Block) :
    Moves f (Value.move f) (runBody pos body scope)
      (runBody (f.place pos) (body.mark (.moved f.place)) scope) := by
  refine fun s => ⟨_, rfl, fun ending ending' h => ?_⟩
  cases h with
  | ok v s' => exact ⟨_, rfl, .ok v s'⟩
  | @error stop _ s' h =>
    cases h with
    | moved =>
      cases stop with
      | exhausted => exact ⟨_, rfl, .error s' (.moved (.fault ⟨pos, .stackOverflow⟩))⟩
      | fault x => exact ⟨_, rfl, .error s' (.moved (.fault x))⟩
      | outOfFuel => exact ⟨_, rfl, .error s' (.moved .outOfFuel)⟩
      | incomplete => exact ⟨_, rfl, .error s' (.moved .incomplete)⟩
    | builtin h => exact ⟨_, rfl, .error s' (.builtin h)⟩

theorem moves_applyClosure (pos : Pos) (c : Closure) (args : List Value) :
    Moves f (Value.move f) (applyClosure settings pos c args)
      (applyClosure settings (f.place pos) (c.move f) (args.map (Value.move f))) := by
  unfold applyClosure
  rw [List.length_map]
  have hshown : Run.Moves f id (args.mapM inspect) ((args.map (Value.move f)).mapM inspect) := by
    have h := @Run.Moves.mapM f _ id _ (Value.move f) inspect inspect moves_inspect args
    rwa [List.map_id_fun] at h
  refine .check (.lift (.fault _ _)) fun _ => ?_
  refine .bind (.lift (moves_trace (.bind hshown fun _ => .pure _))) fun _ => ?_
  refine .bind (.lift (moves_enclose c.scope)) fun r => ?_
  refine .bind (.lift (moves_bindAll r c.params args)) fun _ => ?_
  refine .bind (moves_runBody r pos c.body) fun v => ?_
  cases v with
  | returned _ v => exact .pure v
  | «break» | «continue» => exact .lift (.fault _ _)
  | _ => exact .pure Value.null

theorem moves_applyBuiltin (pos : Pos) (b : Builtin) (args : List Value) :
    Moves f (Value.move f) (applyBuiltin settings pos b args)
      (applyBuiltin settings (f.place pos) b (args.map (Value.move f))) := by
  unfold applyBuiltin
  rw [List.length_map]
  have hrun : Moves f (Value.move f)
      (do
        trace settings 2 (return "call builtin " ++ b.name)
        b.run settings pos args)
      (do
        trace settings 2 (return "call builtin " ++ b.name)
        b.run settings (f.place pos) (args.map (Value.move f))) :=
    .bind (.lift (moves_trace (.pure _))) fun _ => Builtin.moves_run pos settings b args
  cases b.arity with
  | none => exact hrun
  | some n => exact .check (.lift (.fault _ _)) fun _ => hrun

theorem moves_apply (pos : Pos) (v : Value) (args : List Value) :
    Moves f (Value.move f) (apply settings pos v args)
      (apply settings (f.place pos) (v.move f) (args.map (Value.move f))) := by
  cases v with
  | function c => exact moves_applyClosure pos c args
  | builtin b => exact moves_applyBuiltin pos b args
  | _ => exact .lift (.fault _ _)

theorem moves_callMethod (receiver : Value) (namePos : Pos) (name : String) (args : List Value) :
    Moves f (Value.move f) (callMethod settings receiver namePos name args)
      (callMethod settings (receiver.move f) (f.place namePos) name
        (args.map (Value.move f))) := by
  cases receiver with
  | array r pos =>
    simp only [callMethod, Value.move]
    cases ArrayMethod.ofName? name with
    | some m => exact ArrayMethod.moves_run m settings r pos args
    | none => exact .lift (.fault _ _)
  | string s pos =>
    simp only [callMethod, Value.move]
    cases StringMethod.ofName? name with
    | some m => exact .lift (StringMethod.moves_run m pos s args)
    | none => exact .lift (.fault _ _)
  | hash r pos =>
    simp only [callMethod, Value.move]
    cases HashMethod.ofName? name with
    | some m => exact .lift (HashMethod.moves_run m r pos args)
    | none => exact .lift (.fault _ _)
  | _ => exact .lift (.fault _ _)

/-! ## Expressions -/

theorem moves_evalName (pos : Pos) (name : String) :
    Run.Moves f (Value.move f) (evalName scope pos name) (evalName scope (f.place pos) name) := by
  refine .bind moves_store fun s => ?_
  simp only [Store.move, Scopes.get?_map]
  cases s.scopes.get? scope name with
  | some b => exact .pure b.1
  | none =>
    cases Builtin.ofName? name with
    | some b => exact .pure (Value.builtin b)
    | none => exact .fault _ _

theorem moves_evalPairs (t : Table) (ps : List (Expr × Expr)) :
    Moves f (Table.move f) (evalPairs scope t ps)
      (evalPairs scope (t.move f) (Expr.markPairs (.moved f.place) ps)) := by
  induction ps generalizing t with
  | nil => exact .pure t
  | cons p ps ih =>
    obtain ⟨k, v⟩ := p
    rw [Expr.markPairs, evalPairs, evalPairs]
    refine .bind (.ask (.expr k scope)) fun key => ?_
    rw [Value.key?_move, Value.ty_move]
    cases hkey : key.key? with
    | none => exact .lift (moves_fault_at .key)
    | some k =>
      refine .bind (.ask (.expr v scope)) fun value => ?_
      rw [Value.pos_move f (Value.ty_ne_builtin_of_key? hkey), Table.insert_move]
      exact ih (t.insert k key.pos value)

theorem moves_truth (e : Expr) :
    Moves f (Value.move f) (do return .bool (← ask (.expr e scope)).isTruthy)
      (do return .bool (← ask (.expr (e.mark (.moved f.place)) scope)).isTruthy) := by
  refine .bind (.ask (.expr e scope)) fun v => ?_
  rw [Value.isTruthy_move]
  exact .pure (Value.bool v.isTruthy)

theorem moves_evalBinary (pos : Pos) (op : BinaryOp) (l r : Expr) :
    Moves f (Value.move f) (evalBinary scope pos op l r)
      (evalBinary scope (f.place pos) op (l.mark (.moved f.place)) (r.mark (.moved f.place))) := by
  unfold evalBinary
  refine .bind (.ask (.expr l scope)) fun left => ?_
  rw [Value.isTruthy_move]
  cases op with
  | and => exact .ite (moves_truth scope r) (.pure (Value.bool false))
  | or => exact .ite (.pure (Value.bool true)) (moves_truth scope r)
  | _ =>
    exact .bind (.ask (.expr r scope)) fun right => .lift (moves_binary pos _ left right)

theorem moves_evalCondition (word : String) (condition : Expr) :
    Moves f id (evalCondition settings word scope condition)
      (evalCondition settings word scope (condition.mark (.moved f.place))) := by
  unfold evalCondition
  refine .bind (.ask (.expr condition scope)) fun v => ?_
  rw [Value.isTruthy_move]
  exact .bind (.lift (moves_trace (.bind (moves_inspect v) fun _ => .pure _))) fun _ => .pure _

theorem moves_present {α : Type} (g : α → α) (o : Option α) :
    Run.Moves f g (present o) (present (o.map g)) := by
  cases o with
  | none => exact .throw .incomplete
  | some a => exact .pure a

theorem moves_evalCond (condition : Option Expr) (consequence : Block)
    (alternative : Option Block) :
    Moves f (Value.move f) (evalCond settings scope condition consequence alternative)
      (evalCond settings scope (Expr.markOption (.moved f.place) condition)
        (consequence.mark (.moved f.place)) (Block.markOption (.moved f.place) alternative)) := by
  unfold evalCond
  rw [Expr.markOption_eq_map]
  refine .bind (.lift (moves_present _ condition)) fun c => ?_
  refine .bind (moves_evalCondition scope "if" c) fun _ => .ite (.ask (.block consequence scope)) ?_
  cases alternative with
  | none => exact .pure Value.null
  | some b => exact .ask (.block b scope)

theorem elementAt_move (vs : Array Value) (i : Int) :
    elementAt (vs.map (Value.move f)) i = (elementAt vs i).move f := by
  simp only [elementAt, Array.size_map, Array.getD_eq_getD_getElem?, Array.getElem?_map]
  split
  · split
    · rfl
    · cases vs[(i + vs.size).toNat]? <;> rfl
  · cases vs[i.toNat]? <;> rfl

theorem moves_evalIndex (collection key : Value) :
    Run.Moves f (Value.move f) (evalIndex collection key)
      (evalIndex (collection.move f) (key.move f)) := by
  cases collection with
  | array r p =>
    cases key with
    | int i q =>
      refine .bind (moves_elements r) fun vs => ?_
      rw [elementAt_move]
      exact .pure (elementAt vs i)
    | _ => exact moves_fault_at (.index .array)
  | hash r p =>
    simp only [evalIndex, Value.move, Value.key?_move, Value.ty_move]
    cases key.key? with
    | none => exact moves_fault_at .key
    | some k =>
      refine .bind moves_store fun s => ?_
      rw [Store.table_move, Table.get?_move]
      cases (s.table r).get? k with
      | none => exact .pure Value.null
      | some v => exact .pure v
  | _ => exact moves_fault_at (.index _)

theorem moves_evalAssign (pos : Pos) (name : String) (value : Expr) :
    Moves f (Value.move f) (evalAssign settings scope pos name value)
      (evalAssign settings scope (f.place pos) name (value.mark (.moved f.place))) := by
  unfold evalAssign
  refine .bind (.lift moves_store) fun s => ?_
  simp only [Store.move, Scopes.get?_map]
  cases s.scopes.get? scope name with
  | none => exact .lift (.fault _ _)
  | some b =>
    refine .bind (.ask (.expr value scope)) fun v => ?_
    refine .bind (.lift (moves_bind b.2 name v)) fun _ => ?_
    exact .bind (.lift (moves_trace (.bind (moves_inspect v) fun _ => .pure _))) fun _ => .pure v

theorem moves_evalStep (pos : Pos) (op : StepOp) (name : String) (before : Bool) :
    Run.Moves f (Value.move f) (evalStep scope pos op name before)
      (evalStep scope (f.place pos) op name before) := by
  refine .bind moves_store fun s => ?_
  simp only [Store.move, Scopes.get?_map]
  cases s.scopes.get? scope name with
  | none => exact .fault _ _
  | some b =>
    refine .bind (moves_step pos op before b.1) fun new => ?_
    refine .bind (moves_bind b.2 name new) fun _ => ?_
    cases before with
    | true => exact .pure new
    | false => exact .pure b.1

theorem moves_makeClosure (pos : Pos) (params : List String) (body : Block) :
    Run.Moves f (Value.move f) (makeClosure scope pos params body)
      (makeClosure scope (f.place pos) params (body.mark (.moved f.place))) :=
  .bind moves_newId fun id => .pure (Value.function { id, params, body, scope, pos })

theorem moves_evalExpr (e : Expr) :
    Moves f (Value.move f) (evalExpr settings scope e)
      (evalExpr settings scope (e.mark (.moved f.place))) := by
  cases e with
  | ident pos name => exact .lift (moves_evalName scope pos name)
  | int pos written n => exact .pure (Value.int n pos)
  | float pos written x => exact .pure (Value.float x pos)
  | bool pos b => exact .pure (Value.bool b)
  | null => exact .pure Value.null
  | string pos s => exact .pure (Value.string s pos)
  | array pos es =>
    exact .bind (moves_evalAll scope es) fun vs => .lift (moves_newArray_toArray vs pos)
  | hash pos ps =>
    exact .bind (moves_evalPairs scope .empty ps) fun t => .lift (moves_newTable t pos)
  | func pos params body => exact .lift (moves_makeClosure scope pos params body)
  | unary pos op e => exact .bind (.ask (.expr e scope)) fun v => .lift (moves_unary pos op v)
  | binary pos op l r => exact moves_evalBinary scope pos op l r
  | cond pos c b a => exact moves_evalCond scope c b a
  | call pos callee args =>
    exact .bind (.ask (.expr callee scope)) fun v => .bind (moves_evalAll scope args) fun vs =>
      .ask (.apply pos v vs)
  | index pos c k =>
    exact .bind (.ask (.expr c scope)) fun v => .bind (.ask (.expr k scope)) fun u =>
      .lift (moves_evalIndex v u)
  | member pos receiver namePos name =>
    refine .bind (.ask (.expr receiver scope)) fun v => ?_
    rw [Value.ty_move]
    exact .lift (.fault _ _)
  | method pos receiver namePos name callPos args =>
    exact .bind (.ask (.expr receiver scope)) fun v => .bind (moves_evalAll scope args) fun vs =>
      moves_callMethod v namePos name vs
  | assign pos name value => exact moves_evalAssign scope pos name value
  | step pos op name before => exact .lift (moves_evalStep scope pos op name before)
  | «break» pos => exact .bind (.lift moves_newId) fun id => .pure (Value.break id pos)
  | «continue» pos => exact .bind (.lift moves_newId) fun id => .pure (Value.continue id pos)

/-! ## Statements -/

theorem moves_runStatements (ss : List Stmt) :
    Moves f (Value.move f) (runStatements scope ss)
      (runStatements scope (Stmt.markAll (.moved f.place) ss)) := by
  induction ss with
  | nil => exact .pure Value.null
  | cons s ss ih =>
    rw [Stmt.markAll, runStatements, runStatements]
    refine .bind (.ask (.stmt s scope)) fun v => ?_
    rw [Value.isSignal_move]
    exact .ite (.pure v) ih

theorem moves_checkFree (pos : Pos) (name : String) :
    Run.Moves f id (checkFree scope pos name) (checkFree scope (f.place pos) name) := by
  refine .bind moves_store fun s => ?_
  simp only [Store.move, Scopes.contains_map]
  exact .ite (.fault _ _) (.pure ())

theorem moves_runDeclaration (pos : Pos) (isConst : Bool) (name : String) (value : Expr) :
    Moves f (Value.move f) (runDeclaration settings scope pos isConst name value)
      (runDeclaration settings scope (f.place pos) isConst name
        (value.mark (.moved f.place))) := by
  refine .bind (.lift (moves_checkFree scope pos name)) fun _ => ?_
  refine .bind (.ask (.expr value scope)) fun v => ?_
  refine .bind (.lift (moves_bind scope name v)) fun _ => ?_
  refine .bind (.lift (moves_trace ?_)) fun _ => .pure Value.null
  exact .bind (moves_inspect v) fun _ => .pure _

theorem moves_runFunction (pos : Pos) (name : String) (params : List String) (body : Block) :
    Run.Moves f (Value.move f) (runFunction settings scope pos name params body)
      (runFunction settings scope (f.place pos) name params (body.mark (.moved f.place))) :=
  .bind (moves_checkFree scope pos name) fun _ =>
    .bind (moves_makeClosure scope pos params body) fun v =>
      .bind (moves_bind scope name v) fun _ =>
        .bind (moves_trace (.pure _)) fun _ => .pure Value.null

theorem loopEnd?_move (v : Value) : loopEnd? (v.move f) = (loopEnd? v).map (Value.move f) := by
  cases v <;> rfl

theorem moves_proceeds (word : String) (condition : Option Expr) :
    Moves f id (proceeds settings word scope condition)
      (proceeds settings word scope (condition.map (Expr.mark (.moved f.place)))) := by
  cases condition with
  | none => exact .pure true
  | some c => exact moves_evalCondition scope word c

theorem moves_runUpdate (update : Option Expr) :
    Moves f id (runUpdate scope update)
      (runUpdate scope (update.map (Expr.mark (.moved f.place)))) := by
  cases update with
  | none => exact .pure ()
  | some e => exact .bind (.ask (.expr e scope)) fun _ => .pure ()

theorem moves_runLoop (word : String) (condition update : Option Expr) (body : Block)
    (fuel iteration : Nat) :
    Moves f (Value.move f) (runLoop settings word scope condition update body fuel iteration)
      (runLoop settings word scope (condition.map (Expr.mark (.moved f.place)))
        (update.map (Expr.mark (.moved f.place))) (body.mark (.moved f.place)) fuel iteration) := by
  induction fuel generalizing iteration with
  | zero => exact .lift (.throw .outOfFuel)
  | succ fuel ih =>
    rw [runLoop, runLoop]
    refine .bind (moves_proceeds scope word condition) fun _ => .ite ?_ (.pure Value.null)
    refine .bind (.lift (moves_trace (.pure _))) fun _ => ?_
    refine .bind (.ask (.block body scope)) fun v => ?_
    rw [loopEnd?_move]
    cases loopEnd? v with
    | some u => exact .pure u
    | none => exact .bind (moves_runUpdate scope update) fun _ => ih (iteration + 1)

theorem moves_runFor (init : Option Stmt) (condition update : Option Expr) (body : Block) :
    Moves f (Value.move f) (runFor settings scope init condition update body)
      (runFor settings scope (init.map (Stmt.mark (.moved f.place)))
        (condition.map (Expr.mark (.moved f.place))) (update.map (Expr.mark (.moved f.place)))
        (body.mark (.moved f.place))) := by
  refine .bind (.lift (moves_enclose scope)) fun r => ?_
  have hinit : Moves f id (runInit r init) (runInit r (init.map (Stmt.mark (.moved f.place)))) := by
    cases init with
    | none => exact .pure ()
    | some s => exact .bind (.ask (.stmt s r)) fun _ => .pure ()
  exact .bind hinit fun _ => moves_runLoop r "for" condition update body _ 1

theorem moves_runStmt (s : Stmt) :
    Moves f (Value.move f) (runStmt settings scope s)
      (runStmt settings scope (s.mark (.moved f.place))) := by
  cases s with
  | expr pos literal e => exact moves_evalExpr scope e
  | declare pos isConst name value => exact moves_runDeclaration scope pos isConst name value
  | «return» pos value =>
    cases value with
    | none => exact .bind (.lift moves_newId) fun id => .pure (Value.returned id .null pos)
    | some e =>
      exact .bind (.ask (.expr e scope)) fun v => .bind (.lift moves_newId) fun id =>
        .pure (Value.returned id v pos)
  | «while» pos condition body =>
    rw [Stmt.mark, Expr.markOption_eq_map, runStmt, runStmt]
    refine .bind (.lift (moves_present _ condition)) fun c => ?_
    exact moves_runLoop scope "while" (some c) none body _ 1
  | «for» pos init condition update body =>
    rw [Stmt.mark, Stmt.markOption_eq_map, Expr.markOption_eq_map, Expr.markOption_eq_map]
    exact moves_runFor scope init condition update body
  | func pos name params body => exact .lift (moves_runFunction scope pos name params body)

/-! ## Tasks -/

/-- **The script of a task does the same for the moved task.** -/
theorem moves_runTask (t : Task) :
    Moves f (Value.move f) (runTask settings t) (runTask settings (t.move f)) := by
  cases t with
  | expr e scope => exact moves_evalExpr scope e
  | stmt s scope => exact moves_runStmt scope s
  | block b scope =>
    obtain ⟨pos, ss⟩ := b
    exact .bind (.lift (moves_enclose scope)) fun r => moves_runStatements r ss
  | apply pos v args => exact moves_apply pos v args

/-- **Evaluation does the same for a moved task in a moved state.** The induction is on the depth:
the tasks that a script hands out are evaluated one level further in. -/
theorem moves_eval (settings : Settings) : ∀ depth t,
    Run.Moves f (Value.move f) (eval settings depth t) (eval settings depth (t.move f))
  | 0, _ => .throw .exhausted
  | depth + 1, t => (moves_runTask t).perform (moves_eval settings depth)

theorem moves_runTopLevel (last : Value) (ss : List Stmt) :
    Moves f (Value.move f) (runTopLevel last ss)
      (runTopLevel (last.move f) (Stmt.markAll (.moved f.place) ss)) := by
  induction ss generalizing last with
  | nil => exact .pure last
  | cons s ss ih =>
    rw [Stmt.markAll, runTopLevel, runTopLevel]
    refine .bind (.ask (.stmt s Scopes.root)) fun v => ?_
    cases v with
    | returned _ v => exact .pure v
    | «break» | «continue» => exact .lift (.fault _ _)
    | _ => exact ih _

theorem opened_move (settings : Settings) (p : Program) (s : State) :
    opened settings (p.mark (.moved f.place)) (s.move f) = (opened settings p s).move f := by
  simp only [opened, Program.mark, Stmt.markAll_eq_map, List.length_map, traced]
  split <;> rfl

/-- The statements of a moved program end as they did. -/
theorem moved_ended (settings : Settings) (p : Program) (s : State) :
    (ended settings p s).Moved f (Value.move f)
      (ended settings (p.mark (.moved f.place)) (s.move f)) := by
  rw [ended, ended, opened_move]
  exact (moves_runTopLevel .null p.statements).perform (moves_eval settings settings.depth) _

end Eval

/-! ## Programs -/

def Outcome.move (f : Relocation) : Outcome → Outcome
  | .value v => .value (v.move f)
  | .fault x => .fault (x.move f)
  | .cut stop => .cut (stop.move f)

/-- **A moved program ends as it did, at the moved place**, if the place of built-in functions stays
where it is. Only the trace may differ: its last line shows the place of a fault. -/
theorem Session.run_move (hf : f.place .unknown = .unknown) (settings : Settings) (p : Program)
    (s : State) :
    ∃ trace, run settings (p.mark (.moved f.place)) (s.move f) =
      ((run settings p s).1.move f, { (run settings p s).2.move f with trace }) := by
  have hended := (Eval.moved_ended (f := f) settings p s).eq hf
  simp only [Eval.ended, Eval.opened] at hended
  simp only [run, Eval.runProgram_eq, hended]
  generalize (Eval.runTopLevel .null p.statements).perform _ _ = ending
  match ending with
  | .ok v s' =>
    have hclosing : Run.Moves f id
        (Run.trace settings 1 do return "program finished: " ++ (← Run.inspect v))
        (Run.trace settings 1 do return "program finished: " ++ (← Run.inspect (v.move f))) :=
      moves_trace (.bind (moves_inspect v) fun _ => .pure _)
    simp only [Ending.move, Run.run_bind, hclosing.eq hf s']
    cases Run.trace settings 1 (do return "program finished: " ++ (← Run.inspect v)) s' with
    | ok _ s'' => exact ⟨_, rfl⟩
    | error stop s'' => cases stop <;> exact ⟨_, rfl⟩
  | .error (.fault x) s' =>
    -- The closing line shows the place of the fault, so the traces may part here.
    simp only [Ending.move, Stop.move, traced]
    split <;> exact ⟨_, rfl⟩
  | .error .exhausted s' | .error .outOfFuel s' | .error .incomplete s' => exact ⟨_, rfl⟩

end Vorn
