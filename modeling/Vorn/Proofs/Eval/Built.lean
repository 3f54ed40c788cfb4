import Vorn.Proofs.Eval.Library

/-!
# What tasks are built of

The scripts of tasks are put together from few pieces as well. Besides what library scripts do, a
run opens scopes, binds names, adds lines to the trace, and may stop for any reason (`Run.Built`). A
script hands out tasks, and in the body of a function it turns exhaustion into a fault
(`Script.Built`). So what holds of the pieces holds of every task: `Eval.built_runTask`, and
`Eval.built_runTopLevel` for the statements of a program.
-/

namespace Vorn

/-! ## Pieces -/

namespace Run

variable {α β : Type} {k : Reach}

inductive Built : {α : Type} → Run α → Prop
  | basic {α : Type} {m : Run α} (h : Basic .changing m) : Built m
  | throw {α : Type} (stop : Stop) : Built (MonadExcept.throw stop : Run α)
  | enclose (r : ScopeRef) : Built (Run.enclose r)
  | bindName (r : ScopeRef) (name : String) (v : Value) : Built (Run.bind r name v)
  | trace (settings : Settings) (level : Nat) {line : Run String} (h : Basic .adding line) :
      Built (Run.trace settings level line)
  | bind {α β : Type} {m : Run α} {f : α → Run β} (hm : Built m) (hf : ∀ a, Built (f a)) :
      Built (m >>= f)

/-- A line of the trace that shows a value. -/
theorem Built.trace_inspect (settings : Settings) (level : Nat) (v : Value) (f : String → String) :
    Built (Run.trace settings level do return f (← inspect v)) :=
  .trace settings level (.bind (basic_inspect v) fun _ => .pure _)

end Run

open Run

namespace Script

variable {α β : Type}

inductive Built : {α : Type} → Script α → Prop
  | pure {α : Type} (a : α) : Built (Pure.pure a)
  | run {α : Type} {m : Run α} (h : Run.Built m) : Built (liftM m)
  | ask (t : Task) : Built (Script.ask t)
  /-- Exhaustion in the body of a function becomes a fault. -/
  | body (pos : Pos) (b : Block) (scope : ScopeRef) : Built (Eval.runBody pos b scope)
  | bind {α β : Type} {m : Script α} {f : α → Script β} (hm : Built m) (hf : ∀ a, Built (f a)) :
      Built (m >>= f)
  /-- What follows a run may rely on how the run ended. -/
  | run_bind {α β : Type} {m : Run α} {f : α → Script β} (hm : Run.Built m)
      (hf : ∀ a s s', m s = .ok a s' → Built (f a)) : Built (liftM m >>= f)

namespace Built

theorem lift {m : Run α} (h : Basic .changing m) : Built (liftM m : Script α) := run (.basic h)

theorem throw (stop : Stop) : Built (liftM (MonadExcept.throw stop : Run α) : Script α) :=
  run (.throw stop)

theorem ite {c : Prop} [Decidable c] {m₁ m₂ : Script α} (h₁ : Built m₁) (h₂ : Built m₂) :
    Built (if c then m₁ else m₂) := by
  split
  · exact h₁
  · exact h₂

/-- A check in front of the rest. -/
theorem check {c : Prop} [Decidable c] {m : Script Unit} {f : Unit → Script α} (hm : Built m)
    (hf : ∀ u, Built (f u)) : Built (if c then m >>= f else f ()) :=
  ite (bind hm hf) (hf ())

end Built

theorem Library.built {k : Reach} {C : Value → Prop} {m : Script α} (h : Library k C m) :
    Built m := by
  induction h with
  | pure a => exact .pure a
  | lift h => exact .lift h.changing
  | call _ pos args => exact .ask _
  | bind _ _ ihm ihf => exact .bind ihm ihf
  | lift_bind hm _ ihf => exact .run_bind (.basic hm.changing) ihf

end Script

open Script

/-! ## Tasks -/

namespace Eval

variable {settings : Settings} {scope : ScopeRef} {pos : Pos}

theorem built_evalAll (es : List Expr) : Built (evalAll scope es) := by
  induction es with
  | nil => exact .pure _
  | cons e es ih => exact .bind (.ask _) fun _ => .bind ih fun _ => .pure _

theorem built_evalPairs (ps : List (Expr × Expr)) (t : Table) : Built (evalPairs scope t ps) := by
  induction ps generalizing t with
  | nil => exact .pure _
  | cons p ps ih =>
    rw [evalPairs]
    refine .bind (.ask _) fun key => ?_
    split
    · exact .throw _
    · exact .bind (.ask _) fun _ => ih _

theorem built_evalBinary {op : BinaryOp} {l r : Expr} : Built (evalBinary scope pos op l r) := by
  unfold evalBinary
  refine .bind (.ask _) fun left => ?_
  split
  · exact .ite (.bind (.ask _) fun _ => .pure _) (.pure _)
  · exact .ite (.pure _) (.bind (.ask _) fun _ => .pure _)
  · exact .bind (.ask _) fun _ => .lift (basic_ofResult Operator.common_binary)

theorem built_present {α : Type} (o : Option α) : Built (liftM (present o) : Script α) := by
  cases o with
  | some a => exact .lift (.pure a)
  | none => exact .throw _

theorem built_evalCondition {word : String} {condition : Expr} :
    Built (evalCondition settings word scope condition) :=
  .bind (.ask _) fun v => .bind
    (.run (.trace settings 3 (.bind (basic_inspect v) fun _ => .pure _))) fun _ => .pure _

theorem built_evalCond {condition : Option Expr} {consequence : Block}
    {alternative : Option Block} :
    Built (evalCond settings scope condition consequence alternative) := by
  unfold evalCond
  refine .bind (built_present _) fun _ => .bind built_evalCondition fun _ => .ite (.ask _) ?_
  cases alternative with
  | some b => exact .ask _
  | none => exact .pure _

theorem built_evalAssign {name : String} {value : Expr} :
    Built (evalAssign settings scope pos name value) := by
  unfold evalAssign
  refine .bind (.lift .store) fun store => ?_
  split
  · exact .throw _
  · exact .bind (.ask _) fun v => .bind (.run (.bindName _ name v)) fun _ =>
      .bind (.run (.trace_inspect _ _ _ _)) fun _ => .pure _

theorem built_evalStep {op : StepOp} {name : String} {before : Bool} :
    Run.Built (evalStep scope pos op name before) := by
  unfold evalStep
  refine .bind (.basic .store) fun store => ?_
  split
  · exact .throw _
  · exact .bind (.basic (basic_ofResult Operator.common_step)) fun new =>
      .bind (.bindName _ name new) fun _ => .basic (.pure _)

theorem built_evalExpr (e : Expr) : Built (evalExpr settings scope e) := by
  cases e with
  | ident => exact .lift basic_evalName
  | array => exact .bind (built_evalAll _) fun _ => .lift (basic_newArray _ _)
  | hash => exact .bind (built_evalPairs _ _) fun _ => .lift (basic_newTable _ _)
  | func => exact .lift basic_makeClosure
  | unary => exact .bind (.ask _) fun _ => .lift (basic_ofResult Operator.common_unary)
  | binary => exact built_evalBinary
  | cond => exact built_evalCond
  | call => exact .bind (.ask _) fun _ => .bind (built_evalAll _) fun _ => .ask _
  | index => exact .bind (.ask _) fun _ => .bind (.ask _) fun _ => .lift basic_evalIndex
  | member => exact .bind (.ask _) fun _ => .throw _
  | method =>
    exact .bind (.ask _) fun _ => .bind (built_evalAll _) fun _ => library_callMethod.built
  | assign => exact built_evalAssign
  | step => exact .run built_evalStep
  | «break» | «continue» => exact .bind (.lift basic_newId) fun _ => .pure _
  | _ => exact .pure _

theorem built_bindAll : ∀ ps vs, Run.Built (bindAll scope ps vs)
  | p :: ps, v :: vs => .bind (.bindName scope p v) fun _ => built_bindAll ps vs
  | [], _ => .basic (.pure _)
  | _ :: _, [] => .basic (.pure _)

theorem built_applyClosure {c : Closure} {args : List Value} :
    Built (applyClosure settings pos c args) := by
  unfold applyClosure
  refine .check (.throw _) fun _ => .bind (.run (.trace settings 2 ?_)) fun _ =>
    .bind (.run (.enclose _)) fun inner => .bind (.run (built_bindAll _ _)) fun _ =>
    .bind (.body pos c.body inner) fun result => ?_
  · exact .bind (.mapM basic_inspect args) fun _ => .pure _
  · split
    · exact .pure _
    · exact .throw _
    · exact .throw _
    · exact .pure _

theorem built_apply {f : Value} {args : List Value} : Built (apply settings pos f args) := by
  have hbuiltin : ∀ b : Builtin, Built (do
      trace settings 2 (return "call builtin " ++ b.name)
      b.run settings pos args) := fun b =>
    .bind (.run (.trace settings 2 (.pure _))) fun _ => Builtin.library_run.built
  unfold apply
  split
  · exact built_applyClosure
  · unfold applyBuiltin
    split
    · exact .check (.throw _) fun _ => hbuiltin _
    · exact hbuiltin _
  · exact .throw _

theorem built_checkFree {name : String} : Run.Built (checkFree scope pos name) := by
  refine .bind (.basic .store) fun _ => ?_
  split
  · exact .throw _
  · exact .basic (.pure _)

theorem built_runFunction {name : String} {params : List String} {body : Block} :
    Run.Built (runFunction settings scope pos name params body) :=
  .bind built_checkFree fun _ => .bind (.basic basic_makeClosure) fun f =>
    .bind (.bindName scope name f) fun _ => .bind (.trace settings 2 (.pure _)) fun _ =>
    .basic (.pure _)

theorem built_runDeclaration {isConst : Bool} {name : String} {value : Expr} :
    Built (runDeclaration settings scope pos isConst name value) :=
  .bind (.run built_checkFree) fun _ => .bind (.ask _) fun v =>
    .bind (.run (.bindName scope name v)) fun _ =>
    .bind (.run (.trace_inspect settings 2 v _)) fun _ => .pure _

theorem built_runStatements (ss : List Stmt) : Built (runStatements scope ss) := by
  induction ss with
  | nil => exact .pure _
  | cons _ ss ih => exact .bind (.ask _) fun _ => .ite (.pure _) ih

theorem built_runLoop {word : String} {condition update : Option Expr} {body : Block} :
    ∀ fuel iteration, Built (runLoop settings word scope condition update body fuel iteration)
  | 0, _ => .throw _
  | fuel + 1, iteration => by
    have hproceeds : Built (proceeds settings word scope condition) := by
      cases condition with
      | none => exact .pure _
      | some c => exact built_evalCondition
    have hupdate : Built (runUpdate scope update) := by
      cases update with
      | none => exact .pure _
      | some u => exact .bind (.ask _) fun _ => .pure _
    rw [runLoop]
    refine .bind hproceeds fun _ => .ite ?_ (.pure _)
    refine .bind (.run (.trace settings 3 (.pure _))) fun _ => .bind (.ask _) fun v => ?_
    split
    · exact .pure _
    · exact .bind hupdate fun _ => built_runLoop fuel _

theorem built_runFor {init : Option Stmt} {condition update : Option Expr} {body : Block} :
    Built (runFor settings scope init condition update body) := by
  refine .bind (.run (.enclose scope)) fun inner => .bind ?_ fun _ => built_runLoop _ _
  cases init with
  | none => exact .pure _
  | some st => exact .bind (.ask _) fun _ => .pure _

theorem built_runStmt (st : Stmt) : Built (runStmt settings scope st) := by
  cases st with
  | expr => exact built_evalExpr _
  | declare => exact built_runDeclaration
  | «return» pos value =>
    cases value with
    | none => exact .bind (.lift basic_newId) fun _ => .pure _
    | some e => exact .bind (.ask _) fun _ => .bind (.lift basic_newId) fun _ => .pure _
  | «while» => exact .bind (built_present _) fun _ => built_runLoop _ _
  | «for» => exact built_runFor
  | func => exact .run built_runFunction

/-- **The script of a task is built of these pieces.** -/
theorem built_runTask (t : Task) : Built (runTask settings t) := by
  cases t with
  | expr e r => exact built_evalExpr e
  | stmt st r => exact built_runStmt st
  | block b r => exact .bind (.run (.enclose r)) fun _ => built_runStatements b.statements
  | apply => exact built_apply

theorem built_runTopLevel : ∀ last ss, Built (runTopLevel last ss)
  | _, [] => .pure _
  | last, st :: ss => by
    rw [runTopLevel]
    refine .bind (.ask _) fun v => ?_
    split
    · exact .pure _
    · exact .throw _
    · exact .throw _
    · exact built_runTopLevel _ ss

end Eval

end Vorn
