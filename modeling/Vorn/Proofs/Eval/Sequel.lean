import Vorn.Proofs.Eval.Library
import Vorn.Proofs.Eval.Stack

/-!
# What becomes of the values of statements and blocks

Control flow travels in values: a statement or block that meets `return`, `break` or `continue`
gives a signal, and the task that handed it out decides what to do with it. `Eval.Sequel` lists the
tasks that hand out statements and blocks and says how each goes on; `Eval.handles_runTask` that the
scripts do so. All other tasks hand out expressions and calls only (`Script.Plain`); the built-in
functions and the methods do, since they are library scripts (`Script.Library.plain`).
-/

namespace Vorn

/-! ## Scripts that hand out expressions and calls only -/

/-- An expression or a call. -/
def Task.isPlain : Task → Bool
  | .expr _ _ | .apply _ _ _ => true
  | .stmt _ _ | .block _ _ => false

/-- The steps hand out expressions and calls only. -/
def Step.Plain {α : Type} : Step α → Prop
  | done _ => True
  | ask t _ resume => t.isPlain = true ∧ ∀ ending, (resume ending).Plain

theorem Step.Plain.bind {α β : Type} {f : α → State → Step β} (hf : ∀ a s, (f a s).Plain) :
    ∀ {m : Step α}, m.Plain → (m.bind f).Plain
  | .done (.ok a s), _ => hf a s
  | .done (.error _ _), _ => trivial
  | .ask _ _ _, ⟨ht, hresume⟩ => ⟨ht, fun ending => (hresume ending).bind hf⟩

/-- What follows plain steps decides what becomes of statements and blocks. -/
theorem Step.Plain.bind_handles {α β : Type} {Q : Task → Value → State → Step β → Prop}
    {f : α → State → Step β} (hQ : ∀ t v s step, t.isPlain = true → Q t v s step)
    (hf : ∀ a s, (f a s).Handles Q) : ∀ {m : Step α}, m.Plain → (m.bind f).Handles Q
  | .done (.ok a s), _ => hf a s
  | .done (.error _ _), _ => trivial
  | .ask t _ _, ⟨ht, hresume⟩ =>
    ⟨fun v s => hQ t v s _ ht, fun ending => (hresume ending).bind_handles hQ hf⟩

theorem Step.Plain.handles {α : Type} {Q : Task → Value → State → Step α → Prop}
    (hQ : ∀ t v s step, t.isPlain = true → Q t v s step) : ∀ {m : Step α}, m.Plain → m.Handles Q
  | .done _, _ => trivial
  | .ask t _ _, ⟨ht, hresume⟩ => ⟨fun v s => hQ t v s _ ht, fun ending => (hresume ending).handles hQ⟩

namespace Script

variable {α β : Type}

/-- A script that hands out expressions and calls only. -/
def Plain (m : Script α) : Prop := ∀ s, (m s).Plain

namespace Plain

theorem pure (a : α) : Plain (Pure.pure a : Script α) := fun _ => trivial

theorem lift (m : Run α) : Plain (liftM m : Script α) := fun _ => trivial

theorem bind {m : Script α} {f : α → Script β} (hm : Plain m) (hf : ∀ a, Plain (f a)) :
    Plain (m >>= f) :=
  fun s => (hm s).bind fun a s => hf a s

/-- What follows a run may rely on how the run ended. -/
theorem lift_bind {m : Run α} {f : α → Script β}
    (h : ∀ a s s', m s = .ok a s' → Plain (f a)) : Plain (liftM m >>= f) := by
  intro s
  rw [run_bind, run_lift]
  cases hm : m s with
  | ok a s' => exact h a s s' hm s'
  | error stop s' => trivial

theorem ask {t : Task} (h : t.isPlain = true) : Plain (Script.ask t) :=
  fun _ => ⟨h, fun _ => trivial⟩

theorem ite {c : Prop} [Decidable c] {m₁ m₂ : Script α} (h₁ : Plain m₁) (h₂ : Plain m₂) :
    Plain (if c then m₁ else m₂) := by
  split
  · exact h₁
  · exact h₂

end Plain

/-- A library script hands out calls only. -/
theorem Library.plain {k : Reach} {C : Value → Prop} {m : Script α} (h : Library k C m) :
    Plain m := by
  induction h with
  | pure a => exact .pure a
  | lift => exact .lift _
  | call _ pos args => exact .ask rfl
  | bind _ _ ihm ihf => exact .bind ihm ihf
  | lift_bind _ _ ihf => exact .lift_bind ihf

end Script

open Script

namespace Eval

variable {settings : Settings} {scope : ScopeRef}

/-! ## Expressions -/

theorem plain_expr {e : Expr} : Plain (ask (.expr e scope)) := .ask rfl

theorem plain_evalAll {es : List Expr} : Plain (evalAll scope es) := by
  induction es with
  | nil => exact .pure _
  | cons e es ih => exact .bind plain_expr fun _ => .bind ih fun _ => .pure _

theorem plain_evalPairs {t : Table} {ps : List (Expr × Expr)} : Plain (evalPairs scope t ps) := by
  induction ps generalizing t with
  | nil => exact .pure _
  | cons p ps ih =>
    rw [evalPairs]
    refine .bind plain_expr fun key => ?_
    split
    · exact .lift _
    · exact .bind plain_expr fun _ => ih

theorem plain_evalBinary {pos : Pos} {op : BinaryOp} {l r : Expr} :
    Plain (evalBinary scope pos op l r) := by
  unfold evalBinary
  refine .bind plain_expr fun left => ?_
  split
  · exact .ite (.bind plain_expr fun _ => .pure _) (.pure _)
  · exact .ite (.pure _) (.bind plain_expr fun _ => .pure _)
  · exact .bind plain_expr fun _ => .lift _

theorem plain_evalCondition {word : String} {condition : Expr} :
    Plain (evalCondition settings word scope condition) :=
  .bind plain_expr fun _ => .bind (.lift _) fun _ => .pure _

theorem plain_evalAssign {pos : Pos} {name : String} {value : Expr} :
    Plain (evalAssign settings scope pos name value) := by
  unfold evalAssign
  refine .bind (.lift _) fun st => ?_
  split
  · exact .lift _
  · exact .bind plain_expr fun _ => .bind (.lift _) fun _ => .bind (.lift _) fun _ => .pure _

end Eval

/-- A conditional, the only expression with blocks of its own. -/
def Expr.isCond : Expr → Bool
  | .cond _ _ _ _ => true
  | _ => false

namespace Eval

variable {settings : Settings} {scope : ScopeRef}

theorem plain_evalExpr {e : Expr} (h : e.isCond = false) : Plain (evalExpr settings scope e) := by
  unfold evalExpr
  split
  case h_7 => exact .bind plain_evalAll fun _ => .lift _
  case h_8 => exact .bind plain_evalPairs fun _ => .lift _
  case h_10 => exact .bind plain_expr fun _ => .lift _
  case h_11 => exact plain_evalBinary
  case h_12 => cases h
  case h_13 => exact .bind plain_expr fun _ => .bind plain_evalAll fun _ => .ask rfl
  case h_14 => exact .bind plain_expr fun _ => .bind plain_expr fun _ => .lift _
  case h_15 => exact .bind plain_expr fun _ => .lift _
  case h_16 => exact .bind plain_expr fun _ => .bind plain_evalAll fun _ => library_callMethod.plain
  case h_17 => exact plain_evalAssign
  case h_19 | h_20 => exact .bind (.lift _) fun _ => .pure _
  all_goals exact .lift _

theorem plain_runDeclaration {pos : Pos} {isConst : Bool} {name : String} {value : Expr} :
    Plain (runDeclaration settings scope pos isConst name value) :=
  .bind (.lift _) fun _ => .bind plain_expr fun _ => .bind (.lift _) fun _ =>
    .bind (.lift _) fun _ => .pure _

theorem plain_proceeds {word : String} {condition : Option Expr} :
    Plain (proceeds settings word scope condition) := by
  cases condition with
  | none => exact .pure _
  | some c => exact plain_evalCondition

theorem plain_runUpdate {update : Option Expr} : Plain (runUpdate scope update) := by
  cases update with
  | none => exact .pure _
  | some u => exact .bind plain_expr fun _ => .pure _

theorem plain_applyBuiltin {pos : Pos} {b : Builtin} {args : List Value} :
    Plain (applyBuiltin settings pos b args) := by
  unfold applyBuiltin
  split
  · exact .ite (.bind (.lift _) fun _ => .bind (.lift _) fun _ => Builtin.library_run.plain)
      (.bind (.lift _) fun _ => Builtin.library_run.plain)
  · exact .bind (.lift _) fun _ => Builtin.library_run.plain

/-! ## Statements and blocks -/

/-- How a call ends, from what the body gives; a program ends so with a signal. -/
def callEnding (s : State) : Value → Ending Value
  | .returned _ v _ => .ok v s
  | .break _ pos => .error (.fault ⟨pos, .breakOutside⟩) s
  | .continue _ pos => .error (.fault ⟨pos, .continueOutside⟩) s
  | _ => .ok .null s

/-- How a loop goes on, from what the body gives: it ends, or the next round comes. -/
def LoopSequel (settings : Settings) (word : String) (scope : ScopeRef)
    (condition update : Option Expr) (body : Block) (v : Value) (s : State) (step : Step Value) :
    Prop :=
  match loopEnd? v with
  | some u => step = .done (.ok u s)
  | none => ∃ fuel iteration,
    step = (do
      runUpdate scope update
      runLoop settings word scope condition update body fuel iteration) s

/-- How `parent`, or else the program, goes on when a statement or block `child` that it handed out
gives `v`. No other task hands out a statement or a block. -/
def Sequel (settings : Settings) (parent : Option Task) (child : Task) (v : Value) (s : State)
    (step : Step Value) : Prop :=
  match parent, child with
  | none, .stmt _ _ => v.isSignal = true → step = .done (callEnding s v)
  | some (.block _ _), .stmt _ _ => v.isSignal = true → step = .done (.ok v s)
  | some (.stmt (.for _ init _ _ _) _), .stmt c _ => init = some c
  | some (.stmt (.expr _ _ (.cond _ _ _ _)) _), .block _ _ => step = .done (.ok v s)
  | some (.expr (.cond _ _ _ _) _), .block _ _ => step = .done (.ok v s)
  | some (.stmt (.while _ condition body) r), .block _ _ =>
    LoopSequel settings "while" r condition none body v s step
  | some (.stmt (.for _ _ condition update body) _), .block _ r =>
    LoopSequel settings "for" r condition update body v s step
  | some (.apply _ (.function _) _), .block _ _ => step = .done (callEnding s v)
  | _, .stmt _ _ | _, .block _ _ => False
  | _, _ => True

theorem sequel_of_isPlain {parent : Option Task} (t : Task) (v : Value) (s : State) (step : Step Value)
    (h : t.isPlain = true) : Sequel settings parent t v s step := by
  unfold Sequel
  split <;> trivial

theorem handles_evalCond {Q : Task → Value → State → Step Value → Prop} {condition : Option Expr}
    {consequence : Block} {alternative : Option Block}
    (hQ : ∀ t v s step, t.isPlain = true → Q t v s step)
    (hblock : ∀ b v s, Q (.block b scope) v s (.done (.ok v s))) (s : State) :
    (evalCond settings scope condition consequence alternative s).Handles Q := by
  unfold evalCond
  have hask : ∀ b s, (ask (.block b scope) s).Handles Q :=
    fun b _ => ⟨hblock b, fun _ => trivial⟩
  refine Step.Plain.bind_handles hQ (fun c s => ?_) (Script.Plain.lift _ s)
  refine Step.Plain.bind_handles hQ (fun answer s => ?_) (plain_evalCondition s)
  split
  · exact hask _ s
  · split
    · exact hask _ s
    · trivial

/-- A task that is handed out and what follows its value. -/
theorem handles_ask_bind {α : Type} {Q : Task → Value → State → Step α → Prop} {t : Task}
    {f : Value → Script α} (hQ : ∀ v s, Q t v s (f v s)) (hf : ∀ v s, (f v s).Handles Q)
    (s : State) : ((ask t >>= f) s).Handles Q := by
  refine ⟨hQ, fun ending => ?_⟩
  cases ending with
  | ok v s => exact hf v s
  | error stop s => trivial

/-- A check in front of the rest. -/
theorem handles_check {Q : Task → Value → State → Step Value → Prop} {c : Prop} [Decidable c]
    {m : Script Unit} {k : Unit → Script Value}
    (hQ : ∀ t v s step, t.isPlain = true → Q t v s step) (hm : Plain m)
    (hk : ∀ u s, (k u s).Handles Q) (s : State) :
    ((if c then m >>= k else k ()) s).Handles Q := by
  split
  · exact Step.Plain.bind_handles hQ hk (hm s)
  · exact hk () s

theorem handles_runStatements {Q : Task → Value → State → Step Value → Prop} {ss : List Stmt}
    (hQ : ∀ c v s step, (v.isSignal = true → step = .done (.ok v s)) →
      Q (.stmt c scope) v s step) (s : State) : (runStatements scope ss s).Handles Q := by
  induction ss generalizing s with
  | nil => trivial
  | cons c ss ih =>
    refine handles_ask_bind (fun v s => hQ c v s _ fun hv => ?_) (fun v s => ?_) s
    · rw [if_pos hv]
      rfl
    · split
      · trivial
      · exact ih s

theorem handles_runLoop {Q : Task → Value → State → Step Value → Prop} {word : String}
    {condition update : Option Expr} {body : Block}
    (hQ : ∀ t v s step, t.isPlain = true → Q t v s step)
    (hblock : ∀ v s step, LoopSequel settings word scope condition update body v s step →
      Q (.block body scope) v s step) {fuel iteration : Nat} (s : State) :
    (runLoop settings word scope condition update body fuel iteration s).Handles Q := by
  induction fuel generalizing iteration s with
  | zero => trivial
  | succ fuel ih =>
    rw [runLoop]
    refine Step.Plain.bind_handles hQ (fun goesOn s => ?_) (plain_proceeds s)
    split
    · refine Step.Plain.bind_handles hQ (fun _ s => ?_) (Script.Plain.lift _ s)
      refine handles_ask_bind (fun v s => hblock v s _ ?_) (fun v s => ?_) s
      · unfold LoopSequel
        cases loopEnd? v with
        | some u => rfl
        | none => exact ⟨fuel, iteration + 1, rfl⟩
      · cases loopEnd? v with
        | some u => trivial
        | none => exact Step.Plain.bind_handles hQ (fun _ s => ih s) (plain_runUpdate s)
    · trivial

/-- The body of a call, and what the call makes of its value. -/
theorem handles_runBody_bind {Q : Task → Value → State → Step Value → Prop} {pos : Pos}
    {body : Block} {f : Value → Script Value} (hf : ∀ v s, f v s = .done (callEnding s v))
    (hQ : ∀ v s, Q (.block body scope) v s (.done (callEnding s v))) (s : State) :
    ((runBody pos body scope >>= f) s).Handles Q := by
  refine ⟨fun v s => ?_, fun ending => ?_⟩
  · change Q _ v s (f v s)
    rw [hf]
    exact hQ v s
  · match ending with
    | .ok v s =>
      change (f v s).Handles Q
      rw [hf]
      trivial
    | .error .exhausted s | .error (.fault _) s | .error .outOfFuel s | .error .incomplete s =>
      trivial

theorem handles_applyClosure {Q : Task → Value → State → Step Value → Prop} {pos : Pos}
    {c : Closure} {args : List Value} (hQ : ∀ t v s step, t.isPlain = true → Q t v s step)
    (hblock : ∀ r v s, Q (.block c.body r) v s (.done (callEnding s v))) (s : State) :
    (applyClosure settings pos c args s).Handles Q := by
  unfold applyClosure
  refine handles_check hQ (.lift _) (fun _ s => ?_) s
  refine Step.Plain.bind_handles hQ (fun _ s => ?_) (Script.Plain.lift _ s)
  refine Step.Plain.bind_handles hQ (fun r s => ?_) (Script.Plain.lift _ s)
  refine Step.Plain.bind_handles hQ (fun _ s => ?_) (Script.Plain.lift _ s)
  refine handles_runBody_bind (fun v s => ?_) (hblock r) s
  cases v <;> rfl

theorem handles_evalExpr {parent : Option Task} {e : Expr}
    (h : e.isCond = true → ∀ b v s, Sequel settings parent (.block b scope) v s (.done (.ok v s)))
    (s : State) : (evalExpr settings scope e s).Handles (Sequel settings parent) := by
  cases e with
  | cond => exact handles_evalCond sequel_of_isPlain (h rfl) s
  | _ => exact (plain_evalExpr rfl s).handles sequel_of_isPlain

theorem handles_runFor {pos : Pos} {init : Option Stmt} {condition update : Option Expr}
    {body : Block} (s : State) : (runFor settings scope init condition update body s).Handles
      (Sequel settings (some (.stmt (.for pos init condition update body) scope))) := by
  refine Step.Plain.bind_handles sequel_of_isPlain (fun r s => ?_) (Script.Plain.lift _ s)
  have hloop : ∀ s, (runLoop settings "for" r condition update body settings.iterations 1
      s).Handles (Sequel settings (some (.stmt (.for pos init condition update body) scope))) := by
    intro s
    refine handles_runLoop sequel_of_isPlain (fun v s step h => ?_) s
    exact h
  cases init with
  | none => exact hloop s
  | some c =>
    refine ⟨fun _ _ => rfl, fun ending => ?_⟩
    cases ending with
    | ok v s => exact hloop s
    | error stop s => trivial

/-- **What becomes of the values of statements and blocks.** -/
theorem handles_runTask (t : Task) (s : State) :
    (runTask settings t s).Handles (Sequel settings (some t)) := by
  have hplain {m : Script Value} (h : Plain m) {parent : Option Task} :
      (m s).Handles (Sequel settings parent) := (h s).handles sequel_of_isPlain
  match t with
  | .expr e r =>
    refine handles_evalExpr (fun h b v s => ?_) s
    cases e <;> first | rfl | cases h
  | .stmt (.expr _ _ e) r =>
    refine handles_evalExpr (fun h b v s => ?_) s
    cases e <;> first | rfl | cases h
  | .stmt (.declare _ _ _ _) r => exact hplain plain_runDeclaration
  | .stmt (.return _ none) r => exact hplain (.bind (.lift _) fun _ => .pure _)
  | .stmt (.return _ (some _)) r =>
    exact hplain (.bind plain_expr fun _ => .bind (.lift _) fun _ => .pure _)
  | .stmt (.while _ none body) r => trivial
  | .stmt (.while _ (some condition) body) r =>
    refine handles_runLoop sequel_of_isPlain (fun v s step h => ?_) s
    exact h
  | .stmt (.for _ _ _ _ _) r => exact handles_runFor s
  | .stmt (.func _ _ _ _) r => exact hplain (.lift _)
  | .block b r =>
    refine Step.Plain.bind_handles sequel_of_isPlain (fun inner s => ?_) (Script.Plain.lift _ s)
    exact handles_runStatements (fun _ _ _ _ h => h) s
  | .apply pos f args =>
    cases f with
    | function c =>
      refine handles_applyClosure sequel_of_isPlain (fun r v s => ?_) s
      rfl
    | builtin b => exact hplain plain_applyBuiltin
    | _ => exact hplain (.lift _)

theorem handles_runTopLevel {last : Value} {ss : List Stmt} (s : State) :
    (runTopLevel last ss s).Handles (Sequel settings none) := by
  induction ss generalizing last s with
  | nil => trivial
  | cons c ss ih =>
    rw [runTopLevel]
    refine handles_ask_bind (fun v s hv => ?_) (fun v s => ?_) s
    · cases v <;> first | rfl | cases hv
    · split <;> first | trivial | exact ih s

/-- **How scripts go on behind statements and blocks**, all along a program. -/
theorem linked_sequel (p : Program) (s : State) :
    Linked settings (ended settings p s) (Sequel settings) [] (programHistory settings p s) :=
  linked_programHistory handles_runTask (handles_runTopLevel _)

end Eval

end Vorn
