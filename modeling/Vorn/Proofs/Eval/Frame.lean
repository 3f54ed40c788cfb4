import Vorn.Proofs.Eval.Discipline
import Vorn.Proofs.Eval.Library
import Vorn.Proofs.Eval.Spec

/-!
# The names that tasks bind, and the reasons they stop for

What a task does to the names of scopes is settled by its form (`Task.Frame`): a declaration that
gives a value adds its own name to its own scope, and nothing else adds or removes a name anywhere.
Scopes that come on the way (of blocks, loops and calls) do not count.

A task stops for a missing condition or for a name that is taken only if its form lets it.
`Reasons` are the stops that are let through, and they include the common ones. The specification
`names` joins both, and `Eval.sound_names` says that all tasks meet it, as far as the trees that are
run are those that the reasons ask for (`Task.Fit`).
-/

namespace Vorn

/-! ## Names of scopes -/

namespace Scopes

variable {α : Type} {base sc sc' sc'' : Scopes α} {r : ScopeRef} {name : String}

/-- Scopes may have come; those that were there bind the names that they did. -/
structure Extends (sc sc' : Scopes α) : Prop where
  size_le : sc.size ≤ sc'.size
  contains_iff : ∀ r x, r.index < sc.size → (sc'.contains r x = true ↔ sc.contains r x = true)

/-- Scopes may have come; of those that were there, `r` has gained `name`, and that is all. -/
structure Declares (r : ScopeRef) (name : String) (sc sc' : Scopes α) : Prop where
  size_le : sc.size ≤ sc'.size
  contains_iff : ∀ r' x, r'.index < sc.size →
    (sc'.contains r' x = true ↔ sc.contains r' x = true ∨ r' = r ∧ x = name)

theorem Extends.refl (sc : Scopes α) : sc.Extends sc := ⟨Nat.le_refl _, fun _ _ _ => Iff.rfl⟩

theorem Extends.trans (h : sc.Extends sc') (h' : sc'.Extends sc'') : sc.Extends sc'' := by
  refine ⟨Nat.le_trans h.size_le h'.size_le, fun r x hr => ?_⟩
  rw [h'.contains_iff r x (Nat.lt_of_lt_of_le hr h.size_le), h.contains_iff r x hr]

theorem Extends.declares (h : sc.Extends sc') (h' : Declares r name sc' sc'') :
    Declares r name sc sc'' := by
  refine ⟨Nat.le_trans h.size_le h'.size_le, fun r' x hr' => ?_⟩
  rw [h'.contains_iff r' x (Nat.lt_of_lt_of_le hr' h.size_le), h.contains_iff r' x hr']

/-- A new scope is not to be seen from the old ones. -/
theorem Extends.of_declares (h : base.Extends sc) (hr : base.size ≤ r.index)
    (h' : Declares r name sc sc') : base.Extends sc' := by
  refine ⟨Nat.le_trans h.size_le h'.size_le, fun r' x hr' => ?_⟩
  have hne : r' ≠ r := by
    rintro rfl
    omega
  rw [h'.contains_iff r' x (Nat.lt_of_lt_of_le hr' h.size_le), h.contains_iff r' x hr']
  simp [hne]

theorem extends_enclose (sc : Scopes α) (r : ScopeRef) : sc.Extends (sc.enclose r).2 :=
  ⟨by simp, fun r' x _ => by rw [contains_enclose]⟩

/-- A new scope binds nothing. -/
theorem contains_enclose_self (sc : Scopes α) (r : ScopeRef) (x : String) :
    (sc.enclose r).2.contains (sc.enclose r).1 x = false := by
  have hnone := sc.getLocal?_eq_none (sc.enclose r).1 (x := x) (Nat.le_refl _)
  rw [contains_enclose, contains, hnone]
  rfl

theorem declares_set (sc : Scopes α) (r : ScopeRef) (name : String) (v : α) :
    Declares r name sc (sc.set r name v) := by
  refine ⟨by simp, fun r' x hr' => ?_⟩
  rw [contains_set]
  constructor
  · rintro (h | ⟨rfl, rfl, -⟩)
    · exact .inl h
    · exact .inr ⟨rfl, rfl⟩
  · rintro (h | ⟨rfl, rfl⟩)
    · exact .inl h
    · exact .inr ⟨rfl, rfl, hr'⟩

/-- To bind a name once more adds no name. -/
theorem extends_set (h : sc.contains r name = true) (v : α) : sc.Extends (sc.set r name v) := by
  refine ⟨by simp, fun r' x _ => ?_⟩
  rw [contains_set]
  constructor
  · rintro (h' | ⟨rfl, rfl, -⟩)
    · exact h'
    · exact h
  · exact .inl

theorem Extends.bindAll (h : base.Extends sc) (hr : base.size ≤ r.index) (ps : List String)
    (vs : List α) : base.Extends (sc.bindAll r ps vs) :=
  bindAll_induction (P := base.Extends)
    (fun sc x v h => h.of_declares hr (declares_set sc r x v)) ps vs sc h

end Scopes

/-! ## What tasks promise -/

/-- The name that a task binds, and the scope that it binds it in. -/
def Task.binding? : Task → Option (String × ScopeRef)
  | .stmt st r => st.binds?.map fun name => (name, r)
  | _ => none

/-- What a task that started in `s` does to the names of scopes. The one way for a declaration to
stop behind its binding is that its value cannot be shown in the trace. -/
structure Task.Frame (settings : Settings) (t : Task) (s : State) (ending : Ending Value) :
    Prop where
  other : t.binding? = none → s.store.scopes.Extends ending.state.store.scopes
  bound : ∀ name r v s', t.binding? = some (name, r) → ending = .ok v s' →
    v = .null ∧ s.store.scopes.contains r name = false ∧
      Scopes.Declares r name s.store.scopes s'.store.scopes
  stopped : ∀ stop s', ending = .error stop s' →
    s.store.scopes.Extends s'.store.scopes ∨
      ∃ name r, t.binding? = some (name, r) ∧ stop = .exhausted ∧ 2 ≤ settings.traceLevel ∧
        Scopes.Declares r name s.store.scopes s'.store.scopes

/-- However a task ends, it binds no name or its own. -/
theorem Task.Frame.effect {settings : Settings} {t : Task} {s : State} {ending : Ending Value}
    (h : t.Frame settings s ending) :
    s.store.scopes.Extends ending.state.store.scopes ∨
      ∃ name r, t.binding? = some (name, r) ∧
        Scopes.Declares r name s.store.scopes ending.state.store.scopes := by
  cases hbind : t.binding? with
  | none => exact .inl (h.other hbind)
  | some binding =>
    obtain ⟨name, r⟩ := binding
    cases ending with
    | ok v s' =>
      obtain ⟨-, -, hdeclares⟩ := h.bound name r v s' hbind rfl
      exact .inr ⟨name, r, rfl, hdeclares⟩
    | error stop s' =>
      rcases h.stopped stop s' rfl with hext | ⟨name', r', hbind', -, -, hdeclares⟩
      · exact .inl hext
      · exact .inr ⟨name', r', hbind ▸ hbind', hdeclares⟩

theorem Task.Frame.size_le {settings : Settings} {t : Task} {s : State} {ending : Ending Value}
    (h : t.Frame settings s ending) :
    s.store.scopes.size ≤ ending.state.store.scopes.size := by
  rcases h.effect with hext | ⟨_, _, _, hdeclares⟩
  · exact hext.size_le
  · exact hdeclares.size_le

/-- A task in a scope that is new binds nothing in the old ones. -/
theorem Task.Frame.extends_base {settings : Settings} {base : Scopes Value} {t : Task} {s : State}
    {ending : Ending Value} (h : t.Frame settings s ending)
    (hnew : ∀ name r, t.binding? = some (name, r) → base.size ≤ r.index)
    (hs : base.Extends s.store.scopes) : base.Extends ending.state.store.scopes := by
  rcases h.effect with hext | ⟨name, r, hbind, hdeclares⟩
  · exact hs.trans hext
  · exact hs.of_declares (hnew name r hbind) hdeclares

/-- Reasons to stop, the common ones among them. -/
structure Reasons where
  Allows : Stop → Prop
  common : ∀ {stop}, stop.isCommon = true → Allows stop

/-- A run that stops does so for one of the reasons. -/
def Ending.StopsFor {α : Type} (R : Reasons) : Ending α → Prop
  | .ok _ _ => True
  | .error stop _ => R.Allows stop

/-- The condition of an `if` is missing. -/
def Expr.lacksCondition : Expr → Bool
  | .cond _ condition _ _ => condition.isNone
  | _ => false

/-- The condition of an `if` or a `while` is missing. -/
def Stmt.lacksCondition : Stmt → Bool
  | .expr _ _ e => e.lacksCondition
  | .while _ condition _ => condition.isNone
  | _ => false

/-- The task needs a condition that is missing. -/
def Task.lacksCondition : Task → Bool
  | .expr e _ => e.lacksCondition
  | .stmt st _ => st.lacksCondition
  | _ => false

/-- The names that statements bind. -/
def Stmt.bindings (ss : List Stmt) : List String := ss.filterMap Stmt.binds?

/-- The names that the statements of a block bind. -/
def Task.bindings : Task → List String
  | .block b _ => Stmt.bindings b.statements
  | _ => []

/-- What the reasons ask of the tree of a task: where a missing condition or a name that is taken is
no reason to stop, the condition is there and no name is bound twice. -/
structure Task.Fit (R : Reasons) (t : Task) : Prop where
  condition : t.lacksCondition = true → R.Allows .incomplete
  bindings : t.bindings.Nodup ∨ ∀ f, R.Allows (.fault f)

/-- A task that binds a name starts where the name is free, unless every fault is a reason to stop;
it respects the frame and stops for one of the reasons. -/
def names (settings : Settings) (R : Reasons) : TaskSpec where
  Pre t s := (∀ name r, t.binding? = some (name, r) → s.store.scopes.contains r name = false) ∨
    ∀ f, R.Allows (.fault f)
  Post t s ending := t.Frame settings s ending ∧ Ending.StopsFor R ending

/-! ## Runs and scripts that bind no name -/

/-- The scopes that were there bind the same names, and a stop has one of the reasons. -/
structure Ending.Framed {α : Type} (R : Reasons) (s : State) (ending : Ending α) : Prop where
  scopes : s.store.scopes.Extends ending.state.store.scopes
  stops : Ending.StopsFor R ending

theorem Ending.Framed.of_extends {α : Type} {R : Reasons} {s s' : State} {ending : Ending α}
    (hs : s.store.scopes.Extends s'.store.scopes) (h : Ending.Framed R s' ending) :
    Ending.Framed R s ending :=
  ⟨hs.trans h.scopes, h.stops⟩

/-- What binds nothing respects the frame of a task that binds nothing. -/
theorem Ending.Framed.post {R : Reasons} {settings : Settings} {t : Task} {s : State}
    {ending : Ending Value} (h : Ending.Framed R s ending) (ht : t.binding? = none) :
    (names settings R).Post t s ending := by
  refine ⟨⟨fun _ => h.scopes, fun name r v s' hbind => ?_, fun stop s' hstop => ?_⟩, h.stops⟩
  · rw [ht] at hbind
    cases hbind
  · subst hstop
    exact .inl h.scopes

namespace Run

variable {α β : Type} {R : Reasons}

/-- The run binds no name in a scope that was there, and stops for one of the reasons. -/
def Framed (R : Reasons) (m : Run α) : Prop := ∀ s, Ending.Framed R s (m s)

theorem Basic.framed {m : Run α} (h : Basic .changing m) : Framed R m := by
  intro s
  have hscopes := (h.stays s).scopes_eq
  cases hrun : m s with
  | ok a s' =>
    rw [hrun] at hscopes
    refine ⟨?_, trivial⟩
    rw [hscopes]
    exact .refl _
  | error stop s' =>
    rw [hrun] at hscopes
    refine ⟨?_, R.common (h.stops hrun)⟩
    rw [hscopes]
    exact .refl _

theorem framed_trace {settings : Settings} {level : Nat} {line : Run String} (h : Basic .changing line) :
    Framed R (trace settings level line) := by
  intro s
  unfold trace
  split
  · have hline := h.framed (R := R) s
    rw [run_bind]
    cases hrun : line s with
    | ok text s' =>
      rw [hrun] at hline
      exact ⟨hline.scopes, trivial⟩
    | error stop s' =>
      rw [hrun] at hline
      exact ⟨hline.scopes, hline.stops⟩
  · exact ⟨.refl _, trivial⟩

end Run

open Run

/-- A framed script goes on where framed steps ended. -/
theorem Step.Ensures.then_framed {α β : Type} {settings : Settings} {R : Reasons} {s : State}
    {m : Step α} {f : α → Script β} (hm : m.Ensures (names settings R) (Ending.Framed R s))
    (hf : ∀ a s', (f a s').Ensures (names settings R) (Ending.Framed R s')) :
    (m.bind f).Ensures (names settings R) (Ending.Framed R s) :=
  hm.bind (fun a s' hs => (hf a s').mono fun _ h => h.of_extends hs.scopes)
    fun _ _ h => ⟨h.scopes, h.stops⟩

namespace Script

variable {α β : Type} {settings : Settings} {R : Reasons}

/-- The script binds no name in a scope that was there. -/
def Framed (settings : Settings) (R : Reasons) (m : Script α) : Prop :=
  ∀ s, (m s).Ensures (names settings R) (Ending.Framed R s)

namespace Framed

theorem pure (a : α) : Framed settings R (Pure.pure a : Script α) :=
  fun _ => ⟨.refl _, trivial⟩

theorem run {m : Run α} (h : Run.Framed R m) : Framed settings R (liftM m : Script α) := h

theorem lift {m : Run α} (h : Basic .changing m) : Framed settings R (liftM m : Script α) := h.framed

theorem bind {m : Script α} {f : α → Script β} (hm : Framed settings R m)
    (hf : ∀ a, Framed settings R (f a)) : Framed settings R (m >>= f) :=
  fun s => (hm s).then_framed hf

theorem ask {t : Task} (ht : t.binding? = none) : Framed settings R (Script.ask t) := by
  refine fun s => ⟨.inl fun name r h => ?_, fun ending hpost => ⟨hpost.1.other ht, hpost.2⟩⟩
  rw [ht] at h
  cases h

theorem ite {c : Prop} [Decidable c] {m₁ m₂ : Script α} (h₁ : Framed settings R m₁)
    (h₂ : Framed settings R m₂) : Framed settings R (if c then m₁ else m₂) := by
  split
  · exact h₁
  · exact h₂

/-- A check in front of the rest. -/
theorem check {c : Prop} [Decidable c] {m : Script Unit} {k : Unit → Script α}
    (hm : Framed settings R m) (hk : ∀ u, Framed settings R (k u)) :
    Framed settings R (if c then m >>= k else k ()) :=
  ite (bind hm hk) (hk ())

end Framed

/-- What built-in functions and methods do, callbacks included, binds no name. -/
theorem Library.framed {reach : Reach} {C : Value → Prop} {m : Script α}
    (h : Library reach C m) : Framed settings R m := by
  induction h with
  | pure a => exact .pure a
  | lift h => exact .lift h.changing
  | call _ pos args => exact .ask rfl
  | bind _ _ ihm ihf => exact .bind ihm ihf
  | @lift_bind _ _ m f hm _ ihf =>
    intro s
    have hrun := hm.changing.framed (R := R) s
    rw [run_bind, run_lift]
    cases hend : m s with
    | error stop s' =>
      rw [hend] at hrun
      exact ⟨hrun.scopes, hrun.stops⟩
    | ok a s' =>
      rw [hend] at hrun
      exact (ihf a s s' hend s').mono fun _ h => h.of_extends hrun.scopes

end Script

open Script

namespace Eval

variable {settings : Settings} {R : Reasons} {scope : ScopeRef}

/-! ## Expressions -/

theorem framed_fault {α : Type} (pos : Pos) {cause : Cause} (h : cause.isRedeclaration = false) :
    Script.Framed settings R (liftM (Run.fault pos cause : Run α) : Script α) :=
  .lift (.fault pos h)

theorem framed_expr {e : Expr} : Script.Framed settings R (ask (.expr e scope)) := .ask rfl

theorem framed_evalAll {es : List Expr} : Script.Framed settings R (evalAll scope es) := by
  induction es with
  | nil => exact .pure _
  | cons e es ih => exact .bind framed_expr fun _ => .bind ih fun _ => .pure _

theorem framed_evalPairs {t : Table} {ps : List (Expr × Expr)} :
    Script.Framed settings R (evalPairs scope t ps) := by
  induction ps generalizing t with
  | nil => exact .pure _
  | cons p ps ih =>
    rw [evalPairs]
    refine .bind framed_expr fun key => ?_
    split
    · exact framed_fault _ rfl
    · exact .bind framed_expr fun _ => ih

theorem framed_evalBinary {pos : Pos} {op : BinaryOp} {l r : Expr} :
    Script.Framed settings R (evalBinary scope pos op l r) := by
  unfold evalBinary
  refine .bind framed_expr fun left => ?_
  split
  · exact .ite (.bind framed_expr fun _ => .pure _) (.pure _)
  · exact .ite (.pure _) (.bind framed_expr fun _ => .pure _)
  · exact .bind framed_expr fun _ => .lift (basic_ofResult Operator.common_binary)

theorem framed_evalCondition {word : String} {condition : Expr} :
    Script.Framed settings R (evalCondition settings word scope condition) := by
  refine .bind framed_expr fun v => .bind (.run (framed_trace ?_)) fun _ => .pure _
  exact .bind (basic_inspect v) fun _ => .pure _

/-- A condition that is missing has to be a reason to stop. -/
theorem framed_present {α : Type} {o : Option α} (h : o.isNone = true → R.Allows .incomplete) :
    Script.Framed settings R (liftM (present o) : Script α) := by
  cases o with
  | some a => exact .lift (.pure a)
  | none => exact fun s => ⟨.refl _, h rfl⟩

theorem framed_evalCond {condition : Option Expr} {consequence : Block}
    {alternative : Option Block} (h : condition.isNone = true → R.Allows .incomplete) :
    Script.Framed settings R (evalCond settings scope condition consequence alternative) := by
  unfold evalCond
  refine .bind (framed_present h) fun c => .bind framed_evalCondition fun _ => .ite (.ask rfl) ?_
  split
  · exact .ask rfl
  · exact .pure _

/-- An assignment binds a name where it is bound already; the value is evaluated in between. -/
theorem framed_evalAssign {pos : Pos} {name : String} {value : Expr} :
    Script.Framed settings R (evalAssign settings scope pos name value) := by
  intro s
  unfold evalAssign
  rw [run_store_bind]
  cases hget : s.store.scopes.get? scope name with
  | none => exact framed_fault _ rfl s
  | some found =>
    obtain ⟨old, target⟩ := found
    have hbound := Scopes.contains_of_get? _ hget
    refine (framed_expr s).bind (fun v s₁ h₁ => ?_) fun _ _ h => ⟨h.scopes, h.stops⟩
    rw [run_bind_bind]
    have hscopes : s.store.scopes.Extends (s₁.store.scopes.set target name v) :=
      h₁.scopes.trans (Scopes.extends_set
        ((h₁.scopes.contains_iff target name (Scopes.lt_size_of_contains hbound)).mpr hbound) v)
    have hline : Basic .changing (do return "assign " ++ name ++ " = " ++ (← inspect v)) :=
      .bind (basic_inspect v) fun _ => .pure _
    have hrest : Script.Framed settings R
        (do trace settings 2 (do return "assign " ++ name ++ " = " ++ (← inspect v)); return v) :=
      .bind (.run (framed_trace hline)) fun _ => .pure _
    exact (hrest _).mono fun _ h => h.of_extends hscopes

theorem framed_evalStep {pos : Pos} {op : StepOp} {name : String} {before : Bool} :
    Run.Framed R (evalStep scope pos op name before) := by
  intro s
  cases hget : s.store.scopes.get? scope name with
  | none =>
    have hrun : evalStep scope pos op name before s =
        .error (.fault ⟨pos, .notInitialized name⟩) s := by
      rw [evalStep, Run.run_bind, show store s = .ok s.store s from rfl]
      dsimp only
      rw [hget]
      rfl
    rw [hrun]
    exact ⟨.refl _, R.common rfl⟩
  | some found =>
    obtain ⟨old, target⟩ := found
    rw [run_evalStep hget]
    cases hstep : Operator.step pos op before old with
    | ok new => exact ⟨Scopes.extends_set (Scopes.contains_of_get? _ hget) new, trivial⟩
    | error f =>
      refine ⟨.refl _, R.common ?_⟩
      rw [Stop.isCommon, Operator.common_step f hstep]
      rfl

theorem framed_evalExpr {e : Expr} (h : e.lacksCondition = true → R.Allows .incomplete) :
    Script.Framed settings R (evalExpr settings scope e) := by
  unfold evalExpr
  split
  case h_1 => exact .lift basic_evalName
  case h_7 => exact .bind framed_evalAll fun _ => .lift (basic_newArray _ _)
  case h_8 => exact .bind framed_evalPairs fun _ => .lift (basic_newTable _ _)
  case h_9 => exact .lift basic_makeClosure
  case h_10 => exact .bind framed_expr fun _ => .lift (basic_ofResult Operator.common_unary)
  case h_11 => exact framed_evalBinary
  case h_12 => exact framed_evalCond h
  case h_13 => exact .bind framed_expr fun _ => .bind framed_evalAll fun _ => .ask rfl
  case h_14 => exact .bind framed_expr fun _ => .bind framed_expr fun _ => .lift basic_evalIndex
  case h_15 => exact .bind framed_expr fun _ => framed_fault _ rfl
  case h_16 =>
    exact .bind framed_expr fun _ => .bind framed_evalAll fun _ => library_callMethod.framed
  case h_17 => exact framed_evalAssign
  case h_18 => exact .run framed_evalStep
  case h_19 | h_20 => exact .bind (.lift basic_newId) fun _ => .pure _
  all_goals exact .pure _

/-! ## Calls -/

/-- Exhaustion in the body of a function becomes a fault, which is a common reason. -/
theorem framed_runBody {pos : Pos} {body : Block} :
    Script.Framed settings R (runBody pos body scope) := by
  refine fun s => ⟨.inl fun _ _ h => (nomatch h), fun ending hpost => ?_⟩
  have hframed : Ending.Framed R s ending := ⟨hpost.1.other rfl, hpost.2⟩
  match ending with
  | .ok v s' => exact hframed
  | .error .exhausted s' => exact ⟨hframed.scopes, R.common rfl⟩
  | .error (.fault f) s' | .error .outOfFuel s' | .error .incomplete s' => exact hframed

/-- The parameters are bound in a new scope. -/
theorem framed_applyClosure {pos : Pos} {c : Closure} {args : List Value} :
    Script.Framed settings R (applyClosure settings pos c args) := by
  unfold applyClosure
  refine .check (framed_fault _ rfl) fun _ => .bind (.run (framed_trace ?_)) fun _ s => ?_
  · exact .bind (.mapM basic_inspect _) fun _ => .pure _
  · rw [run_enclose_bind, Script.run_bind, run_lift, run_bindAll]
    have hscopes := (Scopes.extends_enclose s.store.scopes c.scope).bindAll
      (r := (s.store.scopes.enclose c.scope).1) (Nat.le_refl _) c.params args
    refine ((framed_runBody _).then_framed fun result s' => ?_).mono fun _ h =>
      h.of_extends hscopes
    split
    · exact Framed.pure _ s'
    · exact framed_fault _ rfl s'
    · exact framed_fault _ rfl s'
    · exact Framed.pure _ s'

theorem framed_apply {pos : Pos} {f : Value} {args : List Value} :
    Script.Framed settings R (apply settings pos f args) := by
  unfold apply
  split
  · exact framed_applyClosure
  · unfold applyBuiltin
    split
    · exact .check (framed_fault _ rfl) fun _ =>
        .bind (.run (framed_trace (.pure _))) fun _ => Builtin.library_run.framed
    · exact .bind (.run (framed_trace (.pure _))) fun _ => Builtin.library_run.framed
  · exact framed_fault _ rfl

/-! ## Declarations -/

/-- The name is free, unless every fault is a reason to stop. -/
theorem allows_of_pre {t : Task} {s : State} {name : String} {r : ScopeRef}
    (hpre : (names settings R).Pre t s) (ht : t.binding? = some (name, r))
    (hbound : s.store.scopes.contains r name = true) (f : Fault) : R.Allows (.fault f) := by
  rcases hpre with hfree | hall
  · rw [hfree name r ht] at hbound
    cases hbound
  · exact hall f

/-- A declaration that stopped before it bound its name. -/
theorem post_of_stopped {t : Task} {s s' : State} {stop : Stop}
    (hscopes : s.store.scopes.Extends s'.store.scopes) (hstop : R.Allows stop) :
    (names settings R).Post t s (.error stop s') := by
  refine ⟨⟨fun _ => hscopes, fun _ _ _ _ _ h => (nomatch h), fun _ _ h => ?_⟩, hstop⟩
  cases h
  exact .inl hscopes

/-- A declaration that bound its name, in scopes that the names of the start were kept in. -/
theorem post_of_bound {t : Task} {s s' : State} {name : String} {r : ScopeRef}
    (ht : t.binding? = some (name, r)) (hfree : s.store.scopes.contains r name = false)
    (hscopes : Scopes.Declares r name s.store.scopes s'.store.scopes) :
    (names settings R).Post t s (.ok .null s') := by
  refine ⟨⟨fun h => ?_, fun name' r' v s'' hbind hend => ?_, fun _ _ h => (nomatch h)⟩, trivial⟩
  · rw [ht] at h
    cases h
  · rw [ht] at hbind
    cases hbind
    cases hend
    exact ⟨rfl, hfree, hscopes⟩

theorem run_checkFree_bind {α : Type} (r : ScopeRef) (pos : Pos) (name : String)
    (f : Unit → Script α) (s : State) :
    ((liftM (checkFree r pos name) : Script Unit) >>= f) s =
      if s.store.scopes.contains r name = true then
        .done (.error (.fault ⟨pos, .alreadyDefined name⟩) s)
      else f () s := by
  rw [Script.run_bind, run_lift, checkFree, Run.run_bind, show store s = .ok s.store s from rfl]
  dsimp only
  split <;> rfl

theorem ensures_runDeclaration {pos : Pos} {isConst : Bool} {name : String} {value : Expr}
    {s : State} (hpre : (names settings R).Pre (.stmt (.declare pos isConst name value) scope) s) :
    (runDeclaration settings scope pos isConst name value s).Ensures (names settings R)
      ((names settings R).Post (.stmt (.declare pos isConst name value) scope) s) := by
  unfold runDeclaration
  rw [run_checkFree_bind]
  split
  · rename_i hbound
    exact post_of_stopped (.refl _) (allows_of_pre hpre rfl hbound _)
  · rename_i hfree
    have hfree : s.store.scopes.contains scope name = false := by simpa using hfree
    refine (framed_expr s).bind (fun v s₁ h₁ => ?_) fun stop s' h => post_of_stopped h.scopes h.stops
    have hscopes := h₁.scopes.declares (Scopes.declares_set s₁.store.scopes scope name v)
    rw [run_bind_bind, Script.run_bind, run_lift,
      run_trace_inspect settings 2 v
        (("declare " ++ (if isConst then "const " else "let ") ++ name ++ " = ") ++ ·)]
    split
    · rename_i hlevel
      -- The name is bound by now; only the trace can still stop the declaration.
      split
      · exact post_of_bound rfl hfree hscopes
      · refine ⟨⟨fun h => (nomatch h), fun _ _ _ _ _ h => (nomatch h), fun _ _ h => ?_⟩,
          R.common rfl⟩
        cases h
        exact .inr ⟨name, scope, rfl, rfl, hlevel, hscopes⟩
    · exact post_of_bound rfl hfree hscopes

/-- A function that is free to be defined is defined. -/
theorem run_runFunction_of_free {pos : Pos} {name : String} {params : List String} {body : Block}
    {s : State} (hfree : s.store.scopes.contains scope name = false) :
    runFunction settings scope pos name params body s =
      .ok .null (traced settings 2 ("define function " ++ name)
        { s with
          store := s.store.newId.2.bind scope name
            (.function { id := s.store.newId.1, params, body, scope, pos }) }) := by
  have hcheck : checkFree scope pos name s = .ok () s := by
    rw [checkFree, Run.run_bind, show store s = .ok s.store s from rfl]
    dsimp only
    rw [hfree]
    rfl
  have hline : ∀ s, trace settings 2 (return "define function " ++ name) s =
      .ok () (traced settings 2 ("define function " ++ name) s) := fun s =>
    run_trace_pure s settings 2 ("define function " ++ name)
  rw [runFunction, Run.run_bind, hcheck]
  dsimp only
  rw [Run.run_bind, show makeClosure scope pos params body s = .ok
    (.function { id := s.store.newId.1, params, body, scope, pos })
    { s with store := s.store.newId.2 } from rfl]
  dsimp only
  rw [Run.run_bind, show ∀ v s, Run.bind scope name v s =
    .ok () { s with store := s.store.bind scope name v } from fun _ _ => rfl]
  dsimp only
  rw [Run.run_bind, hline]
  rfl

theorem run_runFunction_of_bound {pos : Pos} {name : String} {params : List String} {body : Block}
    {s : State} (hbound : s.store.scopes.contains scope name = true) :
    runFunction settings scope pos name params body s =
      .error (.fault ⟨pos, .alreadyDefined name⟩) s := by
  rw [runFunction, Run.run_bind, checkFree, Run.run_bind, show store s = .ok s.store s from rfl]
  dsimp only
  rw [hbound]
  rfl

theorem ensures_runFunction {pos : Pos} {name : String} {params : List String} {body : Block}
    {s : State} (hpre : (names settings R).Pre (.stmt (.func pos name params body) scope) s) :
    ((liftM (runFunction settings scope pos name params body) : Script Value) s).Ensures
      (names settings R) ((names settings R).Post (.stmt (.func pos name params body) scope) s) := by
  rw [run_lift]
  cases hbound : s.store.scopes.contains scope name with
  | true =>
    rw [run_runFunction_of_bound hbound]
    exact post_of_stopped (.refl _) (allows_of_pre hpre rfl hbound _)
  | false =>
    rw [run_runFunction_of_free hbound]
    refine post_of_bound rfl hbound ?_
    rw [traced_store]
    exact Scopes.declares_set _ scope name _

/-! ## Statements -/

/-- The statements bind different names, all free in the scope, unless every fault is a reason to
stop. -/
def FreeFor (R : Reasons) (r : ScopeRef) (ss : List Stmt) (s : State) : Prop :=
  ((Stmt.bindings ss).Nodup ∧ ∀ x ∈ Stmt.bindings ss, s.store.scopes.contains r x = false) ∨
    ∀ f, R.Allows (.fault f)

theorem FreeFor.pre {r : ScopeRef} {st : Stmt} {ss : List Stmt} {s : State}
    (h : FreeFor R r (st :: ss) s) : (names settings R).Pre (.stmt st r) s := by
  rcases h with ⟨-, hfree⟩ | hall
  · refine .inl fun name r' hbind => ?_
    obtain ⟨x, hx, hpair⟩ := Option.map_eq_some_iff.mp hbind
    cases hpair
    exact hfree name (by simp [Stmt.bindings, hx])
  · exact .inr hall

/-- Once a statement has run, the names of the others are still free. -/
theorem FreeFor.rest {r : ScopeRef} {st : Stmt} {ss : List Stmt} {s s' : State} {v : Value}
    (h : FreeFor R r (st :: ss) s) (hr : r.index < s.store.scopes.size)
    (hframe : (Task.stmt st r).Frame settings s (.ok v s')) : FreeFor R r ss s' := by
  rcases h with ⟨hdistinct, hfree⟩ | hall
  · cases hbind : st.binds? with
    | none =>
      have hrest : Stmt.bindings (st :: ss) = Stmt.bindings ss := by simp [Stmt.bindings, hbind]
      rw [hrest] at hdistinct hfree
      refine .inl ⟨hdistinct, fun x hx => ?_⟩
      have hsame := (hframe.other (by simp [Task.binding?, hbind])).contains_iff r x hr
      rw [Bool.eq_false_iff, ne_eq]
      exact fun h => absurd (hsame.mp h) (by simp [hfree x hx])
    | some y =>
      have hrest : Stmt.bindings (st :: ss) = y :: Stmt.bindings ss := by
        simp [Stmt.bindings, hbind]
      rw [hrest] at hdistinct hfree
      obtain ⟨hy, hdistinct⟩ := List.nodup_cons.mp hdistinct
      obtain ⟨-, -, hdeclares⟩ :=
        hframe.bound y r v s' (by simp [Task.binding?, hbind]) rfl
      refine .inl ⟨hdistinct, fun x hx => ?_⟩
      rw [Bool.eq_false_iff, ne_eq, hdeclares.contains_iff r x hr,
        hfree x (List.mem_cons_of_mem _ hx)]
      rintro (h | ⟨-, rfl⟩)
      · cases h
      · exact hy hx
  · exact .inr hall

theorem index_of_binding {st : Stmt} {name : String} {r r' : ScopeRef}
    (h : (Task.stmt st r).binding? = some (name, r')) : r' = r := by
  obtain ⟨_, -, hpair⟩ := Option.map_eq_some_iff.mp h
  cases hpair
  rfl

/-- Statements in a scope that is new: what they bind is not to be seen from the old ones. -/
theorem ensures_runStatements {base : Scopes Value} (hnew : base.size ≤ scope.index)
    {ss : List Stmt} : ∀ {s : State}, base.Extends s.store.scopes →
      scope.index < s.store.scopes.size → FreeFor R scope ss s →
      (runStatements scope ss s).Ensures (names settings R) fun ending =>
        base.Extends ending.state.store.scopes ∧ Ending.StopsFor R ending := by
  induction ss with
  | nil => exact fun hs _ _ => ⟨hs, trivial⟩
  | cons st ss ih =>
    intro s hs hr hfree
    refine ⟨hfree.pre, fun ending hpost => ?_⟩
    have hs' := hpost.1.extends_base (fun _ _ hbind => index_of_binding hbind ▸ hnew) hs
    cases ending with
    | error stop s' => exact ⟨hs', hpost.2⟩
    | ok v s' =>
      change Step.Ensures _ _ ((if v.isSignal = true then pure v else runStatements scope ss) s')
      split
      · exact ⟨hs', trivial⟩
      · exact ih hs' (Nat.lt_of_lt_of_le hr hpost.1.size_le) (hfree.rest hr hpost.1)

/-- A block runs in a new scope, in which no name is bound yet. -/
theorem framed_block {b : Block}
    (h : (Stmt.bindings b.statements).Nodup ∨ ∀ f, R.Allows (.fault f)) :
    Script.Framed settings R (runTask settings (.block b scope)) := by
  intro s
  rw [runTask, run_enclose_bind]
  have hr : (s.store.scopes.enclose scope).1.index < (s.store.scopes.enclose scope).2.size := by
    simp
  have hnew : s.store.scopes.size ≤ (s.store.scopes.enclose scope).1.index := Nat.le_refl _
  refine (ensures_runStatements hnew (Scopes.extends_enclose s.store.scopes scope) hr
    ?_).mono fun _ h => ⟨h.1, h.2⟩
  exact h.imp_left fun hdistinct =>
    ⟨hdistinct, fun x _ => Scopes.contains_enclose_self s.store.scopes scope x⟩

theorem framed_proceeds {word : String} {condition : Option Expr} :
    Script.Framed settings R (proceeds settings word scope condition) := by
  cases condition with
  | none => exact .pure _
  | some c => exact framed_evalCondition

theorem framed_runUpdate {update : Option Expr} :
    Script.Framed settings R (runUpdate scope update) := by
  cases update with
  | none => exact .pure _
  | some u => exact .bind framed_expr fun _ => .pure _

theorem framed_runLoop {word : String} {condition update : Option Expr} {body : Block}
    {fuel iteration : Nat} :
    Script.Framed settings R (runLoop settings word scope condition update body fuel iteration) := by
  induction fuel generalizing iteration with
  | zero => exact .lift (.throw _ rfl)
  | succ fuel ih =>
    rw [runLoop]
    refine .bind framed_proceeds fun _ => .ite ?_ (.pure _)
    refine .bind (.run (framed_trace (.pure _))) fun _ => .bind (.ask rfl) fun v => ?_
    cases loopEnd? v with
    | some result => exact .pure _
    | none => exact .bind framed_runUpdate fun _ => ih

/-- The first clause of a `for` binds its name in the scope of the loop. -/
theorem framed_runFor {init : Option Stmt} {condition update : Option Expr} {body : Block} :
    Script.Framed settings R (runFor settings scope init condition update body) := by
  intro s
  unfold runFor
  rw [run_enclose_bind]
  have hscopes := Scopes.extends_enclose s.store.scopes scope
  have hinit : (runInit (s.store.scopes.enclose scope).1 init
      { s with store := (s.store.enclose scope).2 }).Ensures (names settings R)
      (Ending.Framed R s) := by
    cases init with
    | none => exact ⟨hscopes, trivial⟩
    | some st =>
      refine ⟨.inl fun x r hbind => ?_, fun ending hpost => ?_⟩
      · rw [index_of_binding hbind]
        exact Scopes.contains_enclose_self s.store.scopes scope x
      · have hs' := hpost.1.extends_base
          (fun _ _ hbind => index_of_binding hbind ▸ Nat.le_refl s.store.scopes.size) hscopes
        cases ending with
        | ok v s' => exact ⟨hs', trivial⟩
        | error stop s' => exact ⟨hs', hpost.2⟩
  exact hinit.then_framed fun _ => framed_runLoop

/-! ## All tasks -/

/-- **The script of each task meets the specification**: it binds its own name, if any, and stops
for one of the reasons. -/
theorem ensures_runTask {t : Task} {s : State} (hfit : t.Fit R)
    (hpre : (names settings R).Pre t s) :
    (runTask settings t s).Ensures (names settings R) ((names settings R).Post t s) := by
  have hframed : ∀ {m : Script Value}, t.binding? = none → Script.Framed settings R m →
      (m s).Ensures (names settings R) ((names settings R).Post t s) :=
    fun ht hm => (hm s).mono fun _ h => h.post ht
  cases t with
  | expr e r => exact hframed rfl (framed_evalExpr hfit.condition)
  | block b r => exact hframed rfl (framed_block hfit.bindings)
  | apply pos f args => exact hframed rfl framed_apply
  | stmt st r =>
    cases st with
    | expr pos literal e => exact hframed rfl (framed_evalExpr hfit.condition)
    | declare => exact ensures_runDeclaration hpre
    | «return» pos value =>
      refine hframed rfl ?_
      cases value with
      | none => exact .bind (.lift basic_newId) fun _ => .pure _
      | some e => exact .bind framed_expr fun _ => .bind (.lift basic_newId) fun _ => .pure _
    | «while» => exact hframed rfl (.bind (framed_present hfit.condition) fun _ => framed_runLoop)
    | «for» => exact hframed rfl framed_runFor
    | func => exact ensures_runFunction hpre

theorem sound_names : (names settings R).Sound settings (Task.Fit R) where
  exhausted _ _ _ := post_of_stopped (.refl _) (R.common rfl)
  script _ _ hfit hpre := ensures_runTask hfit hpre

/-- The statements of a program, in a root scope that is there. -/
theorem ensures_runTopLevel {ss : List Stmt} : ∀ {s : State} {last : Value},
    Scopes.root.index < s.store.scopes.size → FreeFor R Scopes.root ss s →
    (runTopLevel last ss s).Ensures (names settings R) (Ending.StopsFor R) := by
  induction ss with
  | nil => exact fun _ _ => trivial
  | cons st ss ih =>
    intro s last hr hfree
    refine ⟨hfree.pre, fun ending hpost => ?_⟩
    cases ending with
    | error stop s' => exact hpost.2
    | ok v s' =>
      have hrest : ∀ v, (runTopLevel v ss s').Ensures (names settings R) (Ending.StopsFor R) :=
        fun _ => ih (Nat.lt_of_lt_of_le hr hpost.1.size_le) (hfree.rest hr hpost.1)
      cases v with
      | returned => trivial
      | «break» => exact R.common rfl
      | «continue» => exact R.common rfl
      | _ => exact hrest _

end Eval

end Vorn
