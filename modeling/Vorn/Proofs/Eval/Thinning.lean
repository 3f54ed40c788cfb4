import Vorn.Proofs.Eval.Sights

/-!
# Runs at two levels of the trace

A state is thinned to a level by leaving out the lines of its trace that are of higher classes
(`State.thin`). A run thins another (`Run.Thins`) if from a thinned state it does what the other
does, and ends with the trace thinned; a script does so (`Script.Thins`) if it hands out the same
tasks in thinned states. Here the two come from one script at two levels.

A line shows values only if it is made, so that at a higher level it may fail on a value that
contains itself. So the relation asks for a thinned ending only of tasks whose value is clear where
it is shown. What the lines need is that the lower level is no higher than the other, as far as
there are classes at all (`LevelWithin`).

* `Step.Thins.play`: what the tasks do with thinned states, the steps do as a whole;
* `Eval.eval_thin`: a task at the lower level, from a thinned state, ends as it does at the higher
  level, with the trace thinned.
-/

namespace Vorn

/-- The settings with another level of the trace. -/
def Settings.tracing (k : Nat) (settings : Settings) : Settings :=
  { settings with traceLevel := k }

/-- The state without the lines of classes above `k`. -/
def State.thin (k : Nat) (s : State) : State := s.retraced (s.trace.filter (·.classOf ≤ k))

@[simp] theorem State.thin_store (k : Nat) (s : State) : (s.thin k).store = s.store := rfl

@[simp] theorem State.thin_output (k : Nat) (s : State) : (s.thin k).output = s.output := rfl

/-- The ending without the lines of classes above `k`. -/
def Ending.thin {α : Type} (k : Nat) : Ending α → Ending α
  | .ok a s => .ok a (s.thin k)
  | .error stop s => .error stop (s.thin k)

/-- All lines that are kept at level `k` are kept at level `top`. -/
def LevelWithin (k top : Nat) : Prop := min k 3 ≤ top

instance (k top : Nat) : Decidable (LevelWithin k top) :=
  inferInstanceAs (Decidable (min k 3 ≤ top))

/-! ## Runs -/

namespace Run

variable {α β : Type} {k top : Nat} {settings : Settings}

/-- From a thinned state the first run does what the second does, with the trace thinned. -/
def Thins (k : Nat) (m m' : Run α) : Prop := ∀ s, m (s.thin k) = Ending.thin k (m' s)

/-- A basic run neither reads nor writes the trace. -/
theorem Basic.thins {m : Run α} (h : Basic .changing m) : Thins k m m := by
  intro s
  have htrace := h.trace_eq s
  rw [State.thin, h.run_retraced]
  cases hrun : m s with
  | ok a s' | error stop s' =>
    rw [hrun] at htrace
    rw [← show s'.trace = s.trace from htrace]
    rfl

theorem Thins.bind {m m' : Run α} {f f' : α → Run β} (hm : Thins k m m')
    (hf : ∀ a, Thins k (f a) (f' a)) : Thins k (m >>= f) (m' >>= f') := by
  intro s
  rw [run_bind, run_bind, hm s]
  cases m' s with
  | ok a s' => exact hf a s'
  | error stop s' => rfl

theorem thins_throw (stop : Stop) : Thins k (throw stop : Run α) (throw stop) := fun _ => rfl

theorem thins_enclose (r : ScopeRef) : Thins k (enclose r) (enclose r) := fun _ => rfl

theorem thins_bind (r : ScopeRef) (name : String) (v : Value) :
    Thins k (Run.bind r name v) (Run.bind r name v) :=
  fun _ => rfl

/-! ## Lines of the trace -/

/-- Thinning keeps a line of a class that is kept, and drops any other. -/
theorem thin_push (s : State) (line : TraceLine) :
    { s with trace := s.trace.push line : State }.thin k =
      if line.classOf ≤ k then { s.thin k with trace := (s.thin k).trace.push line }
      else s.thin k := by
  split <;> simp_all [State.thin, State.retraced]

/-- A line goes into the thinned trace just if its class does, provided that it is made. -/
theorem trace_thin {line : Run String} (head : String) {level : Nat} {s : State}
    (hwithin : LevelWithin k top) (hbasic : Basic .changing line) (hhead : (head, level) ∈ TraceLine.heads)
    (hmade : level ≤ top → ∃ rest, line s = .ok (head ++ rest) s) :
    trace (settings.tracing k) level line (s.thin k) =
      Ending.thin k (trace (settings.tracing top) level line s) := by
  have hthree : level ≤ 3 := TraceLine.head_le_three _ hhead
  unfold trace
  by_cases htop : level ≤ top
  · obtain ⟨rest, hline⟩ := hmade htop
    have hline' := hbasic.thins (k := k) s
    rw [hline] at hline'
    have hclass : TraceLine.classOf ⟨level, head ++ rest⟩ = level :=
      TraceLine.classOf_head _ hhead level rest
    have hthin := thin_push (k := k) s ⟨level, head ++ rest⟩
    rw [hclass] at hthin
    rw [if_pos (show level ≤ (settings.tracing top).traceLevel from htop), run_bind, hline]
    change _ = EStateM.Result.ok () (State.thin k _)
    rw [hthin]
    by_cases hk : level ≤ k
    · rw [if_pos (show level ≤ (settings.tracing k).traceLevel from hk), run_bind, hline',
        if_pos hk]
      rfl
    · rw [if_neg (show ¬ level ≤ (settings.tracing k).traceLevel from hk), if_neg hk]
      rfl
  · -- There is no class above 3, so the line is not made at the lower level either.
    have hk : ¬ level ≤ k := by
      unfold LevelWithin at hwithin
      omega
    rw [if_neg (show ¬ level ≤ (settings.tracing top).traceLevel from htop),
      if_neg (show ¬ level ≤ (settings.tracing k).traceLevel from hk)]
    rfl

/-- A line that shows nothing. -/
theorem thins_trace_pure {text : String} (head rest : String) {level : Nat}
    (hwithin : LevelWithin k top) (hhead : (head, level) ∈ TraceLine.heads)
    (htext : text = head ++ rest) :
    Thins k (trace (settings.tracing k) level (pure text))
      (trace (settings.tracing top) level (pure text)) :=
  fun _ => trace_thin head hwithin (.pure text) hhead fun _ => ⟨rest, by rw [htext]; rfl⟩

/-- A clear value can be shown. -/
theorem inspect_of_clear {s : State} {v : Value} (h : s.store.Clear v) :
    ∃ text, inspect v s = .ok text s := by
  obtain ⟨text, htext⟩ := Option.isSome_iff_exists.mp (Store.inspect?_isSome_iff.mpr h)
  exact ⟨text, run_inspect htext⟩

theorem mapM_inspect_of_clear {s : State} : ∀ {vs : List Value}, (∀ v ∈ vs, s.store.Clear v) →
    ∃ texts, vs.mapM inspect s = .ok texts s
  | [], _ => ⟨[], rfl⟩
  | v :: vs, h => by
    rw [List.forall_mem_cons] at h
    obtain ⟨text, hv⟩ := inspect_of_clear h.1
    obtain ⟨texts, hvs⟩ := mapM_inspect_of_clear h.2
    refine ⟨text :: texts, ?_⟩
    rw [List.mapM_cons, run_bind, hv]
    dsimp only
    rw [run_bind, hvs]
    rfl

/-- A line that shows one value. -/
theorem trace_inspect_thin {f : String → String} (head : String) {level : Nat} {s : State}
    {v : Value} (hwithin : LevelWithin k top) (hhead : (head, level) ∈ TraceLine.heads)
    (hf : ∀ text, ∃ rest, f text = head ++ rest) (hclear : level ≤ top → s.store.Clear v) :
    trace (settings.tracing k) level (do return f (← inspect v)) (s.thin k) =
      Ending.thin k (trace (settings.tracing top) level (do return f (← inspect v)) s) := by
  refine trace_thin head hwithin (.bind (basic_inspect v) fun _ => .pure _) hhead fun htop => ?_
  obtain ⟨text, htext⟩ := inspect_of_clear (hclear htop)
  obtain ⟨rest, hrest⟩ := hf text
  refine ⟨rest, ?_⟩
  rw [run_bind, htext, ← hrest]
  rfl

end Run

open Run

/-! ## Steps and scripts -/

/-- The first steps hand out the same tasks as the second, in thinned states, and end with the trace
thinned. They go on with thinned endings, as far as the values are clear that are shown. -/
inductive Step.Thins (shows? : Task → Option Nat) (k top : Nat) {α : Type} :
    Step α → Step α → Prop
  | done (ending : Ending α) : Thins shows? k top (.done (ending.thin k)) (.done ending)
  | ask (t : Task) (s : State) {resume resume' : Ending Value → Step α}
      (h : ∀ ending, Sight.AllClear top (Ending.sights (shows? t) ending) →
        Thins shows? k top (resume (ending.thin k)) (resume' ending)) :
      Thins shows? k top (.ask t (s.thin k) resume) (.ask t s resume')

namespace Step.Thins

variable {α β : Type} {shows? : Task → Option Nat} {k top : Nat} {m m' : Step α}

theorem bind {f f' : α → State → Step β} (hm : Thins shows? k top m m')
    (hf : ∀ a s, Thins shows? k top (f a (s.thin k)) (f' a s)) :
    Thins shows? k top (m.bind f) (m'.bind f') := by
  induction hm with
  | done ending =>
    cases ending with
    | ok a s => exact hf a s
    | error stop s => exact .done (.error stop s)
  | ask t s _ ih => exact .ask t s ih

/-- Played with tasks that do so, the steps end with the trace thinned. -/
theorem play {go go' : Task → Run Value} {tell : Task → State → List Sight}
    (hgo : ∀ t s, Sight.AllClear top (tell t s) → go t (s.thin k) = Ending.thin k (go' t s))
    (hm : Thins shows? k top m m') (hclear : Sight.AllClear top (m'.sights shows? go' tell)) :
    m.play go = Ending.thin k (m'.play go') := by
  induction hm with
  | done ending => rfl
  | ask t s _ ih =>
    obtain ⟨htask, hrest⟩ := List.forall_mem_append.mp hclear
    obtain ⟨hvalue, hrest⟩ := List.forall_mem_append.mp hrest
    rw [Step.play, hgo t s htask]
    exact ih _ hvalue hrest

end Step.Thins

namespace Script

variable {α β : Type} {shows? : Task → Option Nat} {k top : Nat}

/-- From a thinned state the first script does what the second does. -/
def Thins (shows? : Task → Option Nat) (k top : Nat) (m m' : Script α) : Prop :=
  ∀ s, Step.Thins shows? k top (m (s.thin k)) (m' s)

namespace Thins

theorem pure (a : α) : Thins shows? k top (Pure.pure a : Script α) (Pure.pure a) :=
  fun s => .done (.ok a s)

theorem run {m m' : Run α} (h : Run.Thins k m m') :
    Thins shows? k top (liftM m : Script α) (liftM m' : Script α) := by
  intro s
  rw [run_lift, run_lift, h s]
  exact .done (m' s)

theorem lift {m : Run α} (h : Basic .changing m) :
    Thins shows? k top (liftM m : Script α) (liftM m : Script α) :=
  run h.thins

theorem throw (stop : Stop) :
    Thins shows? k top (liftM (MonadExcept.throw stop : Run α) : Script α)
      (liftM (MonadExcept.throw stop : Run α) : Script α) :=
  run (thins_throw stop)

theorem bind {m m' : Script α} {f f' : α → Script β} (hm : Thins shows? k top m m')
    (hf : ∀ a, Thins shows? k top (f a) (f' a)) : Thins shows? k top (m >>= f) (m' >>= f') :=
  fun s => (hm s).bind fun a s' => hf a s'

theorem ask (t : Task) : Thins shows? k top (Script.ask t) (Script.ask t) :=
  fun s => .ask t s fun ending _ => .done ending

/-- What goes on with the value of a task may rely on its being clear where it is shown. -/
theorem ask_bind {t : Task} {f f' : Value → Script α}
    (h : ∀ v s, (∀ level, shows? t = some level → level ≤ top → s.store.Clear v) →
      Step.Thins shows? k top (f v (s.thin k)) (f' v s)) :
    Thins shows? k top (Script.ask t >>= f) (Script.ask t >>= f') := by
  refine fun s => .ask t s fun ending hclear => ?_
  cases ending with
  | error stop s' => exact .done (.error stop s')
  | ok v s' =>
    refine h v s' fun level hlevel htop => hclear ⟨level, s'.store, v⟩ ?_ htop
    rw [Ending.sights, hlevel]
    exact List.mem_singleton.mpr rfl

theorem ite {c : Prop} [Decidable c] {m₁ m₂ m₁' m₂' : Script α}
    (h₁ : Thins shows? k top m₁ m₁') (h₂ : Thins shows? k top m₂ m₂') :
    Thins shows? k top (if c then m₁ else m₂) (if c then m₁' else m₂') := by
  split
  · exact h₁
  · exact h₂

/-- A check in front of the rest. -/
theorem check {c : Prop} [Decidable c] {m : Script Unit} {f f' : Unit → Script α}
    (hm : Thins shows? k top m m) (hf : ∀ u, Thins shows? k top (f u) (f' u)) :
    Thins shows? k top (if c then m >>= f else f ()) (if c then m >>= f' else f' ()) :=
  ite (bind hm hf) (hf ())

end Thins

/-- A run in front of the rest, from one state. -/
theorem thins_lift_bind {m m' : Run α} {f f' : α → Script β} {s : State}
    (hm : m (s.thin k) = Ending.thin k (m' s))
    (hf : ∀ a s', Step.Thins shows? k top (f a (s'.thin k)) (f' a s')) :
    Step.Thins shows? k top (((liftM m : Script α) >>= f) (s.thin k))
      (((liftM m' : Script α) >>= f') s) := by
  rw [run_bind, run_bind, run_lift, run_lift, hm]
  exact Step.Thins.bind (.done (m' s)) hf

/-- What built-in functions and methods do, callbacks included, leaves the trace alone. -/
theorem Library.thins {reach : Reach} {C : Value → Prop} {m : Script α}
    (h : Library reach C m) : Thins shows? k top m m := by
  induction h with
  | pure a => exact .pure a
  | lift h => exact .lift h.changing
  | call _ pos args => exact .ask _
  | bind _ _ ihm ihf => exact .bind ihm ihf
  | @lift_bind _ _ m f hm _ ihf =>
    intro s
    rw [run_bind, run_bind, run_lift, run_lift, hm.changing.thins s]
    cases hend : m s with
    | error stop s' => exact .done (.error stop s')
    | ok a s' => exact ihf a s s' hend s'

end Script

open Script

/-! ## Scripts that make no lines -/

namespace Eval

variable {shows? : Task → Option Nat} {k top : Nat} {settings : Settings} {scope : ScopeRef}
  {pos : Pos}

theorem thins_present {α : Type} : ∀ o : Option α,
    Thins shows? k top (liftM (present o) : Script α) (liftM (present o) : Script α)
  | some a => .pure a
  | none => .throw .incomplete

theorem thins_evalAll (es : List Expr) :
    Thins shows? k top (evalAll scope es) (evalAll scope es) := by
  induction es with
  | nil => exact .pure _
  | cons e es ih => exact .bind (.ask _) fun _ => .bind ih fun _ => .pure _

theorem thins_bindAll : ∀ ps vs, Run.Thins k (bindAll scope ps vs) (bindAll scope ps vs)
  | p :: ps, v :: vs => (thins_bind scope p v).bind fun _ => thins_bindAll ps vs
  | [], _ => fun _ => rfl
  | _ :: _, [] => fun _ => rfl

theorem thins_runBody {body : Block} :
    Thins shows? k top (runBody pos body scope) (runBody pos body scope) := by
  refine fun s => .ask _ s fun ending _ => ?_
  match ending with
  | .ok v s' => exact .done (.ok v s')
  | .error .exhausted s' => exact .done (.error (.fault ⟨pos, .stackOverflow⟩) s')
  | .error (.fault f) s' => exact .done (.error (.fault f) s')
  | .error .outOfFuel s' => exact .done (.error .outOfFuel s')
  | .error .incomplete s' => exact .done (.error .incomplete s')

/-- Of the settings, methods read only the bound on iterations. -/
theorem thins_callMethod {receiver : Value} {name : String} {args : List Value} :
    Thins shows? k top (callMethod (settings.tracing k) receiver pos name args)
      (callMethod (settings.tracing top) receiver pos name args) :=
  library_callMethod.thins

theorem thins_evalPairs : ∀ ps t, Thins shows? k top (evalPairs scope t ps) (evalPairs scope t ps)
  | [], _ => .pure _
  | (_, _) :: ps, t => by
    refine .bind (.ask _) fun key => ?_
    split
    · exact .throw _
    · exact .bind (.ask _) fun _ => thins_evalPairs ps _

theorem thins_evalBinary {op : BinaryOp} {l r : Expr} :
    Thins shows? k top (evalBinary scope pos op l r) (evalBinary scope pos op l r) := by
  refine .bind (.ask _) fun left => ?_
  split
  · exact .ite (.bind (.ask _) fun _ => .pure _) (.pure _)
  · exact .ite (.pure _) (.bind (.ask _) fun _ => .pure _)
  · exact .bind (.ask _) fun _ => .lift (basic_ofResult Operator.common_binary)

theorem thins_evalStep {op : StepOp} {name : String} {before : Bool} :
    Run.Thins k (evalStep scope pos op name before) (evalStep scope pos op name before) := by
  refine Run.Thins.bind Basic.store.thins fun store => ?_
  split
  · exact thins_throw _
  · refine (basic_ofResult Operator.common_step).thins.bind fun new => ?_
    exact (thins_bind _ name new).bind fun _ => (Basic.pure _).thins

theorem thins_runStatements (ss : List Stmt) :
    Thins shows? k top (runStatements scope ss) (runStatements scope ss) := by
  induction ss with
  | nil => exact .pure _
  | cons st ss ih => exact .bind (.ask _) fun _ => .ite (.pure _) ih

theorem thins_checkFree {name : String} :
    Run.Thins k (checkFree scope pos name) (checkFree scope pos name) := by
  refine Run.Thins.bind Basic.store.thins fun store => ?_
  split
  · exact thins_throw _
  · exact (Basic.pure _).thins

theorem thins_runUpdate : ∀ update,
    Thins shows? k top (runUpdate scope update) (runUpdate scope update)
  | some _ => .bind (.ask _) fun _ => .pure _
  | none => .pure _

theorem thins_runInit : ∀ init, Thins shows? k top (runInit scope init) (runInit scope init)
  | some _ => .bind (.ask _) fun _ => .pure _
  | none => .pure _

theorem thins_runTopLevel : ∀ ss last,
    Thins shows? k top (runTopLevel last ss) (runTopLevel last ss)
  | [], _ => .pure _
  | _ :: ss, _ => by
    refine .bind (.ask _) fun v => ?_
    split
    · exact .pure _
    · exact .throw _
    · exact .throw _
    · exact thins_runTopLevel ss _

/-! ## Scripts that make lines -/

section

variable (hwithin : LevelWithin k top)
include hwithin

/-- The line of a call shows the arguments. -/
theorem thins_applyClosure {c : Closure} {args : List Value} {s : State}
    (hclear : Sight.AllClear top (Task.opens (.apply pos (.function c) args) s)) :
    Step.Thins shows? k top (applyClosure (settings.tracing k) pos c args (s.thin k))
      (applyClosure (settings.tracing top) pos c args s) := by
  unfold applyClosure
  by_cases hcount : args.length = c.params.length
  · rw [Task.opens, if_pos hcount] at hclear
    rw [if_neg (not_not_intro hcount), if_neg (not_not_intro hcount)]
    refine thins_lift_bind (trace_thin "call " hwithin ?_ (by decide) fun htop => ?_)
      fun _ s' => ?_
    · exact .bind (.mapM basic_inspect args) fun _ => .pure _
    · obtain ⟨texts, htexts⟩ := mapM_inspect_of_clear fun v hv =>
        hclear ⟨2, s.store, v⟩ (List.mem_map_of_mem hv) htop
      refine ⟨"func" ++ parenthesized c.params ++ " with " ++ parenthesized texts, ?_⟩
      rw [Run.run_bind, htexts]
      simp only [← String.append_assoc]
      rfl
    · refine Thins.bind (.run (thins_enclose _)) (fun inner => ?_) s'
      refine .bind (.run (thins_bindAll _ _)) fun _ => .bind thins_runBody fun v => ?_
      split
      · exact .pure _
      · exact .throw _
      · exact .throw _
      · exact .pure _
  · rw [if_pos hcount, if_pos hcount]
    exact .done (.error _ s)

theorem thins_applyBuiltin {b : Builtin} {args : List Value} :
    Thins shows? k top (applyBuiltin (settings.tracing k) pos b args)
      (applyBuiltin (settings.tracing top) pos b args) := by
  have hrun : b.run (settings.tracing k) pos args = b.run (settings.tracing top) pos args := by
    rfl
  have hrest : Thins shows? k top (do
      Run.trace (settings.tracing k) 2 (return "call builtin " ++ b.name)
      b.run (settings.tracing k) pos args : Script Value) (do
      Run.trace (settings.tracing top) 2 (return "call builtin " ++ b.name)
      b.run (settings.tracing top) pos args) := by
    rw [hrun]
    refine .bind (.run ?_) fun _ => Builtin.library_run.thins
    exact thins_trace_pure "call " ("builtin " ++ b.name) hwithin (by decide)
      (by rw [← String.append_assoc]; rfl)
  unfold applyBuiltin
  split
  · exact .check (.throw _) fun _ => hrest
  · exact hrest

theorem thins_evalCondition {word : String} {condition : Expr}
    (hword : (word ++ " condition ", 3) ∈ TraceLine.heads)
    (hshows : shows? (.expr condition scope) = some 3) :
    Thins shows? k top (evalCondition (settings.tracing k) word scope condition)
      (evalCondition (settings.tracing top) word scope condition) := by
  refine .ask_bind fun v s hclear => thins_lift_bind ?_ fun _ s' => Thins.pure _ s'
  refine trace_inspect_thin (word ++ " condition ") hwithin hword (fun text => ?_) (hclear 3 hshows)
  exact ⟨text ++ " -> " ++ verdict v.isTruthy, by simp only [String.append_assoc]⟩

theorem thins_evalCond {condition : Option Expr} {consequence : Block}
    {alternative : Option Block} :
    Thins (Expr.cond pos condition consequence alternative).shows? k top
      (evalCond (settings.tracing k) scope condition consequence alternative)
      (evalCond (settings.tracing top) scope condition consequence alternative) := by
  refine .bind (thins_present condition) fun c => ?_
  refine .bind (thins_evalCondition hwithin (by decide) rfl) fun holds => .ite (.ask _) ?_
  split
  · exact .ask _
  · exact .pure _

/-- A value is bound and then shown. -/
theorem thins_bind_shown {name : String} {v w : Value} {f : String → String} {s : State}
    (head : String) (hhead : (head, 2) ∈ TraceLine.heads)
    (hf : ∀ text, ∃ rest, f text = head ++ rest) (hclear : 2 ≤ top → s.store.Clear v) :
    Step.Thins shows? k top
      ((do
        Run.bind scope name v
        Run.trace (settings.tracing k) 2 (return f (← inspect v))
        return w : Script Value) (s.thin k))
      ((do
        Run.bind scope name v
        Run.trace (settings.tracing top) 2 (return f (← inspect v))
        return w : Script Value) s) := by
  rw [run_bind_bind, run_bind_bind]
  refine thins_lift_bind (s := { s with store := s.store.bind scope name v }) ?_
    fun _ s' => Thins.pure w s'
  exact trace_inspect_thin head hwithin hhead hf fun htop => (hclear htop).bind scope name v

theorem thins_evalAssign {name : String} {value : Expr} :
    Thins (Expr.assign pos name value).shows? k top
      (evalAssign (settings.tracing k) scope pos name value)
      (evalAssign (settings.tracing top) scope pos name value) := by
  refine .bind (.lift .store) fun store => ?_
  split
  · exact .throw _
  · refine .ask_bind fun v s hclear => ?_
    exact thins_bind_shown hwithin "assign " (by decide)
      (fun text => ⟨name ++ " = " ++ text, by simp only [String.append_assoc]⟩) (hclear 2 rfl)

theorem thins_evalExpr (e : Expr) :
    Thins e.shows? k top (evalExpr (settings.tracing k) scope e)
      (evalExpr (settings.tracing top) scope e) := by
  cases e with
  | int | float | bool | null | string => exact .pure _
  | ident => exact .lift basic_evalName
  | array => exact .bind (thins_evalAll _) fun _ => .lift (basic_newArray _ _)
  | hash => exact .bind (thins_evalPairs _ _) fun _ => .lift (basic_newTable _ _)
  | func => exact .lift basic_makeClosure
  | unary => exact .bind (.ask _) fun _ => .lift (basic_ofResult Operator.common_unary)
  | binary => exact thins_evalBinary
  | cond => exact thins_evalCond hwithin
  | call => exact .bind (.ask _) fun _ => .bind (thins_evalAll _) fun _ => .ask _
  | index => exact .bind (.ask _) fun _ => .bind (.ask _) fun _ => .lift basic_evalIndex
  | member => exact .bind (.ask _) fun _ => .throw _
  | method => exact .bind (.ask _) fun _ => .bind (thins_evalAll _) fun _ => thins_callMethod
  | assign => exact thins_evalAssign hwithin
  | step => exact .run thins_evalStep
  | «break» | «continue» => exact .bind (.lift basic_newId) fun _ => .pure _

theorem thins_runDeclaration {isConst : Bool} {name : String} {value : Expr} :
    Thins (Stmt.declare pos isConst name value).shows? k top
      (runDeclaration (settings.tracing k) scope pos isConst name value)
      (runDeclaration (settings.tracing top) scope pos isConst name value) := by
  refine .bind (.run thins_checkFree) fun _ => .ask_bind fun v s hclear => ?_
  refine thins_bind_shown hwithin "declare " (by decide) (fun text => ?_) (hclear 2 rfl)
  exact ⟨(if isConst then "const " else "let ") ++ name ++ " = " ++ text,
    by simp only [String.append_assoc]⟩

theorem thins_runFunction {name : String} {params : List String} {body : Block} :
    Run.Thins k (runFunction (settings.tracing k) scope pos name params body)
      (runFunction (settings.tracing top) scope pos name params body) := by
  refine Run.Thins.bind thins_checkFree fun _ => ?_
  refine Run.Thins.bind basic_makeClosure.thins fun f => ?_
  refine Run.Thins.bind (thins_bind scope name f) fun _ => ?_
  refine Run.Thins.bind ?_ fun _ => (Basic.pure _).thins
  exact thins_trace_pure "define function " name hwithin (by decide) rfl

theorem thins_proceeds {word : String} {condition : Option Expr}
    (hword : (word ++ " condition ", 3) ∈ TraceLine.heads)
    (hshows : ∀ c, condition = some c → shows? (.expr c scope) = some 3) :
    Thins shows? k top (proceeds (settings.tracing k) word scope condition)
      (proceeds (settings.tracing top) word scope condition) := by
  cases condition with
  | none => exact .pure true
  | some c => exact thins_evalCondition hwithin hword (hshows c rfl)

theorem thins_runLoop {word : String} {condition update : Option Expr} {body : Block}
    (hcondition : (word ++ " condition ", 3) ∈ TraceLine.heads)
    (hiteration : (word ++ " iteration ", 3) ∈ TraceLine.heads)
    (hshows : ∀ c, condition = some c → shows? (.expr c scope) = some 3) : ∀ fuel iteration,
    Thins shows? k top
      (runLoop (settings.tracing k) word scope condition update body fuel iteration)
      (runLoop (settings.tracing top) word scope condition update body fuel iteration)
  | 0, _ => .throw _
  | fuel + 1, iteration => by
    refine .bind (thins_proceeds hwithin hcondition hshows) fun _ => .ite ?_ (.pure _)
    refine .bind (.run ?_) fun _ => .bind (.ask _) fun v => ?_
    · exact thins_trace_pure (word ++ " iteration ") iteration.repr hwithin hiteration rfl
    · split
      · exact .pure _
      · exact .bind (thins_runUpdate update) fun _ =>
          thins_runLoop hcondition hiteration hshows fuel _

theorem thins_runFor {init : Option Stmt} {condition update : Option Expr} {body : Block} :
    Thins (Stmt.for pos init condition update body).shows? k top
      (runFor (settings.tracing k) scope init condition update body)
      (runFor (settings.tracing top) scope init condition update body) := by
  refine .bind (.run (thins_enclose scope)) fun inner => .bind (thins_runInit init) fun _ => ?_
  refine thins_runLoop hwithin (by decide) (by decide) (fun c hc => ?_) _ _
  simp [Stmt.shows?, hc]

theorem thins_runStmt (st : Stmt) :
    Thins st.shows? k top (runStmt (settings.tracing k) scope st)
      (runStmt (settings.tracing top) scope st) := by
  cases st with
  | expr _ _ e => exact thins_evalExpr hwithin e
  | declare => exact thins_runDeclaration hwithin
  | «return» _ value =>
    cases value with
    | none => exact .bind (.lift basic_newId) fun _ => .pure _
    | some e => exact .bind (.ask _) fun _ => .bind (.lift basic_newId) fun _ => .pure _
  | «while» _ condition body =>
    refine .bind (thins_present condition) fun c => ?_
    exact thins_runLoop hwithin (by decide) (by decide) (fun _ _ => rfl) _ _
  | «for» => exact thins_runFor hwithin
  | func => exact .run (thins_runFunction hwithin)

/-- **The script of a task at two levels**, if what the task shows first of all is clear. -/
theorem thins_runTask {t : Task} {s : State} (hclear : Sight.AllClear top (t.opens s)) :
    Step.Thins t.shows? k top (runTask (settings.tracing k) t (s.thin k))
      (runTask (settings.tracing top) t s) := by
  match t with
  | .expr e _ => exact thins_evalExpr hwithin e s
  | .stmt st _ => exact thins_runStmt hwithin st s
  | .block b scope =>
    exact Thins.bind (.run (thins_enclose scope)) (fun inner => thins_runStatements _) s
  | .apply pos (.function c) args => exact thins_applyClosure hwithin hclear
  | .apply pos (.builtin b) args => exact thins_applyBuiltin hwithin s
  | .apply pos .null _ | .apply pos (.bool _) _ | .apply pos (.int _ _) _
  | .apply pos (.float _ _) _ | .apply pos (.string _ _) _ | .apply pos (.array _ _) _
  | .apply pos (.hash _ _) _ | .apply pos (.returned _ _ _) _ | .apply pos (.break _ _) _
  | .apply pos (.continue _ _) _ => exact .done (.error _ s)

/-- **A task at two levels.** If all that it shows at the higher level is clear, then at the lower
level it ends alike, with the trace thinned. -/
theorem eval_thin (depth : Nat) (t : Task) (s : State)
    (hclear : Sight.AllClear top (sights (settings.tracing top) depth t s)) :
    eval (settings.tracing k) depth t (s.thin k) =
      Ending.thin k (eval (settings.tracing top) depth t s) := by
  induction depth generalizing t s with
  | zero => rfl
  | succ depth ih =>
    obtain ⟨hopens, hinner⟩ := List.forall_mem_append.mp hclear
    exact (thins_runTask hwithin hopens).play ih hinner

end

end Eval

end Vorn
