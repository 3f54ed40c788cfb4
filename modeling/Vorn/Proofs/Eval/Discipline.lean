import Vorn.Proofs.Eval.Callbacks
import Vorn.Proofs.Scopes
import Vorn.Proofs.Tree.Nodes

/-!
# Disciplines

A discipline is what a contract owes for the forms of the language that deal with names and scopes:
assignments, declarations, blocks, loops and calls. Everything else is the same for all contracts,
so a contract with a discipline is valid (`Contract.Discipline.valid`).
-/

namespace Vorn

/-- The variable that a task assigns to, if it evaluates an assignment or a step, with the scope that
the variable is looked up from. -/
def Task.target? : Task → Option (String × ScopeRef)
  | .expr e r => e.target?.map fun t => (t.2, r)
  | .stmt s r => s.target?.map fun t => (t.2, r)
  | _ => none

namespace Contract

variable (C : Contract)

/-- What statements that run one after the other in a scope need. -/
def Seq : C.World → List Vorn.Stmt → ScopeRef → Prop
  | _, [], _ => True
  | w, s :: ss, r => C.Stmt w s r ∧ ∀ w', C.Le w w' → C.Ran w s r w' → Seq w' ss r

/-- What statements do in the scope `r` is not to be seen from `w`. -/
def Apart (w : C.World) (r : ScopeRef) : Prop :=
  ∀ w₁ w₂ s, C.Quiet w w₁ → C.Ran w₁ s r w₂ → C.Quiet w w₂

/-- What the clauses and the body of a loop need. -/
structure Clauses (w : C.World) (r : ScopeRef) (condition update : Option Vorn.Expr)
    (body : Vorn.Block) : Prop where
  condition : ∀ e ∈ condition, C.Expr w e r
  update : ∀ e ∈ update, C.Expr w e r
  body : C.Block w body r

/-- What an expression needs that is a statement of its own. A conditional and a signal need not be
fit for data there. -/
def Statement (w : C.World) (e : Vorn.Expr) (r : ScopeRef) : Prop :=
  C.Expr w e r ∨ e.isControl = true ∧ (∀ e' ∈ e.parts, C.Expr w e' r) ∧
    ∀ b ∈ e.branches, C.Block w b r

/-- What a contract owes for the forms that deal with names and scopes. -/
structure Discipline : Prop where
  expr_quiet : ∀ {w w' e r}, C.Quiet w w' → C.Expr w e r → C.Expr w' e r
  block_quiet : ∀ {w w' b r}, C.Quiet w w' → C.Block w b r → C.Block w' b r
  literal : ∀ {w pos text n r}, C.Expr w (.int pos text n) r → C.ints.Holds n
  part : ∀ {w e r}, C.Expr w e r → ∀ e' ∈ e.parts, C.Expr w e' r
  branch : ∀ {w e r}, C.Expr w e r → ∀ b ∈ e.branches, C.Block w b r
  signal : ∀ {w e r}, C.Expr w e r → e.isControl = true → C.Signals
  function : ∀ {w pos params body r}, C.Expr w (.func pos params body) r →
    ∀ id, C.Function w { id, params, body, scope := r, pos }
  /-- The variable is looked up before the new value is evaluated. -/
  assign : ∀ {w t s r name old target w₁ sc₁}, C.Needs w t → C.Assumed (.started t s) →
    t.target? = some (name, r) → C.Scoped w s.store.scopes →
    s.store.scopes.get? r name = some (old, target) → C.Quiet w w₁ → C.Scoped w₁ sc₁ →
    ∀ v, ∃ w₂, C.Quiet w₁ w₂ ∧ C.Scoped w₂ (sc₁.set target name v)
  stmt_expr : ∀ {w pos literal e r}, C.Stmt w (.expr pos literal e) r → C.Statement w e r
  stmt_part : ∀ {w s r}, C.Stmt w s r → s.isExpr = false → ∀ e ∈ s.parts, C.Expr w e r
  stmt_body : ∀ {w pos c body r}, C.Stmt w (.while pos c body) r → C.Block w body r
  declare : ∀ {w pos isConst name value r sc w₁ sc₁},
    C.Stmt w (.declare pos isConst name value) r → C.Scoped w sc → sc.contains r name = false →
    C.Quiet w w₁ → C.Scoped w₁ sc₁ →
    ∀ v, ∃ w₂, C.Le w₁ w₂ ∧ C.Scoped w₂ (sc₁.set r name v) ∧
      C.Ran w (.declare pos isConst name value) r w₂
  define : ∀ {w pos name params body r sc}, C.Stmt w (.func pos name params body) r →
    C.Scoped w sc → sc.contains r name = false →
    ∀ id, C.Function w { id, params, body, scope := r, pos } ∧
      ∀ v, ∃ w₂, C.Le w w₂ ∧ C.Scoped w₂ (sc.set r name v) ∧
        C.Ran w (.func pos name params body) r w₂
  other : ∀ {w s r w'}, s.binds? = none → C.Quiet w w' → C.Ran w s r w'
  enter : ∀ {w b r sc}, C.Block w b r → C.Scoped w sc →
    ∃ w', C.Quiet w w' ∧ C.Scoped w' (sc.enclose r).2 ∧ C.Apart w (sc.enclose r).1 ∧
      C.Seq w' b.statements (sc.enclose r).1
  loop : ∀ {w pos init condition update body r sc},
    C.Stmt w (.for pos init condition update body) r → C.Scoped w sc →
    ∃ w', C.Quiet w w' ∧ C.Scoped w' (sc.enclose r).2 ∧ C.Apart w (sc.enclose r).1 ∧
      match init with
      | none => C.Clauses w' (sc.enclose r).1 condition update body
      | some s => C.Stmt w' s (sc.enclose r).1 ∧
          ∀ w₁, C.Le w' w₁ → C.Ran w' s (sc.enclose r).1 w₁ →
            C.Clauses w₁ (sc.enclose r).1 condition update body
  call : ∀ {w c sc} {args : List Value}, C.Function w c → args.length = c.params.length →
    C.Scoped w sc →
    ∃ w', C.Quiet w w' ∧
      C.Scoped w' ((sc.enclose c.scope).2.bindAll (sc.enclose c.scope).1 c.params args) ∧
      C.Block w' c.body (sc.enclose c.scope).1

end Contract

open Script Run

namespace Eval

variable {C : Contract} (D : C.Discipline) {settings : Settings} {w : C.World} {s : State}
  {r : ScopeRef}

/-- The value of an expression is admitted. -/
abbrev Valued (C : Contract) (v : Value) (w : C.World) (_ : Store) : Prop := (C.law w).Admits v

/-- What a statement or block gives is admitted, or a signal. -/
abbrev Resulted (C : Contract) (v : Value) (w : C.World) (_ : Store) : Prop :=
  (C.law w).AdmitsResult v

/-! ## Runs on scopes -/

theorem holds_bind {w' : C.World} {sc : Store} (hs : C.Holds w sc) (hle : C.Le w w') {name : String}
    {v : Value} (hv : (C.law w').Admits v) (hscoped : C.Scoped w' (sc.scopes.set r name v)) :
    C.Holds w' (sc.bind r name v) :=
  ⟨(C.admitsStore_mono hle hs.admits).bind r name hv, hscoped⟩

theorem holds_enclose {w' : C.World} {sc : Store} (hs : C.Holds w sc) (hle : C.Le w w')
    (hscoped : C.Scoped w' (sc.scopes.enclose r).2) : C.Holds w' (sc.enclose r).2 :=
  ⟨(C.admitsStore_mono hle hs.admits).enclose r, hscoped⟩

theorem run_bindAll (r : ScopeRef) : ∀ (ps : List String) (vs : List Value) (s : State),
    bindAll r ps vs s =
      .ok () { s with store := { s.store with scopes := s.store.scopes.bindAll r ps vs } }
  | [], _, _ => by simp only [bindAll, Scopes.bindAll]; rfl
  | _ :: _, [], _ => by simp only [bindAll, Scopes.bindAll]; rfl
  | p :: ps, v :: vs, s => by
    rw [bindAll, Run.run_bind]
    exact run_bindAll r ps vs _

/-- The body of a function, which may stop at the call. -/
theorem quietly_runBody {pos : Pos} {body : Block} (hs : C.Holds w s.store)
    (hb : C.Block w body r) : (runBody pos body r s).Quietly C (Resulted C) w :=
  ⟨w, C.le_refl w, hs, hb, fun _ w' _ _ hs' hgives _ =>
    ⟨w', C.le_refl w', ⟨hgives.leaves, hs'⟩, hgives.yields⟩⟩

theorem admits_bindAll {L : Law} (r : ScopeRef) : ∀ (ps : List String) (vs : List Value) (st : Store),
    L.AdmitsStore st → (∀ v ∈ vs, L.Admits v) →
      L.AdmitsStore { st with scopes := st.scopes.bindAll r ps vs }
  | [], _, _, h, _ => by simpa only [Scopes.bindAll] using h
  | _ :: _, [], _, h, _ => by simpa only [Scopes.bindAll] using h
  | p :: ps, v :: vs, st, h, hvs => by
    obtain ⟨hv, hvs⟩ := List.forall_mem_cons.mp hvs
    exact admits_bindAll r ps vs (st.bind r p v) (h.bind r p hv) hvs

/-! ## Calls -/

section

include D

theorem quietly_applyClosure {pos : Pos} {c : Closure} {args : List Value}
    (hs : C.Holds w s.store) (hc : C.Function w c) (hargs : ∀ v ∈ args, (C.law w).Admits v) :
    (applyClosure settings pos c args s).Quietly C (Valued C) w := by
  unfold applyClosure
  refine .check hs fun hcount => ?_
  have hshown : Steady (do
      let shown ← args.mapM inspect
      return "call func" ++ parenthesized c.params ++ " with " ++ parenthesized shown) :=
    .bind (.mapM steady_inspect args) fun _ => .pure _
  refine .steady_bind hs (steady_trace hshown) fun _ s₁ _ hs => ?_
  obtain ⟨w', hw', hscoped, hblock⟩ := D.call hc (Decidable.not_not.mp hcount) hs.scopes
  have hle := C.le_of_quiet hw'
  have hbound : C.Holds w' { s₁.store with
      scopes := (s₁.store.scopes.enclose c.scope).2.bindAll (s₁.store.scopes.enclose c.scope).1
        c.params args } :=
    ⟨admits_bindAll _ _ _ (s₁.store.enclose c.scope).2
      ((C.admitsStore_mono hle hs.admits).enclose c.scope)
      fun v hv => C.admits_mono hle (hargs v hv), hscoped⟩
  rw [run_enclose_bind, Script.run_bind, run_lift, run_bindAll]
  refine .of_quiet hw' (.bind (quietly_runBody hbound hblock) fun v w₂ s₂ _ hs₂ hv => ?_)
  split
  · exact .pure hs₂ hv
  · exact .fault hs₂ _ _
  · exact .fault hs₂ _ _
  · exact .pure hs₂ trivial

omit D in
theorem quietly_applyBuiltin {pos : Pos} {b : Builtin} {args : List Value}
    (hs : C.Holds w s.store) (hargs : ∀ v ∈ args, (C.law w).Admits v)
    (hsized : C.ints.Sized s.store) (hfits : ∀ v ∈ args, C.ints.Fits v) :
    (applyBuiltin settings pos b args s).Quietly C (Valued C) w := by
  have hrun : ((do
      trace settings 2 (return "call builtin " ++ b.name)
      b.run settings pos args : Script Value) s).Quietly C (Valued C) w := by
    refine .steady_bind hs (steady_trace (.pure _)) fun _ s₁ heq hs => ?_
    rw [← heq] at hsized
    exact Builtin.quietly_run hs hsized hargs hfits
  unfold applyBuiltin
  cases b.arity with
  | none => exact hrun
  | some n => exact .check hs fun _ => hrun

theorem quietly_apply {pos : Pos} {f : Value} {args : List Value}
    (hs : C.Holds w s.store) (hf : (C.law w).Admits f) (hargs : ∀ v ∈ args, (C.law w).Admits v)
    (hsized : C.ints.Sized s.store) (hfits : ∀ v ∈ args, C.ints.Fits v) :
    (apply settings pos f args s).Quietly C (Valued C) w := by
  unfold apply
  split
  · exact quietly_applyClosure D hs hf hargs
  · exact quietly_applyBuiltin hs hargs hsized hfits
  · exact .fault hs _ _

end

/-! ## Expressions -/

/-- An expression that is evaluated as a task. -/
theorem quietly_ask {e : Expr} (hs : C.Holds w s.store) (he : C.Expr w e r) :
    (ask (.expr e r) s).Quietly C
      (fun v w' s' => (C.law w').Admits v ∧ C.ints.Sized s' ∧ C.ints.Fits v) w :=
  .ask hs he fun _ h => h

theorem keeps_ofResult {L : Law} {result : Operator.Result}
    (h : ∀ v, result = .ok v → L.Admits v) : Keeps L (ofResult result) L.Admits := by
  cases result with
  | error f => exact .throw _
  | ok v => exact .pure (h v rfl)

theorem keeps_evalName {L : Law} {pos : Pos} {name : String} :
    Keeps L (evalName r pos name) L.Admits := by
  refine .bind keeps_store fun st hst => ?_
  cases hget : st.scopes.get? r name with
  | some found => exact .pure (hst.get? hget)
  | none =>
    cases Builtin.ofName? name with
    | some b => exact .pure trivial
    | none => exact .fault _ _

theorem admits_elementAt {L : Law} {vs : Array Value} {i : Int} (h : ∀ v ∈ vs, L.Admits v) :
    L.Admits (elementAt vs i) := by
  unfold elementAt
  dsimp only
  generalize (if i < 0 then i + (vs.size : Int) else i) = j
  split
  · trivial
  · rw [Array.getD_eq_getD_getElem?]
    cases hj : vs[j.toNat]? with
    | none => trivial
    | some v => exact h v (Array.mem_of_getElem? hj)

theorem keeps_evalIndex {L : Law} {collection key : Value} :
    Keeps L (evalIndex collection key) L.Admits := by
  unfold evalIndex
  split
  · exact .bind (keeps_elements _) fun vs hvs => .pure (admits_elementAt hvs)
  · cases key.key? with
    | none => exact .fault _ _
    | some k =>
      refine .bind keeps_store fun st hst => .pure ?_
      cases hget : (st.table _).get? k with
      | none => trivial
      | some v => exact (hst.table _).get? hget
  · exact .fault _ _

section

include D

theorem quietly_evalAll {es : List Expr} (hs : C.Holds w s.store) (hsized : C.ints.Sized s.store)
    (hes : ∀ e ∈ es, C.Expr w e r) :
    (evalAll r es s).Quietly C
      (fun vs w' s' => (∀ v ∈ vs, (C.law w').Admits v) ∧ C.ints.Sized s') w := by
  induction es generalizing w s with
  | nil => exact .pure hs ⟨by simp, hsized⟩
  | cons e es ih =>
    obtain ⟨he, hes⟩ := List.forall_mem_cons.mp hes
    refine .bind (quietly_ask hs he) fun v w₁ s₁ hw₁ hs₁ hv => ?_
    refine .bind (ih hs₁ hv.2.1 fun e he => D.expr_quiet hw₁ (hes e he)) ?_
    intro vs w₂ s₂ hw₂ hs₂ hvs
    exact .pure hs₂ ⟨List.forall_mem_cons.mpr
      ⟨C.admits_mono (C.le_of_quiet hw₂) hv.1, hvs.1⟩, hvs.2⟩

theorem quietly_evalPairs {t : Table} {ps : List (Expr × Expr)} (hs : C.Holds w s.store)
    (ht : (C.law w).AdmitsTable t) (hps : ∀ p ∈ ps, C.Expr w p.1 r ∧ C.Expr w p.2 r) :
    (evalPairs r t ps s).Quietly C (fun t w' _ => (C.law w').AdmitsTable t) w := by
  induction ps generalizing w s t with
  | nil => exact .pure hs ht
  | cons p ps ih =>
    obtain ⟨⟨hk, hv⟩, hps⟩ := List.forall_mem_cons.mp hps
    rw [evalPairs]
    refine .bind (quietly_ask hs hk) fun key w₁ s₁ hw₁ hs₁ hkey => ?_
    cases hk? : key.key? with
    | none => exact .fault hs₁ _ _
    | some k =>
      refine .bind (quietly_ask hs₁ (D.expr_quiet hw₁ hv)) fun value w₂ s₂ hw₂ hs₂ hvalue => ?_
      have hle := C.le_of_quiet (C.quiet_trans hw₁ hw₂)
      have ht' : (C.law w₂).AdmitsTable t := fun e he =>
        ⟨C.admits_mono hle (ht e he).1, C.admits_mono hle (ht e he).2⟩
      have hk' := Law.admits_key_of_key? (C.admits_mono (C.le_of_quiet hw₂) hkey.1) hk? key.pos
      refine .of_quiet (C.quiet_refl _) (ih hs₂ (ht'.insert hk' hvalue.1) fun q hq => ?_)
      have hw := C.quiet_trans hw₁ hw₂
      exact ⟨D.expr_quiet hw (hps q hq).1, D.expr_quiet hw (hps q hq).2⟩

theorem quietly_evalBinary {pos : Pos} {op : BinaryOp} {l r' : Expr} (hs : C.Holds w s.store)
    (hl : C.Expr w l r) (hr : C.Expr w r' r) :
    (evalBinary r pos op l r' s).Quietly C (Valued C) w := by
  unfold evalBinary
  refine .bind (quietly_ask hs hl) fun left w₁ s₁ hw₁ hs₁ hleft => ?_
  have hright := quietly_ask hs₁ (D.expr_quiet hw₁ hr)
  split
  · exact .ite (fun _ => .bind hright fun _ _ _ _ hs₂ _ => .pure hs₂ trivial)
      fun _ => .pure hs₁ trivial
  · exact .ite (fun _ => .pure hs₁ trivial)
      fun _ => .bind hright fun _ _ _ _ hs₂ _ => .pure hs₂ trivial
  · refine .bind hright fun right w₂ s₂ hw₂ hs₂ _ => .lift_admits hs₂ (keeps_ofResult fun v hv => ?_)
    exact Law.admits_binary (C.admits_mono (C.le_of_quiet hw₂) hleft.1) hv

omit D in
theorem quietly_evalCondition {word : String} {condition : Expr} (hs : C.Holds w s.store)
    (hc : C.Expr w condition r) :
    (evalCondition settings word r condition s).Quietly C (fun _ _ _ => True) w := by
  unfold evalCondition
  refine .bind (quietly_ask hs hc) fun v w₁ s₁ _ hs₁ _ => ?_
  have hline : Steady (do return word ++ " condition " ++ (← inspect v) ++ " -> " ++ verdict v.isTruthy) :=
    .bind (steady_inspect v) fun _ => .pure _
  exact .steady_bind hs₁ (steady_trace hline) fun _ _ _ hs₂ => .pure hs₂ trivial

theorem quietly_evalCond {condition : Option Expr} {consequence : Block}
    {alternative : Option Block} (hs : C.Holds w s.store)
    (hc : ∀ e ∈ condition, C.Expr w e r)
    (hb : ∀ b ∈ consequence :: alternative.toList, C.Block w b r) :
    (evalCond settings r condition consequence alternative s).Quietly C (Resulted C) w := by
  have hask : ∀ {w' s' b}, C.Quiet w w' → C.Holds w' s'.store → C.Block w b r →
      (ask (.block b r) s').Quietly C (Resulted C) w' := fun hw' hs' hb =>
    Step.Quietly.weaken (.ask hs' (D.block_quiet hw' hb) fun _ h => h) fun _ _ _ _ h => h.1
  unfold evalCond
  cases condition with
  | none => exact ⟨w, C.le_refl w, hs⟩
  | some c =>
    refine .lift_bind hs (p := fun e => e = c) (.pure rfl) fun e s₁ _ hs₁ he => ?_
    subst he
    refine .bind (quietly_evalCondition hs₁ (hc e rfl)) fun b w₂ s₂ hw₂ hs₂ _ => .ite (fun _ => ?_)
      fun _ => ?_
    · exact hask hw₂ hs₂ (hb _ (by simp))
    · cases alternative with
      | none => exact .pure hs₂ trivial
      | some b => exact hask hw₂ hs₂ (hb _ (by simp))

theorem quietly_evalAssign {t : Task} {pos : Pos} {name : String} {value : Expr}
    (hs : C.Holds w s.store) (hneeds : C.Needs w t) (hassumed : C.Assumed (.started t s))
    (htarget : t.target? = some (name, r)) (hvalue : C.Expr w value r) :
    (evalAssign settings r pos name value s).Quietly C (Valued C) w := by
  unfold evalAssign
  rw [run_store_bind]
  cases hget : s.store.scopes.get? r name with
  | none => exact .fault hs _ _
  | some found =>
    obtain ⟨old, target⟩ := found
    refine .bind (quietly_ask hs hvalue) fun v w₁ s₁ hw₁ hs₁ hv => ?_
    obtain ⟨w₂, hw₂, hscoped⟩ :=
      D.assign hneeds hassumed htarget hs.scopes hget hw₁ hs₁.scopes v
    have hle := C.le_of_quiet hw₂
    have hv₂ := C.admits_mono hle hv.1
    have hs₂ := holds_bind hs₁ hle hv₂ hscoped
    rw [run_bind_bind]
    have hline : Steady (do return "assign " ++ name ++ " = " ++ (← inspect v)) :=
      .bind (steady_inspect v) fun _ => .pure _
    exact .of_quiet hw₂ (.steady_bind hs₂ (steady_trace hline) fun _ _ _ hs₃ => .pure hs₃ hv₂)

omit D in
theorem run_evalStep {pos : Pos} {op : StepOp} {name : String} {before : Bool} {old : Value}
    {target : ScopeRef} (hget : s.store.scopes.get? r name = some (old, target)) :
    evalStep r pos op name before s =
      match Operator.step pos op before old with
      | .error f => .error (.fault f) s
      | .ok new =>
        .ok (if before then new else old) { s with store := s.store.bind target name new } := by
  rw [evalStep, Run.run_bind, show store s = .ok s.store s from rfl]
  dsimp only
  rw [hget]
  dsimp only
  rw [Run.run_bind]
  cases Operator.step pos op before old <;> rfl

theorem quietly_evalStep {t : Task} {pos : Pos} {op : StepOp} {name : String} {before : Bool}
    (hs : C.Holds w s.store) (hneeds : C.Needs w t) (hassumed : C.Assumed (.started t s))
    (htarget : t.target? = some (name, r)) :
    ((liftM (evalStep r pos op name before) : Script Value) s).Quietly C (Valued C) w := by
  rw [Script.run_lift]
  cases hget : s.store.scopes.get? r name with
  | none =>
    rw [evalStep, Run.run_bind, show store s = .ok s.store s from rfl]
    dsimp only
    rw [hget]
    exact ⟨w, C.le_refl w, hs⟩
  | some found =>
    obtain ⟨old, target⟩ := found
    rw [run_evalStep hget]
    have hold := hs.admits.get? hget
    cases hstep : Operator.step pos op before old with
    | error f => exact ⟨w, C.le_refl w, hs⟩
    | ok new =>
      have hnew : (C.law w).Admits new := Law.admits_step hstep
      obtain ⟨w₂, hw₂, hscoped⟩ :=
        D.assign hneeds hassumed htarget hs.scopes hget (C.quiet_refl w) hs.scopes new
      have hle := C.le_of_quiet hw₂
      have hresult : (C.law w₂).Admits (if before then new else old) := by
        split
        · exact C.admits_mono hle hnew
        · exact C.admits_mono hle hold
      exact ⟨w₂, hle, ⟨hw₂, holds_bind hs hle (C.admits_mono hle hnew) hscoped⟩, hresult⟩

/-- An expression as the task `t` evaluates it. -/
theorem quietly_evalExpr {t : Task} {e : Expr} (hs : C.Holds w s.store) (hneeds : C.Needs w t)
    (hassumed : C.Assumed (.started t s)) (he : C.Expr w e r)
    (htarget : t.target? = e.target?.map fun t => (t.2, r)) :
    (evalExpr settings r e s).Quietly C (Valued C) w := by
  have hpart := D.part he
  have hsized := (C.sizes hassumed).sized
  cases e with
  | ident pos name => exact .lift_admits hs keeps_evalName
  | int pos text n => exact .pure hs (D.literal he)
  | float pos text x => exact .pure hs trivial
  | bool pos b => exact .pure hs trivial
  | null pos => exact .pure hs trivial
  | string pos text => exact .pure hs trivial
  | array pos es =>
    refine .bind (quietly_evalAll D hs hsized hpart) fun vs w₁ s₁ _ hs₁ hvs => ?_
    exact .lift_admits hs₁ (keeps_newArray (by simpa using hvs.1) pos)
  | hash pos ps =>
    have hps : ∀ p ∈ ps, C.Expr w p.1 r ∧ C.Expr w p.2 r := fun p hp =>
      ⟨hpart p.1 (List.mem_flatMap.mpr ⟨p, hp, by simp⟩),
        hpart p.2 (List.mem_flatMap.mpr ⟨p, hp, by simp⟩)⟩
    refine .bind (quietly_evalPairs D hs Law.admitsTable_empty hps) fun t w₁ s₁ _ hs₁ ht => ?_
    exact .lift_admits hs₁ (keeps_newTable ht pos)
  | func pos params body =>
    exact .lift_admits hs (.followed keeps_newId fun id => .pure (D.function he id))
  | unary pos op e =>
    refine .bind (quietly_ask hs (hpart e (by simp [Expr.parts]))) fun v w₁ s₁ _ hs₁ hv => ?_
    exact .lift_admits hs₁ (keeps_ofResult fun _ h => Law.admits_unary hv.1 h)
  | binary pos op l r =>
    exact quietly_evalBinary D hs (hpart l (by simp [Expr.parts])) (hpart r (by simp [Expr.parts]))
  | cond pos c consequence alternative =>
    refine Step.Quietly.weaken (quietly_evalCond D hs
      (fun e he => hpart e (by simpa [Expr.parts] using he)) (D.branch he)) fun _ _ _ _ hv => ?_
    exact hv.of_signals (D.signal he rfl)
  | call pos f args =>
    obtain ⟨hf, hargs⟩ := List.forall_mem_cons.mp hpart
    refine .bind (quietly_ask hs hf) fun f w₁ s₁ hw₁ hs₁ hf => ?_
    refine .bind (quietly_evalAll D hs₁ hf.2.1 fun e he => D.expr_quiet hw₁ (hargs e he)) ?_
    intro vs w₂ s₂ hw₂ hs₂ hvs
    exact (quietly_call hs₂ (C.admits_mono (C.le_of_quiet hw₂) hf.1) hvs.1).weaken
      fun _ _ _ _ h => h.1
  | index pos c k =>
    refine .bind (quietly_ask hs (hpart c (by simp [Expr.parts]))) fun v w₁ s₁ hw₁ hs₁ _ => ?_
    refine .bind (quietly_ask hs₁ (D.expr_quiet hw₁ (hpart k (by simp [Expr.parts])))) ?_
    exact fun k w₂ s₂ _ hs₂ _ => .lift_admits hs₂ keeps_evalIndex
  | member pos e namePos name =>
    exact .bind (quietly_ask hs (hpart e (by simp [Expr.parts]))) fun v w₁ s₁ _ hs₁ _ =>
      .fault hs₁ _ _
  | method pos e namePos name callPos args =>
    obtain ⟨he, hargs⟩ := List.forall_mem_cons.mp hpart
    refine .bind (quietly_ask hs he) fun v w₁ s₁ hw₁ hs₁ hv => ?_
    refine .bind (quietly_evalAll D hs₁ hv.2.1 fun e he => D.expr_quiet hw₁ (hargs e he)) ?_
    intro vs w₂ s₂ hw₂ hs₂ hvs
    exact quietly_callMethod hs₂ hvs.2 (C.admits_mono (C.le_of_quiet hw₂) hv.1) hv.2.2 hvs.1
  | assign pos name value =>
    exact quietly_evalAssign D hs hneeds hassumed htarget (hpart value (by simp [Expr.parts]))
  | step pos op name before => exact quietly_evalStep D hs hneeds hassumed htarget
  | «break» pos =>
    exact .lift_bind hs keeps_newId fun _ _ _ hs₁ _ => .pure hs₁ (D.signal he rfl)
  | «continue» pos =>
    exact .lift_bind hs keeps_newId fun _ _ _ hs₁ _ => .pure hs₁ (D.signal he rfl)

/-- An expression as a statement: what a conditional or a signal gives goes no further. -/
theorem quietly_statement {pos : Pos} {literal : String} {e : Expr} (hs : C.Holds w s.store)
    (hstmt : C.Stmt w (.expr pos literal e) r)
    (hassumed : C.Assumed (.started (.stmt (.expr pos literal e) r) s)) :
    (evalExpr settings r e s).Quietly C (Resulted C) w := by
  rcases D.stmt_expr hstmt with he | ⟨hcontrol, hparts, hbranches⟩
  · have hneeds : C.Needs w (.stmt (.expr pos literal e) r) := hstmt
    exact Step.Quietly.weaken (quietly_evalExpr D hs hneeds hassumed he rfl)
      fun _ _ _ _ hv => hv.result
  · cases e with
    | cond pos c consequence alternative =>
      exact quietly_evalCond D hs (fun e he => hparts e (by simpa [Expr.parts] using he)) hbranches
    | «break» pos => exact .lift_bind hs keeps_newId fun _ _ _ hs₁ _ => .pure hs₁ trivial
    | «continue» pos => exact .lift_bind hs keeps_newId fun _ _ _ hs₁ _ => .pure hs₁ trivial
    | _ => cases hcontrol

end

/-! ## Statements -/

theorem quietly_runUpdate {update : Option Expr} (hs : C.Holds w s.store)
    (hu : ∀ e ∈ update, C.Expr w e r) :
    (runUpdate r update s).Quietly C (fun _ _ _ => True) w := by
  cases update with
  | none => exact .pure hs trivial
  | some u => exact .bind (quietly_ask hs (hu u rfl)) fun _ _ _ _ hs₁ _ => .pure hs₁ trivial

section

include D

theorem quietly_runLoop {word : String} {condition update : Option Expr} {body : Block}
    {fuel iteration : Nat} (hs : C.Holds w s.store) (hclauses : C.Clauses w r condition update body) :
    (runLoop settings word r condition update body fuel iteration s).Quietly C (Resulted C) w := by
  induction fuel generalizing w s iteration with
  | zero => exact ⟨w, C.le_refl w, hs⟩
  | succ fuel ih =>
    have hproceeds : (proceeds settings word r condition s).Quietly C (fun _ _ _ => True) w := by
      cases condition with
      | none => exact .pure hs trivial
      | some c => exact quietly_evalCondition hs (hclauses.condition c rfl)
    rw [runLoop]
    refine .bind hproceeds fun b w₁ s₁ hw₁ hs₁ _ => .ite (fun _ => ?_) fun _ => .pure hs₁ trivial
    refine .steady_bind hs₁ (steady_trace (.pure _)) fun _ s₂ _ hs₂ => ?_
    refine .bind (.ask hs₂ (D.block_quiet hw₁ hclauses.body) fun _ h => h)
      fun v w₃ s₃ hw₃ hs₃ hv => ?_
    have hw := C.quiet_trans hw₁ hw₃
    cases hend : loopEnd? v with
    | some result =>
      refine .pure hs₃ ?_
      unfold loopEnd? at hend
      split at hend <;> cases hend
      · trivial
      · exact hv.1
    | none =>
      refine .bind (quietly_runUpdate hs₃ fun e he => D.expr_quiet hw (hclauses.update e he)) ?_
      intro _ w₄ s₄ hw₄ hs₄ _
      have hw := C.quiet_trans hw hw₄
      exact ih hs₄ ⟨fun e he => D.expr_quiet hw (hclauses.condition e he),
        fun e he => D.expr_quiet hw (hclauses.update e he), D.block_quiet hw hclauses.body⟩

omit D in
/-- Statements in a scope that is not to be seen from `w`. -/
theorem good_runStatements {ss : List Stmt} {w₁ : C.World} (hw : C.Quiet w w₁)
    (hs : C.Holds w₁ s.store) (hapart : C.Apart w r) (hseq : C.Seq w₁ ss r) :
    (runStatements r ss s).Good C
      (fun v w' st => (C.Quiet w w' ∧ C.Holds w' st) ∧ Resulted C v w' st) w₁ := by
  induction ss generalizing w₁ s with
  | nil => exact ⟨w₁, C.le_refl w₁, ⟨hw, hs⟩, trivial⟩
  | cons stmt ss ih =>
    refine ⟨w₁, C.le_refl w₁, hs, hseq.1, fun v w₂ s₂ hle hs₂ hgives _ => ?_⟩
    have hw₂ := hapart w₁ w₂ stmt hw hgives.leaves
    change ((if v.isSignal then pure v else runStatements r ss : Script Value) s₂).Good C _ w₂
    split
    · exact ⟨w₂, C.le_refl w₂, ⟨hw₂, hs₂⟩, hgives.yields⟩
    · exact ih hw₂ hs₂ (hseq.2 w₂ hle hgives.leaves)

theorem quietly_block {b : Block} (hs : C.Holds w s.store) (hb : C.Block w b r) :
    (runTask settings (.block b r) s).Quietly C (Resulted C) w := by
  obtain ⟨w', hw', hscoped, hapart, hseq⟩ := D.enter hb hs.scopes
  have hle := C.le_of_quiet hw'
  rw [runTask, run_enclose_bind]
  exact (good_runStatements hw' (holds_enclose hs hle hscoped) hapart hseq).of_le hle

theorem quietly_runFor {pos : Pos} {init : Option Stmt} {condition update : Option Expr}
    {body : Block} (hs : C.Holds w s.store)
    (hfor : C.Stmt w (.for pos init condition update body) r) :
    (runFor settings r init condition update body s).Quietly C (Resulted C) w := by
  obtain ⟨w', hw', hscoped, hapart, hinit⟩ := D.loop hfor hs.scopes
  have hs' := holds_enclose hs (C.le_of_quiet hw') hscoped
  unfold runFor
  rw [run_enclose_bind]
  cases init with
  | none => exact .of_quiet hw' (quietly_runLoop D hs' hinit)
  | some stmt =>
    -- The first clause may declare a name, but in the new scope only.
    refine ⟨w', C.le_of_quiet hw', hs', hinit.1, fun v w₂ s₂ hle hs₂ hgives _ => ?_⟩
    have hw₂ := hapart w' w₂ stmt hw' hgives.leaves
    exact Step.Good.weaken (quietly_runLoop D hs₂ (hinit.2 w₂ hle hgives.leaves))
      fun _ _ _ _ ⟨⟨hw₃, hs₃⟩, hv⟩ => ⟨⟨C.quiet_trans hw₂ hw₃, hs₃⟩, hv⟩

omit D in
theorem checkFree_ok {pos : Pos} {name : String} {s' : State}
    (h : checkFree r pos name s = .ok () s') : s' = s ∧ s.store.scopes.contains r name = false := by
  unfold checkFree at h
  rw [Run.run_bind, show store s = .ok s.store s from rfl] at h
  dsimp only at h
  split at h
  · cases h
  · rename_i hfree
    cases h
    exact ⟨rfl, by simpa using hfree⟩

omit D in
/-- Behind a check that the name is free. -/
theorem good_checkFree {α : Type} {pos : Pos} {name : String} {k : Unit → Script α}
    {post : α → C.World → Store → Prop} (hs : C.Holds w s.store)
    (hk : s.store.scopes.contains r name = false → (k () s).Good C post w) :
    ((liftM (checkFree r pos name) >>= k) s).Good C post w := by
  have hsteady : Steady (checkFree r pos name) := by
    refine .bind steady_store fun st => ?_
    split
    · exact .fault _ _
    · exact .pure _
  refine .steady_bind hs hsteady fun _ s' hrun _ _ => ?_
  obtain ⟨rfl, hfree⟩ := checkFree_ok hrun
  exact hk hfree

/-- What a statement brings. -/
abbrev Done (C : Contract) (w : C.World) (stmt : Stmt) (r : ScopeRef) (v : Value) (w' : C.World)
    (s : Store) : Prop :=
  C.Holds w' s ∧ C.Gives w (.stmt stmt r) v w'

omit D in
/-- The end of a declaration: a line of the trace, and no value. -/
theorem good_declared {stmt : Stmt} {line : Run String} {w' : C.World} (hs : C.Holds w' s.store)
    (hline : Steady line) (hran : C.Ran w stmt r w') :
    (((liftM (trace settings 2 line) : Script Unit) >>= fun _ => pure .null) s).Good C
      (Done C w stmt r) w' :=
  .steady_bind hs (steady_trace hline) fun _ _ _ _ hs' =>
    ⟨w', C.le_refl w', hs', trivial, hran⟩

theorem good_runDeclaration {pos : Pos} {isConst : Bool} {name : String} {value : Expr}
    (hs : C.Holds w s.store) (hstmt : C.Stmt w (.declare pos isConst name value) r) :
    (runDeclaration settings r pos isConst name value s).Good C
      (Done C w (.declare pos isConst name value) r) w := by
  refine good_checkFree hs fun hfree => ?_
  have hvalue := D.stmt_part hstmt rfl value (by simp [Stmt.parts])
  refine Step.Good.bind (fun v w₁ s₁ _ h => ?_) (C.le_refl w) (quietly_ask hs hvalue)
  obtain ⟨⟨hw₁, hs₁⟩, hv⟩ := h
  obtain ⟨w₂, hle, hscoped, hran⟩ := D.declare hstmt hs.scopes hfree hw₁ hs₁.scopes v
  have hs₂ := holds_bind hs₁ hle (C.admits_mono hle hv.1) hscoped
  rw [run_bind_bind]
  exact (good_declared hs₂ (.bind (steady_inspect v) fun _ => .pure _) hran).of_le hle

omit D in
theorem run_makeClosure_bind {α : Type} (pos : Pos) (params : List String) (body : Block)
    (f : Value → Run α) :
    (makeClosure r pos params body >>= f) s =
      f (.function ⟨s.store.fresh, params, body, r, pos⟩) { s with store := s.store.newId.2 } :=
  rfl

theorem good_runFunction {pos : Pos} {name : String} {params : List String} {body : Block}
    (hs : C.Holds w s.store) (hstmt : C.Stmt w (.func pos name params body) r) :
    ((liftM (runFunction settings r pos name params body) : Script Value) s).Good C
      (Done C w (.func pos name params body) r) w := by
  unfold runFunction
  rw [run_lift_bind]
  refine good_checkFree hs fun hfree => ?_
  obtain ⟨hfunction, hdefine⟩ := D.define hstmt hs.scopes hfree s.store.fresh
  obtain ⟨w₂, hle, hscoped, hran⟩ := hdefine (.function ⟨s.store.fresh, params, body, r, pos⟩)
  have hs₁ : C.Holds w s.store.newId.2 := ⟨hs.admits.newId, hs.scopes⟩
  have hv : (C.law w₂).Admits (.function ⟨s.store.fresh, params, body, r, pos⟩) :=
    C.function_mono hle hfunction
  have hs₂ := holds_bind hs₁ hle hv hscoped
  rw [run_lift, run_makeClosure_bind, ← run_lift, run_lift_bind, run_bind_bind, run_lift_bind]
  exact (good_declared hs₂ (.pure _) hran).of_le hle

/-- A statement that binds nothing is quiet. -/
theorem good_of_quietly {stmt : Stmt} {m : Step Value} (hbinds : stmt.binds? = none)
    (h : m.Quietly C (Resulted C) w) : m.Good C (Done C w stmt r) w :=
  Step.Good.weaken h fun _ _ _ _ ⟨⟨hw, hs⟩, hv⟩ => ⟨hs, hv, D.other hbinds hw⟩

theorem good_runStmt {stmt : Stmt} (hs : C.Holds w s.store) (hstmt : C.Stmt w stmt r)
    (hassumed : C.Assumed (.started (.stmt stmt r) s)) :
    (runStmt settings r stmt s).Good C (Done C w stmt r) w := by
  have hpart := D.stmt_part hstmt
  cases stmt with
  | expr pos text e => exact good_of_quietly D rfl (quietly_statement D hs hstmt hassumed)
  | declare pos isConst name value => exact good_runDeclaration D hs hstmt
  | «return» pos value =>
    refine good_of_quietly D rfl ?_
    cases value with
    | none => exact .lift_bind hs keeps_newId fun _ _ _ hs₁ _ => .pure hs₁ trivial
    | some e =>
      refine .bind (quietly_ask hs (hpart rfl e (by simp [Stmt.parts]))) fun v w₁ s₁ _ hs₁ hv => ?_
      exact .lift_bind hs₁ keeps_newId fun _ _ _ hs₂ _ => .pure hs₂ hv.1
  | «while» pos condition body =>
    refine good_of_quietly D rfl ?_
    cases condition with
    | none => exact ⟨w, C.le_refl w, hs⟩
    | some c =>
      have hclauses : C.Clauses w r (some c) none body :=
        ⟨fun e he => hpart rfl e (by simpa [Stmt.parts, eq_comm] using he), by simp,
          D.stmt_body hstmt⟩
      refine .lift_bind hs (p := fun e => e = c) (.pure rfl) fun e s₁ _ hs₁ he => ?_
      subst he
      exact quietly_runLoop D hs₁ hclauses
  | «for» pos init condition update body =>
    exact good_of_quietly D rfl (quietly_runFor D hs hstmt)
  | func pos name params body => exact good_runFunction D hs hstmt

end

end Eval

namespace Contract.Discipline

variable {C : Contract}

/-- **The script of every task keeps to a contract that has a discipline.** -/
theorem valid (D : C.Discipline) (settings : Settings) : C.Valid settings := by
  intro t w s hs hneeds hassumed
  have hquiet : ∀ {m : Step Value}, C.Leaves w t = C.Quiet w →
      m.Quietly C (fun v w' _ => (C.law w').Yields t v) w →
      m.Good C (fun v w' s' => C.Holds w' s' ∧ C.Gives w t v w') w := fun hleaves h =>
    Step.Good.weaken h fun _ _ _ _ ⟨⟨hw, hs'⟩, hv⟩ => ⟨hs', hv, by rw [hleaves]; exact hw⟩
  cases t with
  | expr e r => exact hquiet rfl (Eval.quietly_evalExpr D hs hneeds hassumed hneeds rfl)
  | stmt stmt r => exact Eval.good_runStmt D hs hneeds hassumed
  | block b r => exact hquiet rfl (Eval.quietly_block D hs hneeds)
  | apply pos f args =>
    obtain ⟨hsized, hfits⟩ := C.sizes hassumed
    exact hquiet rfl (Eval.quietly_apply D hs hneeds.1 hneeds.2 hsized hfits)

end Contract.Discipline

end Vorn
