import Vorn.Proofs.Eval.Perform
import Vorn.Proofs.Eval.SafeLibrary

/-!
# No reference leads out of the store

Arrays and hashes come into being in the store, and a program gets at them only through values that
it was given. So at every moment of a session all references lead into the store, and the hashes are
as insertions make them: whatever value the program has at hand belongs to the store
(`Session.belongs_of_mem_values`). The scripts of all tasks are safe (`Eval.safe_runTask`), and from
this it follows for what they do as a whole (`Eval.sound_owning`).
-/

namespace Vorn

open Store Script

/-! ## Operators -/

namespace Operator

variable {pos : Pos} {v w u : Value}

theorem scalar_unary {op : UnaryOp} (h : unary pos op v = .ok u) :
    u.collection? .showing = none := by
  revert h
  unfold unary
  split <;> rintro ⟨⟩ <;> rfl

theorem scalar_integers {op : BinaryOp} {a b : Int} (h : integers pos op a b = .ok u) :
    u.collection? .showing = none := by
  revert h
  unfold integers
  split <;> (try split) <;> rintro ⟨⟩ <;> rfl

theorem scalar_floats {op : BinaryOp} {l r : Ty} {a b : Float}
    (h : floats pos op l r a b = .ok u) : u.collection? .showing = none := by
  revert h
  unfold floats
  split <;> rintro ⟨⟩ <;> rfl

theorem scalar_strings {op : BinaryOp} {a b : String} (h : strings pos op a b = .ok u) :
    u.collection? .showing = none := by
  revert h
  unfold strings
  split <;> rintro ⟨⟩ <;> rfl

theorem scalar_others {op : BinaryOp} (h : others pos op v w = .ok u) :
    u.collection? .showing = none := by
  revert h
  unfold others
  split <;> (try split) <;> rintro ⟨⟩ <;> rfl

/-- What an operator gives has no references. -/
theorem scalar_binary {op : BinaryOp} (h : binary pos op v w = .ok u) :
    u.collection? .showing = none := by
  unfold binary at h
  split at h
  · exact scalar_integers h
  · exact scalar_floats h
  · exact scalar_floats h
  · exact scalar_floats h
  · exact scalar_strings h
  · exact scalar_others h

theorem scalar_step {op : StepOp} {before : Bool} (h : step pos op before v = .ok u) :
    u.collection? .showing = none := by
  revert h
  unfold step
  split <;> rintro ⟨⟩ <;> rfl

end Operator

namespace Eval

variable {settings : Settings} {scope : ScopeRef} {given args : List Value} {pos : Pos}

theorem safe_ofResult {result : Operator.Result}
    (h : ∀ u, result = .ok u → u.collection? .showing = none) :
    Run.Safe given (ofResult result) ([·]) := by
  cases result with
  | error f => exact .throw _
  | ok v => exact .scalar (h v rfl)

/-- A line of the trace does not touch the store. -/
theorem steady_line {level : Nat} {v : Value} {f : String → String} :
    Run.Steady (Run.trace settings level do return f (← Run.inspect v)) :=
  Run.steady_trace (.bind (Run.steady_inspect v) fun _ => .pure _)

/-! ## Calls -/

theorem safe_bindAll : ∀ {ps : List String} {vs : List Value}, vs ⊆ given →
    Run.Safe given (bindAll scope ps vs) fun _ => []
  | [], _, _ => by
    simp only [bindAll]
    exact .pure .nil
  | _ :: _, [], _ => by
    simp only [bindAll]
    exact .pure .nil
  | p :: ps, v :: vs, h => by
    obtain ⟨hv, hvs⟩ := List.cons_subset.mp h
    rw [bindAll]
    exact .followed (Run.safe_bind (.single hv)) fun _ => safe_bindAll hvs

/-- However the body ends, nothing of it is lost when exhaustion becomes a fault. -/
theorem safe_runBody {body : Block} : Script.Safe given (runBody pos body scope) ([·]) := by
  refine fun s hs _ => ⟨⟨hs, fun _ hv => by cases hv⟩, fun ending hpost => ?_⟩
  cases ending with
  | ok v s' => exact hpost
  | error stop s' => cases stop <;> exact hpost

theorem safe_applyClosure {c : Closure} (hargs : args ⊆ given) :
    Script.Safe given (applyClosure settings pos c args) ([·]) := by
  have hline : Run.Steady (do
      let shown ← args.mapM Run.inspect
      return "call func" ++ parenthesized c.params ++ " with " ++ parenthesized shown) :=
    .bind (.mapM Run.steady_inspect args) fun _ => .pure _
  refine .check (.fault _ _) fun _ => .steady (Run.steady_trace hline) fun _ => ?_
  refine .followed (.lift (Run.safe_enclose c.scope)) fun scope => ?_
  refine .followed (.lift (safe_bindAll hargs)) fun _ => .bind safe_runBody fun v => ?_
  split
  · exact .pure (.of_returned (List.mem_append_left _ (List.mem_singleton_self _)))
  · exact .fault _ _
  · exact .fault _ _
  · exact .scalar rfl

theorem safe_apply {f : Value} (hargs : args ⊆ given) :
    Script.Safe given (apply settings pos f args) ([·]) := by
  have hrun : ∀ b : Builtin, Script.Safe given (do
      Run.trace settings 2 (return "call builtin " ++ b.name)
      b.run settings pos args) ([·]) := fun b =>
    .steady (Run.steady_trace (.pure _)) fun _ => Builtin.safe_run hargs
  unfold apply
  split
  · exact safe_applyClosure hargs
  · unfold applyBuiltin
    split
    · exact .check (.fault _ _) fun _ => hrun _
    · exact hrun _
  · exact .fault _ _

/-! ## Expressions -/

theorem safe_expr {e : Expr} : Script.Safe given (ask (.expr e scope)) ([·]) := .ask .nil

theorem safe_evalAll {es : List Expr} : Script.Safe given (evalAll scope es) id := by
  induction es generalizing given with
  | nil => exact .pure .nil
  | cons e es ih =>
    exact .bind safe_expr fun v => .bind ih fun vs => .pure (.of_subset (by simp))

/-- Behind the pairs of a hash: it is well-formed, and its values may be used. -/
theorem safe_evalPairs {α : Type} {k : Table → Script α} {gives : α → List Value}
    (hk : ∀ t given, t.WellFormed → t.held ⊆ given → Script.Safe given (k t) gives)
    {ps : List (Expr × Expr)} {t : Table} (ht : t.WellFormed) (hheld : t.held ⊆ given) :
    Script.Safe given (evalPairs scope t ps >>= k) gives := by
  induction ps generalizing t given with
  | nil => exact hk t given ht hheld
  | cons p ps ih =>
    rw [evalPairs, Script.bind_assoc]
    refine .bind safe_expr fun key => ?_
    cases key.key? with
    | none => exact fun s hs _ => ⟨hs, .refl s.store⟩
    | some k =>
      dsimp only
      rw [Script.bind_assoc]
      refine .bind safe_expr fun value => ih (ht.insert k key.pos value) fun u hu => ?_
      rcases Table.mem_held_insert hu with hu | rfl
      · have := hheld hu
        simp [this]
      · simp

theorem safe_evalBinary {op : BinaryOp} {l r : Expr} :
    Script.Safe given (evalBinary scope pos op l r) ([·]) := by
  refine .bind safe_expr fun left => ?_
  split
  · exact .ite (.bind safe_expr fun _ => .scalar rfl) (.scalar rfl)
  · exact .ite (.scalar rfl) (.bind safe_expr fun _ => .scalar rfl)
  · exact .bind safe_expr fun _ => .lift (safe_ofResult fun _ => Operator.scalar_binary)

theorem safe_evalCondition {word : String} {condition : Expr} :
    Script.Safe given (evalCondition settings word scope condition) fun _ => [] := by
  refine .bind safe_expr fun v => .steady (Run.steady_trace ?_) fun _ => .pure .nil
  exact .bind (Run.steady_inspect v) fun _ => .pure _

theorem safe_present {α : Type} {o : Option α} :
    Run.Safe given (present o) fun _ => [] := by
  cases o with
  | none => exact .throw _
  | some a => exact .pure .nil

theorem safe_evalCond {condition : Option Expr} {consequence : Block} {alternative : Option Block} :
    Script.Safe given (evalCond settings scope condition consequence alternative) ([·]) := by
  refine .followed (.lift safe_present) fun c => .followed safe_evalCondition fun _ =>
    .ite (.ask .nil) ?_
  split
  · exact .ask .nil
  · exact .scalar rfl

/-- What a look-up finds may be used. -/
theorem safe_lookup {α : Type} (scope : ScopeRef) (name : String) {f : Store → Run α} {gives : α → List Value}
    (hf : ∀ s, Run.Safe (((s.scopes.get? scope name).map (·.1)).toList ++ given) (f s) gives) :
    Run.Safe given (Run.store >>= f) gives := by
  refine Run.safe_store_bind _ (fun s hs v hv => ?_) hf
  obtain ⟨⟨v, target⟩, hget, rfl⟩ := Option.map_eq_some_iff.mp (Option.mem_toList.mp hv)
  exact Scopes.All.get? hs.bindings hget

theorem safe_evalName {name : String} : Run.Safe given (evalName scope pos name) ([·]) := by
  refine safe_lookup scope name fun s => ?_
  cases s.scopes.get? scope name with
  | some found => exact .pure (.single (by simp))
  | none =>
    cases Builtin.ofName? name with
    | some b => exact .scalar rfl
    | none => exact .fault _ _

theorem entails_elementAt {vs : Array Value} {i : Int} (h : vs.toList ⊆ given) :
    Entails given [elementAt vs i] := by
  unfold elementAt
  dsimp only
  generalize (if i < 0 then i + (vs.size : Int) else i) = j
  split
  · exact .scalar rfl
  · rw [Array.getD_eq_getD_getElem?]
    cases hj : vs[j.toNat]? with
    | none => exact .scalar rfl
    | some v => exact .single (h (Array.mem_toList_iff.mpr (Array.mem_of_getElem? hj)))

theorem safe_evalIndex {collection key : Value} :
    Run.Safe given (evalIndex collection key) ([·]) := by
  unfold evalIndex
  split
  · exact .bind (Run.safe_elements _) fun vs => .pure (entails_elementAt (by simp))
  · rename_i r _
    cases key.key? with
    | none => exact .fault _ _
    | some k =>
      refine Run.safe_store_bind (fun s => ((s.table r).get? k).toList) (fun s hs v hv => ?_) fun s => .pure ?_
      · exact hs.owns_held r v (Table.mem_held_of_get? (Option.mem_toList.mp hv))
      · cases (s.table r).get? k with
        | none => exact .scalar rfl
        | some v => exact .single (by simp)
  · exact .fault _ _

theorem safe_evalAssign {name : String} {value : Expr} :
    Script.Safe given (evalAssign settings scope pos name value) ([·]) := by
  refine .steady Run.steady_store fun st => ?_
  split
  · exact .fault _ _
  · refine .bind safe_expr fun v => ?_
    refine .followed (.lift (Run.safe_bind (.single (by simp)))) fun _ => ?_
    exact .steady steady_line fun _ => .pure (.single (by simp))

theorem safe_evalStep {op : StepOp} {name : String} {before : Bool} :
    Run.Safe given (evalStep scope pos op name before) ([·]) := by
  refine safe_lookup scope name fun s => ?_
  cases s.scopes.get? scope name with
  | none => exact .fault _ _
  | some found =>
    obtain ⟨old, target⟩ := found
    refine .bind (safe_ofResult fun _ => Operator.scalar_step) fun new => ?_
    refine .followed (Run.safe_bind (.single (by simp))) fun _ => .pure ?_
    cases before
    · exact .single (by simp)
    · exact .single (by simp)

theorem safe_makeClosure {params : List String} {body : Block} :
    Run.Safe given (makeClosure scope pos params body) ([·]) :=
  .followed Run.safe_newId fun _ => .scalar rfl

theorem safe_evalExpr {e : Expr} : Script.Safe given (evalExpr settings scope e) ([·]) := by
  unfold evalExpr
  split
  case h_1 => exact .lift safe_evalName
  case h_7 =>
    exact .bind safe_evalAll fun vs => .lift (Run.safe_newArray (.of_subset (by simp)))
  case h_8 =>
    refine safe_evalPairs (fun t given ht hheld => ?_) Table.wellFormed_empty (List.nil_subset _)
    exact .lift (Run.safe_newTable ht (.of_subset hheld))
  case h_9 => exact .lift safe_makeClosure
  case h_10 => exact .bind safe_expr fun _ => .lift (safe_ofResult fun _ => Operator.scalar_unary)
  case h_11 => exact safe_evalBinary
  case h_12 => exact safe_evalCond
  case h_13 =>
    refine .bind safe_expr fun f => .bind safe_evalAll fun vs => .ask (.of_subset ?_)
    simp [Task.values]
  case h_14 => exact .bind safe_expr fun _ => .bind safe_expr fun _ => .lift safe_evalIndex
  case h_15 => exact .bind safe_expr fun _ => .fault _ _
  case h_16 =>
    exact .bind safe_expr fun v => .bind safe_evalAll fun vs =>
      safe_callMethod (by simp) (by simp)
  case h_17 => exact safe_evalAssign
  case h_18 => exact .lift safe_evalStep
  case h_19 | h_20 => exact .followed (.lift Run.safe_newId) fun _ => .scalar rfl
  all_goals exact .scalar rfl

/-! ## Statements -/

theorem safe_runStatements {ss : List Stmt} :
    Script.Safe given (runStatements scope ss) ([·]) := by
  induction ss generalizing given with
  | nil => exact .scalar rfl
  | cons stmt ss ih =>
    exact .bind (.ask .nil) fun v => .ite (.pure (.single (by simp))) ih

theorem steady_checkFree {name : String} : Run.Steady (checkFree scope pos name) := by
  refine .bind Run.steady_store fun st => ?_
  split
  · exact .fault _ _
  · exact .pure _

theorem safe_runDeclaration {isConst : Bool} {name : String} {value : Expr} :
    Script.Safe given (runDeclaration settings scope pos isConst name value) ([·]) := by
  refine .steady steady_checkFree fun _ => .bind safe_expr fun v => ?_
  refine .followed (.lift (Run.safe_bind (.single (by simp)))) fun _ => ?_
  exact .steady steady_line fun _ => .scalar rfl

theorem safe_runFunction {name : String} {params : List String} {body : Block} :
    Run.Safe given (runFunction settings scope pos name params body) ([·]) := by
  refine .followed (.of_steady steady_checkFree) fun _ => .bind safe_makeClosure fun f => ?_
  refine .followed (Run.safe_bind (.single (by simp))) fun _ => ?_
  exact .followed (.of_steady (Run.steady_trace (.pure _))) fun _ => .scalar rfl

theorem safe_proceeds {word : String} {condition : Option Expr} :
    Script.Safe given (proceeds settings word scope condition) fun _ => [] := by
  cases condition with
  | none => exact .pure .nil
  | some c => exact safe_evalCondition

theorem safe_runUpdate {update : Option Expr} :
    Script.Safe given (runUpdate scope update) fun _ => [] := by
  cases update with
  | none => exact .pure .nil
  | some u => exact .bind safe_expr fun _ => .pure .nil

theorem safe_runLoop {word : String} {condition update : Option Expr} {body : Block}
    {fuel iteration : Nat} : Script.Safe given
      (runLoop settings word scope condition update body fuel iteration) ([·]) := by
  induction fuel generalizing given iteration with
  | zero => exact .lift (.throw _)
  | succ fuel ih =>
    rw [runLoop]
    refine .followed safe_proceeds fun _ => .ite ?_ (.scalar rfl)
    refine .steady (Run.steady_trace (.pure _)) fun _ => .bind (.ask .nil) fun v => ?_
    cases hend : loopEnd? v with
    | some result =>
      -- A loop ends with `null`, or with the signal that its body ended with.
      unfold loopEnd? at hend
      split at hend <;> cases hend
      · exact .scalar rfl
      · exact .pure (.single (by simp))
    | none => exact .followed safe_runUpdate fun _ => ih

theorem safe_runFor {init : Option Stmt} {condition update : Option Expr} {body : Block} :
    Script.Safe given (runFor settings scope init condition update body) ([·]) := by
  refine .followed (.lift (Run.safe_enclose scope)) fun inner => ?_
  cases init with
  | none => exact .followed (.pure .nil) fun _ => safe_runLoop
  | some stmt =>
    exact .followed (.bind (.ask .nil) fun _ => .pure .nil) fun _ => safe_runLoop

theorem safe_runStmt {stmt : Stmt} : Script.Safe given (runStmt settings scope stmt) ([·]) := by
  unfold runStmt
  split
  case h_1 => exact safe_evalExpr
  case h_2 => exact safe_runDeclaration
  case h_3 => exact .followed (.lift Run.safe_newId) fun _ => .scalar rfl
  case h_4 =>
    exact .bind safe_expr fun v => .followed (.lift Run.safe_newId) fun _ =>
      .pure (Entails.returned_iff.mpr (.single (by simp)))
  case h_5 => exact .followed (.lift safe_present) fun _ => safe_runLoop
  case h_6 => exact safe_runFor
  case h_7 => exact .lift safe_runFunction

/-- **The script of every task is safe**, given the values that the task is about. -/
theorem safe_runTask {t : Task} (h : t.values ⊆ given) :
    Script.Safe given (runTask settings t) ([·]) := by
  cases t with
  | expr e r => exact safe_evalExpr
  | stmt stmt r => exact safe_runStmt
  | block b r => exact .followed (.lift (Run.safe_enclose r)) fun _ => safe_runStatements
  | apply pos f args => exact safe_apply (List.cons_subset.mp h).2

/-- **Every task leaves a whole store whole.** -/
theorem sound_owning : owning.Sound settings fun _ => True where
  exhausted _ s hpre := ⟨hpre.1, .refl s.store⟩
  script _ s _ hpre := safe_runTask (List.Subset.refl _) s hpre.1 hpre.2

theorem safe_runTopLevel {last : Value} {ss : List Stmt} (hlast : last ∈ given) :
    Script.Safe given (runTopLevel last ss) ([·]) := by
  induction ss generalizing given last with
  | nil => exact .pure (.single hlast)
  | cons stmt ss ih =>
    refine .bind (.ask .nil) fun v => ?_
    split
    · exact .pure (.of_returned (List.mem_append_left _ (List.mem_singleton_self _)))
    · exact .fault _ _
    · exact .fault _ _
    · exact ih (by simp)

end Eval

/-! ## Sessions -/

/-- A whole store owns all that is in it. -/
theorem Store.Whole.owns_values {s : Store} (h : s.Whole) : ∀ v ∈ s.values, s.Owns v := by
  intro v hv
  simp only [Store.values, Table.values, List.mem_append, List.mem_flatMap, List.mem_map,
    Array.mem_toList_iff] at hv
  rcases hv with ⟨vs, hvs, hv⟩ | ⟨t, ht, e, he, hv⟩ | ⟨cell, hcell, b, hb, rfl⟩
  · obtain ⟨i, hi, rfl⟩ := Array.mem_iff_getElem.mp hvs
    refine h.owns_array ⟨i⟩ v ?_
    simpa [Store.array, hi] using hv
  · obtain ⟨i, hi, rfl⟩ := Array.mem_iff_getElem.mp ht
    refine h.refers (.hash ⟨i⟩) v (List.mem_flatMap.mpr ⟨e, ?_, hv⟩)
    simpa [Store.table, hi] using he
  · exact h.bindings cell hcell b hb

/-- What is at hand when tasks start and end in whole stores. -/
theorem Moment.owns_of_at : ∀ {m : Moment}, owning.At m →
    m.state.store.Whole ∧ ∀ v ∈ m.values, m.state.store.Owns v
  | .started _ _, h => ⟨h.1, List.forall_mem_append.mpr ⟨h.2, h.1.owns_values⟩⟩
  | .finished _ (.ok v _), ⟨_, _, ⟨hwhole, _⟩, hv⟩ =>
    ⟨hwhole, List.forall_mem_cons.mpr ⟨hv v (List.mem_singleton_self v), hwhole.owns_values⟩⟩
  | .finished _ (.error _ _), ⟨_, _, hwhole, _⟩ => ⟨hwhole, hwhole.owns_values⟩

namespace Session

variable {settings : Settings}

theorem whole_program {p : Program} {s : State} (hs : s.store.Whole) :
    (run settings p s).2.store.Whole ∧
      ∀ m ∈ Eval.programHistory settings p s, owning.At m := by
  have hopened : (Eval.opened settings p s).store.Whole := by
    rw [Eval.opened, Run.traced_store]
    exact hs
  have hnull : ∀ v ∈ [Value.null], (Eval.opened settings p s).store.Owns v :=
    List.forall_mem_singleton.mpr (.of_none rfl)
  obtain ⟨hend, hmoments⟩ := Eval.sound_owning.program
    (Eval.safe_runTopLevel (List.mem_singleton_self _) _ hopened hnull) fun _ _ => by
      rename_i m _
      cases m <;> trivial
  refine ⟨?_, hmoments⟩
  rw [(Eval.run_of_ended settings p s).1]
  cases hended : Eval.ended settings p s with
  | ok v s' =>
    rw [hended] at hend
    exact hend.1.1
  | error stop s' =>
    rw [hended] at hend
    exact hend.1

theorem whole_history {sources : List String} {s : State} (hs : s.store.Whole) :
    ∀ m ∈ history settings sources s, owning.At m := by
  induction sources generalizing s with
  | nil => exact fun m hm => absurd hm List.not_mem_nil
  | cons source rest ih =>
    have hstep : (step settings source s).2.store.Whole ∧
        ∀ m ∈ moments settings source s, owning.At m := by
      unfold step moments
      cases parse? source with
      | error errors => exact ⟨hs, fun m hm => absurd hm List.not_mem_nil⟩
      | ok p => exact whole_program hs
    rw [history]
    exact List.forall_mem_append.mpr ⟨hstep.2, ih hstep.1⟩

/-- **Every value that a session has at hand belongs to its store**, at every moment. -/
theorem belongs_of_mem_values {sources : List String} {m : Moment} {v : Value}
    (hm : m ∈ history settings sources start) (hv : v ∈ m.values) : m.state.store.Belongs v := by
  obtain ⟨hwhole, howns⟩ := Moment.owns_of_at (whole_history Store.Whole.start m hm)
  exact hwhole.belongs (howns v hv)

end Session

end Vorn
