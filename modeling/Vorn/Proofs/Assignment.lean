import Vorn.Proofs.Eval.Program

/-!
# Bindings change through assignments only

Once a scope binds a name, the binding stays, and it keeps its value as long as no assignment and no
step is evaluated whose variable it is (`Eval.binding_kept`): declarations refuse a name that is
bound, and calls, blocks and loops bind names in scopes of their own.
-/

namespace Vorn

/-- The binding that an assignment or a step is about to change: its name and its scope. -/
def Moment.assigned? : Moment → Option (String × ScopeRef)
  | started t s => do
    let (name, r) ← t.target?
    let (_, target) ← s.store.scopes.get? r name
    return (name, target)
  | finished _ _ => none

/-- The binding that a statement has just made. -/
def Moment.bound? : Moment → Option (String × ScopeRef)
  | finished (.stmt s r) (.ok _ _) => s.binds?.map fun name => (name, r)
  | _ => none

theorem Moment.assigned?_eq_some {m : Moment} {name : String} {target : ScopeRef} :
    m.assigned? = some (name, target) ↔
      ∃ t s r old, m = .started t s ∧ t.target? = some (name, r) ∧
        s.store.scopes.get? r name = some (old, target) := by
  constructor
  · intro h
    cases m with
    | finished => cases h
    | started t s =>
      obtain ⟨⟨x, r⟩, ht, h⟩ := Option.bind_eq_some_iff.mp h
      obtain ⟨⟨old, r'⟩, hget, h⟩ := Option.bind_eq_some_iff.mp h
      cases h
      exact ⟨t, s, r, old, rfl, ht, hget⟩
  · rintro ⟨t, s, r, old, rfl, ht, hget⟩
    simp [assigned?, ht, hget]

/-! ## The contract -/

/-- What is known about one binding: the number of scopes, and its value if it is there. -/
structure BindingWorld where
  size : Nat
  value : Option Value

namespace BindingWorld

structure Le (w w' : BindingWorld) : Prop where
  size : w.size ≤ w'.size
  value : ∀ v, w.value = some v → w'.value = some v

/-- If the scope is there, nothing is bound in it. -/
structure Quiet (r : ScopeRef) (w w' : BindingWorld) : Prop extends Le w w' where
  same : r.index < w.size → w'.value = w.value

/-- What is known of scopes. -/
structure Describes (r : ScopeRef) (name : String) (w : BindingWorld) (sc : Scopes Value) :
    Prop where
  size : sc.size = w.size
  value : sc.getLocal? r name = w.value

/-- A statement in another scope does not touch the binding. -/
structure Ran (r : ScopeRef) (name : String) (w : BindingWorld) (s : Stmt) (r' : ScopeRef)
    (w' : BindingWorld) : Prop extends Le w w' where
  apart : r' ≠ r → r.index < w.size → w'.value = w.value
  binds : r' = r → s.binds? = some name → ∃ v, w'.value = some v

theorem Le.trans {w₁ w₂ w₃ : BindingWorld} (h : Le w₁ w₂) (h' : Le w₂ w₃) : Le w₁ w₃ :=
  ⟨Nat.le_trans h.size h'.size, fun v hv => h'.value v (h.value v hv)⟩

theorem Quiet.trans {r : ScopeRef} {w₁ w₂ w₃ : BindingWorld} (h : Quiet r w₁ w₂)
    (h' : Quiet r w₂ w₃) : Quiet r w₁ w₃ :=
  ⟨h.toLe.trans h'.toLe, fun hr => (h'.same (Nat.lt_of_lt_of_le hr h.size)).trans (h.same hr)⟩

/-- The binding of `name` in `r` keeps its value; no assignment to it is evaluated. -/
def contract (r : ScopeRef) (name : String) : Contract where
  World := BindingWorld
  Le := Le
  Quiet := Quiet r
  quiet_refl _ := ⟨⟨Nat.le_refl _, fun _ h => h⟩, fun _ => rfl⟩
  quiet_trans := Quiet.trans
  le_of_quiet h := h.toLe
  le_trans := Le.trans
  ints := .all
  Function _ _ := True
  function_mono _ h := h
  Scoped := Describes r name
  Expr _ _ _ := True
  Stmt w _ r' := r'.index < w.size
  Block _ _ _ := True
  Ran := Ran r name
  Assumed m := m.assigned? ≠ some (name, r)
  sizes _ := Ints.sizes_all _

variable {r r' : ScopeRef} {name : String} {w : BindingWorld} {sc : Scopes Value}

/-- A declaration binds a name behind a quiet stretch in which its value was evaluated. The name has
to be free, if it is the one in question. -/
theorem Describes.declare {w₁ : BindingWorld} {s : Stmt} (hsc : Describes r name w₁ sc)
    (hw : Quiet r w w₁) (hr' : r'.index < w.size) {x : String} (hs : s.binds? = some x)
    (hfree : r' = r → x = name → w₁.value = none) (v : Value) :
    ∃ w', Le w₁ w' ∧ Describes r name w' (sc.set r' x v) ∧ Ran r name w s r' w' := by
  have hset := sc.getLocal?_set r' x v r name
  have hle : Le w₁ ⟨w₁.size, (sc.set r' x v).getLocal? r name⟩ := by
    refine ⟨Nat.le_refl _, fun u hu => ?_⟩
    dsimp only
    rw [hset, if_neg, hsc.value, hu]
    rintro ⟨rfl, rfl, -⟩
    simp [hfree rfl rfl] at hu
  refine ⟨_, hle, ⟨by simpa using hsc.size, rfl⟩, hw.toLe.trans hle, fun hne hr => ?_, ?_⟩
  · rw [← hw.same hr, ← hsc.value, hset, if_neg]
    rintro ⟨rfl, -⟩
    exact hne rfl
  · rintro rfl hname
    rw [hs, Option.some.injEq] at hname
    exact ⟨v, by rw [hset, if_pos ⟨rfl, hname.symm, by rw [hsc.size]; exact Nat.lt_of_lt_of_le hr' hw.size⟩]⟩

/-- A new scope, in which names may be bound at once. -/
theorem Describes.enclose (hsc : Describes r name w sc) {sc' : Scopes Value}
    (hsize : sc'.size = sc.size + 1)
    (hold : ∀ x, r.index < sc.size → sc'.getLocal? r x = sc.getLocal? r x) :
    ∃ w', Quiet r w w' ∧ w'.size = w.size + 1 ∧ Describes r name w' sc' := by
  have hsame : r.index < w.size → sc'.getLocal? r name = w.value := fun hr => by
    rw [hold name (by rw [hsc.size]; exact hr), hsc.value]
  refine ⟨⟨w.size + 1, sc'.getLocal? r name⟩, ⟨⟨Nat.le_succ _, fun v hv => ?_⟩, hsame⟩, rfl,
    by rw [hsize, hsc.size], rfl⟩
  rw [← hv]
  refine hsame (Nat.lt_of_not_le fun hr => ?_)
  have hnone := sc.getLocal?_eq_none r (x := name) (by rw [hsc.size]; exact hr)
  rw [hsc.value, hv] at hnone
  cases hnone

/-- Statements in a scope that was not there. -/
theorem apart (hr' : r'.index = w.size) : (contract r name).Apart w r' := by
  intro w₁ w₂ s hw hran
  refine ⟨hw.toLe.trans hran.toLe, fun hr => ?_⟩
  have hne : r' ≠ r := by
    rintro rfl
    omega
  exact (hran.apart hne (Nat.lt_of_lt_of_le hr hw.size)).trans (hw.same hr)

theorem seq : ∀ {ss : List Stmt} {w : BindingWorld}, r'.index < w.size →
    (contract r name).Seq w ss r'
  | [], _, _ => trivial
  | _ :: _, _, hr' => ⟨hr', fun _ hle _ => seq (Nat.lt_of_lt_of_le hr' hle.size)⟩

theorem discipline : (contract r name).Discipline where
  expr_quiet _ h := h
  block_quiet _ h := h
  literal _ := trivial
  part _ _ _ := trivial
  branch _ _ _ := trivial
  signal _ _ := trivial
  function _ _ := trivial
  assign {_ t s r' x old target w₁ sc₁} _ hassumed ht _ hget _ hsc v := by
    have hother : ¬(r = target ∧ name = x ∧ target.index < sc₁.size) := by
      rintro ⟨rfl, rfl, -⟩
      exact hassumed (Moment.assigned?_eq_some.mpr ⟨_, _, _, _, rfl, ht, hget⟩)
    refine ⟨w₁, Contract.quiet_refl _ w₁, by simpa using hsc.size, ?_⟩
    rw [Scopes.getLocal?_set, if_neg hother]
    exact hsc.value
  stmt_expr _ := .inl trivial
  stmt_part _ _ _ _ := trivial
  stmt_body _ := trivial
  declare {w pos isConst x value r' sc w₁ sc₁} hr' hsc hfree hw hsc₁ v := by
    have hnone : r' = r → x = name → w₁.value = none := by
      rintro rfl rfl
      rw [hw.same hr', ← hsc.value]
      simpa [Scopes.contains] using hfree
    exact hsc₁.declare hw hr' rfl hnone v
  define {w pos x params body r' sc} hr' hsc hfree _ := by
    refine ⟨trivial, fun v => hsc.declare (Contract.quiet_refl _ w) hr' rfl ?_ v⟩
    rintro rfl rfl
    rw [← hsc.value]
    simpa [Scopes.contains] using hfree
  other hs h := ⟨h.toLe, fun _ hr => h.same hr, fun _ hname => by simp [hs] at hname⟩
  enter {w b r' sc} _ hsc := by
    obtain ⟨w', hw', hsize, hsc'⟩ := hsc.enclose (sc.size_enclose r')
      fun x _ => sc.getLocal?_enclose r' r x
    have hnew : (sc.enclose r').1.index = w.size := hsc.size
    exact ⟨w', hw', hsc', apart hnew, seq (by omega)⟩
  loop {w pos init condition update body r' sc} _ hsc := by
    obtain ⟨w', hw', hsize, hsc'⟩ := hsc.enclose (sc.size_enclose r')
      fun x _ => sc.getLocal?_enclose r' r x
    have hnew : (sc.enclose r').1.index = w.size := hsc.size
    refine ⟨w', hw', hsc', apart hnew, ?_⟩
    cases init with
    | none => exact ⟨fun _ _ => trivial, fun _ _ => trivial, trivial⟩
    | some s =>
      exact ⟨show _ < w'.size by omega,
        fun _ _ _ => ⟨fun _ _ => trivial, fun _ _ => trivial, trivial⟩⟩
  call {w c sc args} _ _ hsc := by
    have hsize : ((sc.enclose c.scope).2.bindAll (sc.enclose c.scope).1 c.params args).size =
        sc.size + 1 := by simp
    obtain ⟨w', hw', -, hsc'⟩ := hsc.enclose hsize fun x hr => by
      have hne : r ≠ (sc.enclose c.scope).1 := by
        rintro rfl
        simp at hr
      rw [Scopes.getLocal?_bindAll_of_ne hne, Scopes.getLocal?_enclose]
    exact ⟨w', hw', hsc', trivial⟩

/-- At the end of a statement that binds the name it is bound. -/
theorem bound {m : Moment} (hat : (contract r name).At w m) (hm : m.bound? = some (name, r)) :
    ∃ v, w.value = some v := by
  unfold Moment.bound? at hm
  split at hm
  · obtain ⟨-, w₀, -, -, hgives⟩ := hat
    obtain ⟨x, hx, h⟩ := Option.map_eq_some_iff.mp hm
    cases h
    exact hgives.leaves.binds rfl hx
  · cases hm

theorem admits {w : BindingWorld} : ∀ v : Value, ((contract r name).law w).Admits v
  | .returned _ v _ => ⟨trivial, admits v⟩
  | .int _ _ | .function _ => trivial
  | .null | .bool _ | .float _ _ | .string _ _ | .array _ _ | .hash _ _ | .builtin _
  | .break _ _ | .continue _ _ => trivial

/-- The contract holds of every store. -/
theorem holds (s : Store) :
    (contract r name).Holds ⟨s.scopes.size, s.scopes.getLocal? r name⟩ s :=
  ⟨⟨fun _ _ v _ => admits v, fun _ _ _ _ => ⟨admits _, admits _⟩, fun _ _ b _ => admits b.2⟩,
    rfl, rfl⟩

end BindingWorld

/-- The binding is there with one value, at all the moments and in the state behind them. -/
def Kept (r : ScopeRef) (name : String) (ms : List Moment) (s : State) : Prop :=
  ∃ v, (∀ m ∈ ms, m.state.store.scopes.getLocal? r name = some v) ∧
    s.store.scopes.getLocal? r name = some v

namespace Eval

open Run

variable {settings : Settings}

/-- A binding keeps its value from the moment on that a statement has made it, if no moment of the
run is the start of an assignment to it. -/
theorem binding_kept {p : Program} {s : State} {before behind : List Moment} {m : Moment}
    {r : ScopeRef} {name : String} (hroot : 0 < s.store.scopes.size)
    (hassigned : ∀ m ∈ programHistory settings p s, m.assigned? ≠ some (name, r))
    (hsplit : programHistory settings p s = before ++ m :: behind)
    (hm : m.bound? = some (name, r)) :
    Kept r name (m :: behind) (Session.run settings p s).2 := by
  have hdiscipline : (BindingWorld.contract r name).Discipline := BindingWorld.discipline
  obtain ⟨w', halong, hend, -⟩ :=
    hdiscipline.program (BindingWorld.holds s.store) (BindingWorld.seq hroot) hassigned
  rw [hsplit] at halong
  obtain ⟨w₀, -, hrest⟩ := halong.split
  cases hrest with
  | @cons _ w₁ _ _ _ _ hat hbehind =>
    obtain ⟨v, hvalue⟩ := BindingWorld.bound hat hm
    refine ⟨v, List.forall_mem_cons.mpr ⟨hat.holds.scopes.value.trans hvalue, fun m' hm' => ?_⟩,
      hend.scopes.value.trans (hbehind.le.value v hvalue)⟩
    obtain ⟨w₂, hle, -, hat'⟩ := hbehind.at_of_mem hm'
    exact hat'.holds.scopes.value.trans (hle.value v hvalue)

/-- An assignment that ends with a value has stored it in the binding that its variable was before
the value was evaluated. -/
theorem assignment_stores {depth : Nat} {pos : Pos} {name : String} {e : Expr} {r target : ScopeRef}
    {s s' : State} {old v : Value} (hget : s.store.scopes.get? r name = some (old, target))
    (h : eval settings (depth + 1) (.expr (.assign pos name e) r) s = .ok v s') :
    ∃ s₁, eval settings depth (.expr e r) s = .ok v s₁ ∧
      s'.store = s₁.store.bind target name v := by
  change (evalAssign settings r pos name e s).play (eval settings depth) = _ at h
  unfold evalAssign at h
  rw [Script.run_store_bind, hget] at h
  dsimp only at h
  rw [Script.play_ask_bind] at h
  cases hvalue : eval settings depth (.expr e r) s with
  | error stop s₁ =>
    rw [hvalue] at h
    cases h
  | ok u s₁ =>
    rw [hvalue] at h
    dsimp only at h
    rw [Script.run_bind_bind, Script.run_bind, Script.run_lift] at h
    have hline : Steady (trace settings 2 do return "assign " ++ name ++ " = " ++ (← inspect u)) :=
      steady_trace (.bind (steady_inspect u) fun _ => .pure _)
    have hstore := hline { s₁ with store := s₁.store.bind target name u }
    cases htrace : trace settings 2 (do return "assign " ++ name ++ " = " ++ (← inspect u))
        { s₁ with store := s₁.store.bind target name u } with
    | error stop s₂ =>
      rw [htrace] at h
      cases h
    | ok _ s₂ =>
      rw [htrace] at h hstore
      cases h
      exact ⟨s₁, rfl, hstore⟩

end Eval

end Vorn
