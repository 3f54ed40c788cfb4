import Vorn.Proofs.Assignment
import Vorn.Proofs.Tree.ConstTargets

/-!
# Constants keep their values

A constant keeps the value that its declaration gives it, if no assignment of the program may reach
a constant (`Eval.const_kept`). The grammar asks less: it looks at assignments that are statements
or clauses of a `for`, and at the constants declared in front of them, so a program may be accepted
and still change a constant (`Eval.const_changed_in_initializer`).

The contract ties the levels of the pass over the tree to the scopes of a run (`ConstWorld.Fits`).
-/

namespace Vorn

/-- The constant that a declaration has just bound. -/
def Moment.constBound? : Moment → Option (String × ScopeRef)
  | finished (.stmt s r) (.ok _ _) => s.constName?.map fun name => (name, r)
  | _ => none

theorem Moment.bound?_of_constBound? {m : Moment} {x : String} {r : ScopeRef}
    (h : m.constBound? = some (x, r)) : m.bound? = some (x, r) := by
  unfold constBound? at h
  split at h
  · rename_i s r' _ _
    cases s with
    | declare pos isConst name value =>
      cases isConst <;> cases h
      rfl
    | _ => cases h
  · cases h

theorem Expr.mayReachConst_target {ls : Levels} {e : Expr} {pos : Pos} {x : String}
    (h : e.sparesConsts ls = true) (ht : e.target? = some (pos, x)) :
    ls.mayReachConst x = false := by
  cases e <;> cases ht <;> simp_all [Expr.sparesConsts]

theorem Stmt.mayReachConst_target {ls : Levels} {s : Stmt} {pos : Pos} {x : String}
    (h : s.sparesConsts ls = true) (ht : s.target? = some (pos, x)) :
    ls.mayReachConst x = false := by
  cases s with
  | expr _ _ e => exact Expr.mayReachConst_target (by rwa [Stmt.sparesConsts] at h) ht
  | _ => cases ht

/-- The scopes of a run, and for each the constants of the statements that it belongs to. -/
structure ConstWorld where
  scopes : Scopes Value
  consts : ScopeRef → List String

namespace ConstWorld

structure Le (w w' : ConstWorld) : Prop where
  size : w.scopes.size ≤ w'.scopes.size
  consts : ∀ r, r.index < w.scopes.size → w'.consts r = w.consts r
  outer : ∀ r, r.index < w.scopes.size → w'.scopes.outer? r = w.scopes.outer? r
  names : ∀ r x, w.scopes.contains r x = true → w'.scopes.contains r x = true

/-- Nothing is bound in the scopes that are there. -/
structure Quiet (w w' : ConstWorld) : Prop extends Le w w' where
  same : ∀ r x, r.index < w.scopes.size → w'.scopes.contains r x = true →
    w.scopes.contains r x = true

/-- A statement binds its own name, in its scope. -/
structure Ran (w : ConstWorld) (s : Stmt) (r : ScopeRef) (w' : ConstWorld) : Prop
    extends Le w w' where
  binds : ∀ x ∈ s.binds?, w'.scopes.contains r x = true
  only : ∀ r' x, r'.index < w.scopes.size → w'.scopes.contains r' x = true →
    w.scopes.contains r' x = true ∨ r' = r ∧ s.binds? = some x

/-- A level tells the truth about a scope. -/
structure Shows (w : ConstWorld) (l : Level) (r : ScopeRef) : Prop where
  here : r.index < w.scopes.size
  consts : w.consts r = l.consts
  bound : ∀ x ∈ l.bound, w.scopes.contains r x = true
  settled : l.moving = false → ∀ x, w.scopes.contains r x = true → x ∈ l.bound

/-- Levels tell the truth about a scope and those around it. -/
inductive Fits (w : ConstWorld) : Levels → ScopeRef → Prop where
  | root {l : Level} {r : ScopeRef} (shows : w.Shows l r) (outer : w.scopes.outer? r = none) :
    Fits w [l] r
  | inner {l : Level} {ls : Levels} {r o : ScopeRef} (shows : w.Shows l r)
    (outer : w.scopes.outer? r = some o) (older : o.index < r.index) (rest : Fits w ls o) :
    Fits w (l :: ls) r

variable {w w₁ w₂ w₃ w' : ConstWorld}

theorem Le.trans (h : Le w₁ w₂) (h' : Le w₂ w₃) : Le w₁ w₃ where
  size := Nat.le_trans h.size h'.size
  consts r hr := (h'.consts r (Nat.lt_of_lt_of_le hr h.size)).trans (h.consts r hr)
  outer r hr := (h'.outer r (Nat.lt_of_lt_of_le hr h.size)).trans (h.outer r hr)
  names r x hx := h'.names r x (h.names r x hx)

theorem Quiet.refl (w : ConstWorld) : Quiet w w :=
  ⟨⟨Nat.le_refl _, fun _ _ => rfl, fun _ _ => rfl, fun _ _ h => h⟩, fun _ _ _ h => h⟩

theorem Quiet.trans (h : Quiet w₁ w₂) (h' : Quiet w₂ w₃) : Quiet w₁ w₃ :=
  ⟨h.toLe.trans h'.toLe, fun r x hr hx =>
    h.same r x hr (h'.same r x (Nat.lt_of_lt_of_le hr h.size) hx)⟩

/-! ## Levels -/

namespace Shows

variable {l : Level} {ls : Levels} {r : ScopeRef} {x : String}

/-- A variable that is bound here and may not reach a constant is none. -/
theorem not_const (h : w.Shows l r) (hreach : Levels.mayReachConst x (l :: ls) = false)
    (hx : w.scopes.contains r x = true) : x ∉ w.consts r := by
  simp only [Levels.mayReachConst, Bool.or_eq_false_iff, Bool.and_eq_false_iff,
    List.contains_eq_mem, decide_eq_false_iff_not] at hreach
  rw [h.consts]
  rcases hreach.1 with hconst | ⟨hbound, hmoving⟩
  · exact hconst
  · exact absurd (h.settled hmoving x hx) hbound

/-- A variable that is not bound here is looked for further out. -/
theorem mayReachConst_rest (h : w.Shows l r) (hreach : Levels.mayReachConst x (l :: ls) = false)
    (hx : ¬ w.scopes.contains r x = true) : ls.mayReachConst x = false := by
  have hbound : x ∉ l.bound := fun hmem => hx (h.bound x hmem)
  simp only [Levels.mayReachConst, Bool.or_eq_false_iff] at hreach
  simpa [hbound] using hreach.2

end Shows

namespace Fits

variable {l : Level} {ls : Levels} {r : ScopeRef}

theorem here (h : w.Fits ls r) : r.index < w.scopes.size := by
  cases h with
  | root shows _ => exact shows.here
  | inner shows _ _ _ => exact shows.here

/-- Levels stay true as long as each level does; the scopes around `r` are older. -/
theorem le {f : Level → Level} (hle : Le w w') (h : w.Fits ls r)
    (hshows : ∀ l r', r'.index ≤ r.index → w.Shows l r' → w'.Shows (f l) r') :
    w'.Fits (ls.map f) r := by
  induction h with
  | root shows outer =>
    exact .root (hshows _ _ (Nat.le_refl _) shows) ((hle.outer _ shows.here).trans outer)
  | inner shows outer older _ ih =>
    refine .inner (hshows _ _ (Nat.le_refl _) shows) ((hle.outer _ shows.here).trans outer) older
      (ih fun l r' hr' => hshows l r' ?_)
    exact Nat.le_trans hr' (Nat.le_of_lt older)

/-- Levels stay true if nothing is bound in the scope and those around it. -/
theorem same (hle : Le w w') (h : w.Fits ls r)
    (hsame : ∀ r' x, r'.index ≤ r.index → r'.index < w.scopes.size →
      w'.scopes.contains r' x = true → w.scopes.contains r' x = true) : w'.Fits ls r := by
  have hfits := h.le (f := id) hle fun l r' hr' hl =>
    ⟨Nat.lt_of_lt_of_le hl.here hle.size, (hle.consts r' hl.here).trans hl.consts,
      fun x hx => hle.names r' x (hl.bound x hx),
      fun hm x hx => hl.settled hm x (hsame r' x hr' hl.here hx)⟩
  rwa [List.map_id] at hfits

theorem quiet (hw : Quiet w w') (h : w.Fits ls r) : w'.Fits ls r :=
  h.same hw.toLe fun r' x _ => hw.same r' x

/-- What a function knows stays true when more names are bound. -/
theorem later (hle : Le w w') (h : w.Fits ls r) : w'.Fits (ls.map Level.later) r :=
  h.le hle fun _ r' _ hl => ⟨Nat.lt_of_lt_of_le hl.here hle.size,
    (hle.consts r' hl.here).trans hl.consts, fun x hx => hle.names r' x (hl.bound x hx), nofun⟩

/-- A statement adds its name to the innermost level. -/
theorem ran {s : Stmt} (h : w.Fits (l :: ls) r) (hran : Ran w s r w') :
    w'.Fits (l.add s :: ls) r := by
  have hshows : w.Shows l r → w'.Shows (l.add s) r := fun hl => by
    refine ⟨Nat.lt_of_lt_of_le hl.here hran.size, (hran.consts r hl.here).trans hl.consts,
      fun x hx => ?_, fun hm x hx => ?_⟩
    · rcases List.mem_append.mp hx with hx | hx
      · exact hran.binds x (Option.mem_toList.mp hx)
      · exact hran.names r x (hl.bound x hx)
    · rcases hran.only r x hl.here hx with hx | ⟨-, hx⟩
      · exact List.mem_append_right _ (hl.settled hm x hx)
      · exact List.mem_append_left _ (Option.mem_toList.mpr hx)
  cases h with
  | root shows outer => exact .root (hshows shows) ((hran.outer _ shows.here).trans outer)
  | inner shows outer older rest =>
    refine .inner (hshows shows) ((hran.outer _ shows.here).trans outer) older ?_
    refine rest.same hran.toLe fun r' x hr' hhere hx => ?_
    rcases hran.only r' x hhere hx with hx | ⟨rfl, -⟩
    · exact hx
    · omega

/-- A variable that may not reach a constant is none. -/
theorem not_const {x : String} {old : Value} {target : ScopeRef} (h : w.Fits ls r)
    (hreach : ls.mayReachConst x = false) (hget : w.scopes.get? r x = some (old, target)) :
    target.index < w.scopes.size ∧ x ∉ w.consts target := by
  induction h with
  | @root l r shows outer =>
    rw [Scopes.get?_eq, outer] at hget
    cases hlocal : w.scopes.getLocal? r x with
    | none => simp [hlocal] at hget
    | some v =>
      rw [hlocal] at hget
      cases hget
      exact ⟨shows.here, shows.not_const hreach (by simp [Scopes.contains, hlocal])⟩
  | @inner l ls r o shows outer older rest ih =>
    rw [Scopes.get?_eq, outer] at hget
    cases hlocal : w.scopes.getLocal? r x with
    | none =>
      have hrest := shows.mayReachConst_rest hreach (by simp [Scopes.contains, hlocal])
      exact ih hrest (by simpa [hlocal, older] using hget)
    | some v =>
      rw [hlocal] at hget
      cases hget
      exact ⟨shows.here, shows.not_const hreach (by simp [Scopes.contains, hlocal])⟩

end Fits

/-! ## What a run does to the world -/

/-- A new scope for statements with the given constants. -/
def enclose (w : ConstWorld) (r : ScopeRef) (consts : List String) : ConstWorld :=
  ⟨(w.scopes.enclose r).2, fun r' => if r'.index = w.scopes.size then consts else w.consts r'⟩

/-- The scopes are changed and no new one is made. -/
def rebind (w : ConstWorld) (sc : Scopes Value) : ConstWorld := { w with scopes := sc }

theorem quiet_enclose (w : ConstWorld) (r : ScopeRef) (consts : List String) :
    Quiet w (w.enclose r consts) where
  size := by simp [enclose]
  consts r' hr' := by simp [enclose, Nat.ne_of_lt hr']
  outer r' hr' := by
    rw [enclose, Scopes.outer?_enclose, if_neg (Nat.ne_of_lt hr')]
  names r' x hx := by rwa [enclose, Scopes.contains_enclose]
  same r' x _ hx := by rwa [enclose, Scopes.contains_enclose] at hx

theorem fits_enclose {ls : Levels} {r : ScopeRef} (h : w.Fits ls r) (consts : List String) :
    (w.enclose r consts).Fits ({ consts } :: ls) (w.scopes.enclose r).1 := by
  refine .inner ⟨by simp [enclose], by simp [enclose], by simp, fun _ x hx => ?_⟩ ?_ h.here
    (h.quiet (w.quiet_enclose r consts))
  · rw [enclose, Scopes.contains_enclose, Scopes.contains, Scopes.getLocal?_eq_none] at hx
    · cases hx
    · simp
  · rw [enclose, Scopes.outer?_enclose, if_pos (by simp)]

/-- Binding a name leaves all else as it is. -/
theorem le_set (w : ConstWorld) (r : ScopeRef) (x : String) (v : Value) :
    Le w (w.rebind (w.scopes.set r x v)) where
  size := by simp [rebind]
  consts _ _ := rfl
  outer r' _ := by simp [rebind]
  names r' y hy := by
    rw [rebind, Scopes.contains_set]
    exact .inl hy

/-- A new value for a name that is bound. -/
theorem quiet_set {r : ScopeRef} {x : String} (h : w.scopes.contains r x = true) (v : Value) :
    Quiet w (w.rebind (w.scopes.set r x v)) where
  toLe := w.le_set r x v
  same r' y _ hy := by
    rw [rebind, Scopes.contains_set] at hy
    rcases hy with hy | ⟨rfl, rfl, -⟩
    · exact hy
    · exact h

/-- The scope of a call, with the parameters bound. -/
def call (w : ConstWorld) (r : ScopeRef) (params : List String) (args : List Value) : ConstWorld :=
  (w.enclose r []).rebind ((w.scopes.enclose r).2.bindAll (w.scopes.enclose r).1 params args)

section

variable {ls : Levels} {r : ScopeRef} {params : List String} {args : List Value}

theorem contains_call {r' : ScopeRef} (hr' : r'.index < w.scopes.size) (x : String) :
    (w.call r params args).scopes.contains r' x = w.scopes.contains r' x := by
  have hne : r' ≠ (w.scopes.enclose r).1 := by
    rintro rfl
    simp at hr'
  rw [call, rebind, Scopes.contains, Scopes.getLocal?_bindAll_of_ne hne, Scopes.getLocal?_enclose,
    Scopes.contains]

theorem quiet_call (w : ConstWorld) (r : ScopeRef) (params : List String) (args : List Value) :
    Quiet w (w.call r params args) where
  size := by simp [call, rebind]
  consts r' hr' := by simp [call, rebind, enclose, Nat.ne_of_lt hr']
  outer r' hr' := by
    rw [call, rebind, Scopes.outer?_bindAll, Scopes.outer?_enclose, if_neg (Nat.ne_of_lt hr')]
  names r' x hx := by rwa [contains_call (Scopes.lt_size_of_contains hx)]
  same r' x hr' hx := by rwa [contains_call hr'] at hx

theorem fits_call (h : w.Fits ls r) (hcount : params.length = args.length) :
    (w.call r params args).Fits ({ bound := params } :: ls) (w.scopes.enclose r).1 := by
  have hcontains : ∀ x, (w.call r params args).scopes.contains (w.scopes.enclose r).1 x = true ↔
      x ∈ params := fun x => by
    have hnone := Scopes.getLocal?_eq_none w.scopes (w.scopes.enclose r).1 (x := x) (by simp)
    rw [call, rebind, Scopes.contains_bindAll_self hcount (by simp), Scopes.contains_enclose,
      Scopes.contains, hnone]
    simp
  refine .inner ⟨by simp [call, rebind], by simp [call, rebind, enclose],
    fun x hx => (hcontains x).mpr hx, fun _ x hx => (hcontains x).mp hx⟩ ?_ h.here
    (h.quiet (quiet_call w r params args))
  rw [call, rebind, Scopes.outer?_bindAll, Scopes.outer?_enclose, if_pos (by simp)]

end

/-! ## The contract -/

/-- No assignment in a tree may reach a constant. -/
def contract : Contract where
  World := ConstWorld
  Le := Le
  Quiet := Quiet
  quiet_refl := Quiet.refl
  quiet_trans := Quiet.trans
  le_of_quiet h := h.toLe
  le_trans := Le.trans
  ints := .all
  Function w c := ∃ ls : Levels, w.Fits (ls.map Level.later) c.scope ∧
    c.body.sparesConsts ({ bound := c.params } :: ls.map Level.later) = true
  function_mono := by
    rintro w w' c hle ⟨ls, hfits, hbody⟩
    have hfits' := hfits.later hle
    rw [List.map_map] at hfits'
    exact ⟨ls, hfits', hbody⟩
  Scoped w sc := w.scopes = sc
  Expr w e r := ∃ ls, w.Fits ls r ∧ e.sparesConsts ls = true
  Stmt w s r := ∃ ls, w.Fits ls r ∧ s.sparesConsts ls = true ∧ ∀ x ∈ s.constName?, x ∈ w.consts r
  Block w b r := ∃ ls, w.Fits ls r ∧ b.sparesConsts ls = true
  Ran := Ran
  Assumed _ := True
  sizes _ := Ints.sizes_all _

theorem apart {r : ScopeRef} (hr : r.index = w.scopes.size) : contract.Apart w r := by
  intro w₁ w₂ s hw hran
  refine ⟨hw.toLe.trans hran.toLe, fun r' x hr' hx => ?_⟩
  rcases hran.only r' x (Nat.lt_of_lt_of_le hr' hw.size) hx with hx | ⟨rfl, -⟩
  · exact hw.same r' x hr' hx
  · omega

/-- Statements one after the other. -/
theorem seq {r : ScopeRef} {ls : Levels} : ∀ {ss : List Stmt} {l : Level} {w : ConstWorld},
    w.Fits (l :: ls) r → Stmt.sparesConstsAll l ls ss = true →
    (∀ x ∈ Stmt.constNames ss, x ∈ w.consts r) → contract.Seq w ss r
  | [], _, _, _, _, _ => trivial
  | s :: ss, l, w, hfits, hspares, hconsts => by
    rw [Stmt.sparesConstsAll, Bool.and_eq_true] at hspares
    refine ⟨⟨_, hfits, hspares.1, fun x hx => hconsts x ?_⟩, fun w' hle hran => ?_⟩
    · exact List.mem_filterMap.mpr ⟨s, by simp, hx⟩
    · refine seq (hfits.ran hran) hspares.2 fun x hx => ?_
      rw [hle.consts r hfits.here]
      obtain ⟨s', hs', hx⟩ := List.mem_filterMap.mp hx
      exact hconsts x (List.mem_filterMap.mpr ⟨s', List.mem_cons_of_mem _ hs', hx⟩)

/-- A declaration of a name, behind a quiet stretch in which its value was evaluated. -/
theorem ran_declare {s : Stmt} {r : ScopeRef} {x : String} (hs : s.binds? = some x)
    (hr : r.index < w.scopes.size) (hw : Quiet w w₁) (v : Value) :
    Ran w s r (w₁.rebind (w₁.scopes.set r x v)) where
  toLe := hw.toLe.trans (w₁.le_set r x v)
  binds y hy := by
    rw [hs, Option.mem_some_iff] at hy
    rw [rebind, Scopes.contains_set]
    exact .inr ⟨rfl, hy.symm, Nat.lt_of_lt_of_le hr hw.size⟩
  only r' y hr' hy := by
    rw [rebind, Scopes.contains_set] at hy
    rcases hy with hy | ⟨rfl, rfl, -⟩
    · exact .inl (hw.same r' y hr' hy)
    · exact .inr ⟨rfl, hs⟩

theorem function_of_spares {ls : Levels} {r : ScopeRef} {pos : Pos} {params : List String}
    {body : Block} (hfits : w.Fits ls r)
    (hbody : body.sparesConsts ({ bound := params } :: ls.map Level.later) = true) (id : Nat) :
    contract.Function w { id, params, body, scope := r, pos } :=
  ⟨ls, hfits.later (Quiet.refl w).toLe, hbody⟩

theorem clauses {ls : Levels} {r : ScopeRef} {condition update : Option Expr} {body : Block}
    (hfits : w.Fits ls r) (hcondition : Expr.sparesConstsOption ls condition = true)
    (hupdate : Expr.sparesConstsOption ls update = true) (hbody : body.sparesConsts ls = true) :
    contract.Clauses w r condition update body := by
  rw [Expr.sparesConstsOption_eq, List.all_eq_true] at hcondition hupdate
  exact ⟨fun e he => ⟨ls, hfits, hcondition e (Option.mem_toList.mpr he)⟩,
    fun e he => ⟨ls, hfits, hupdate e (Option.mem_toList.mpr he)⟩, ls, hfits, hbody⟩

theorem discipline : contract.Discipline where
  expr_quiet := by
    rintro w w' e r hw ⟨ls, hfits, he⟩
    exact ⟨ls, hfits.quiet hw, he⟩
  block_quiet := by
    rintro w w' b r hw ⟨ls, hfits, hb⟩
    exact ⟨ls, hfits.quiet hw, hb⟩
  literal _ := trivial
  part := by
    rintro w e r ⟨ls, hfits, he⟩ e' he'
    exact ⟨ls, hfits, (Expr.sparesConsts_parts he).1 e' he'⟩
  branch := by
    rintro w e r ⟨ls, hfits, he⟩ b hb
    exact ⟨ls, hfits, (Expr.sparesConsts_parts he).2 b hb⟩
  signal _ _ := trivial
  function := by
    rintro w pos params body r ⟨ls, hfits, he⟩ id
    rw [Expr.sparesConsts] at he
    exact function_of_spares hfits he id
  assign := by
    rintro w t s r x old target w₁ _ - - - (hsc : w.scopes = s.store.scopes) hget hw rfl v
    rw [← hsc] at hget
    exact ⟨_, quiet_set (hw.names _ _ (Scopes.contains_of_get? _ hget)) v, rfl⟩
  stmt_expr := by
    rintro w pos literal e r ⟨ls, hfits, hs, -⟩
    exact .inl ⟨ls, hfits, Stmt.sparesConsts_parts hs e (by simp [Stmt.parts])⟩
  stmt_part := by
    rintro w s r ⟨ls, hfits, hs, -⟩ - e he
    exact ⟨ls, hfits, Stmt.sparesConsts_parts hs e he⟩
  stmt_body := by
    rintro w pos c body r ⟨ls, hfits, hs, -⟩
    rw [Stmt.sparesConsts, Bool.and_eq_true] at hs
    exact ⟨ls, hfits, hs.2⟩
  declare := by
    rintro w pos isConst x value r _ w₁ _ ⟨ls, hfits, -⟩ - - hw rfl v
    exact ⟨_, w₁.le_set r x v, rfl, ran_declare rfl hfits.here hw v⟩
  define := by
    rintro w pos x params body r _ ⟨ls, hfits, hs, -⟩ rfl - id
    rw [Stmt.sparesConsts] at hs
    exact ⟨function_of_spares hfits hs id,
      fun v => ⟨_, w.le_set r x v, rfl, ran_declare rfl hfits.here (Quiet.refl w) v⟩⟩
  other hs hw := ⟨hw.toLe, by simp [hs], fun r' x hr' hx => .inl (hw.same r' x hr' hx)⟩
  enter := by
    rintro w ⟨pos, ss⟩ r _ ⟨ls, hfits, hb⟩ rfl
    rw [Block.sparesConsts] at hb
    refine ⟨w.enclose r (Stmt.constNames ss), w.quiet_enclose r _, rfl, apart rfl, ?_⟩
    exact seq (fits_enclose hfits _) hb fun x hx => by simpa [enclose, Block.statements] using hx
  loop := by
    rintro w pos init condition update body r _ ⟨ls, hfits, hs, -⟩ rfl
    refine ⟨w.enclose r (Stmt.constNames init.toList), w.quiet_enclose r _, rfl, apart rfl, ?_⟩
    have hfits' := fits_enclose hfits (Stmt.constNames init.toList)
    simp only [Stmt.sparesConsts, Bool.and_eq_true] at hs
    obtain ⟨⟨⟨hinit, hcondition⟩, hupdate⟩, hbody⟩ := hs
    cases init with
    | none => exact clauses hfits' hcondition hupdate hbody
    | some s =>
      rw [Stmt.sparesConstsOption] at hinit
      refine ⟨⟨_, hfits', hinit, fun x hx => ?_⟩, fun w₁ _ hran => ?_⟩
      · simp [enclose, Stmt.constNames, Option.mem_def.mp hx]
      · exact clauses (hfits'.ran hran) hcondition hupdate hbody
  call := by
    rintro w c _ args ⟨ls, hfits, hbody⟩ hcount rfl
    exact ⟨_, quiet_call w c.scope c.params args, rfl, _, fits_call hfits hcount.symm, hbody⟩

/-! ## Programs -/

/-- Before anything ran there is only the scope of the program. -/
def start (p : Program) : ConstWorld := ⟨.initial, fun _ => Stmt.constNames p.statements⟩

theorem seq_start {p : Program} (h : p.SparesConsts) :
    contract.Seq (start p) p.statements Scopes.root := by
  have hshows : (start p).Shows { consts := Stmt.constNames p.statements } Scopes.root := by
    refine ⟨show 0 < 1 by decide, rfl, by simp, fun _ x hx => ?_⟩
    simp [start, Scopes.contains, Scopes.getLocal?, Scopes.initial, Scopes.root, Scope.find?] at hx
  exact seq (.root hshows rfl) h fun x hx => hx

/-- The variable of an assignment that starts is no constant. -/
theorem not_const_of_assigned {m : Moment} {x : String} {target : ScopeRef}
    (hat : contract.At w m) (hm : m.assigned? = some (x, target)) :
    target.index < w.scopes.size ∧ x ∉ w.consts target := by
  obtain ⟨t, s, r, old, rfl, ht, hget⟩ := Moment.assigned?_eq_some.mp hm
  obtain ⟨⟨-, hsc⟩, hneeds⟩ := hat
  rw [← show w.scopes = s.store.scopes from hsc] at hget
  obtain ⟨ls, hfits, hreach⟩ : ∃ ls : Levels, w.Fits ls r ∧ ls.mayReachConst x = false := by
    cases t with
    | expr e r' =>
      obtain ⟨⟨pos, _⟩, he, h⟩ := Option.map_eq_some_iff.mp ht
      cases h
      obtain ⟨ls, hfits, hspares⟩ := hneeds
      exact ⟨ls, hfits, Expr.mayReachConst_target hspares he⟩
    | stmt stmt r' =>
      obtain ⟨⟨pos, _⟩, hs, h⟩ := Option.map_eq_some_iff.mp ht
      cases h
      obtain ⟨ls, hfits, hspares, -⟩ := hneeds
      exact ⟨ls, hfits, Stmt.mayReachConst_target hspares hs⟩
    | block => cases ht
    | apply => cases ht
  exact hfits.not_const hreach hget

/-- A constant that is bound is one of the constants of its scope. -/
theorem const_of_bound {m : Moment} {x : String} {r : ScopeRef} (hat : contract.At w m)
    (hm : m.constBound? = some (x, r)) : r.index < w.scopes.size ∧ x ∈ w.consts r := by
  unfold Moment.constBound? at hm
  split at hm
  · obtain ⟨-, w₀, hle, ⟨ls, hfits, -, hconst⟩, -⟩ := hat
    obtain ⟨_, hname, h⟩ := Option.map_eq_some_iff.mp hm
    cases h
    rw [hle.consts _ hfits.here]
    exact ⟨Nat.lt_of_lt_of_le hfits.here hle.size, hconst _ hname⟩
  · cases hm

end ConstWorld

namespace Eval

variable {settings : Settings} {p : Program} {before behind : List Moment} {m : Moment}
  {r : ScopeRef} {name : String}

/-- No assignment to a constant starts in the run of a program that spares its constants. -/
theorem const_not_assigned (hspares : p.SparesConsts)
    (hsplit : programHistory settings p Session.start = before ++ m :: behind)
    (hm : m.constBound? = some (name, r)) :
    ∀ m' ∈ programHistory settings p Session.start, m'.assigned? ≠ some (name, r) := by
  intro m' hm' hassigned
  have hstart : ConstWorld.contract.Holds (ConstWorld.start p) Session.start.store :=
    ⟨Law.admitsStore_start, rfl⟩
  have hassumed : ∀ m ∈ programHistory settings p Session.start,
      ConstWorld.contract.Assumed m := fun _ _ => trivial
  obtain ⟨w', halong, -⟩ :=
    ConstWorld.discipline.program hstart (ConstWorld.seq_start hspares) hassumed
  rw [hsplit] at halong hm'
  obtain ⟨w₀, hbefore, hrest⟩ := halong.split
  cases hrest with
  | @cons _ w₁ _ _ _ hle hat hbehind =>
    obtain ⟨hr, hconst⟩ := ConstWorld.const_of_bound hat hm
    -- What is a constant in one world is a constant in every earlier and every later one.
    rcases List.mem_append.mp hm' with hm' | hm'
    · obtain ⟨w₂, -, hle', hat'⟩ := hbefore.at_of_mem hm'
      obtain ⟨hr', hname⟩ := ConstWorld.not_const_of_assigned hat' hassigned
      rw [(hle'.trans hle).consts r hr'] at hconst
      exact hname hconst
    rcases List.mem_cons.mp hm' with rfl | hm'
    · obtain ⟨_, _, _, _, rfl, -⟩ := Moment.assigned?_eq_some.mp hassigned
      cases hm
    · obtain ⟨w₂, hle', -, hat'⟩ := hbehind.at_of_mem hm'
      obtain ⟨-, hname⟩ := ConstWorld.not_const_of_assigned hat' hassigned
      rw [hle'.consts r hr] at hname
      exact hname hconst

/-- A constant keeps the value that its declaration gave it: in every run of a program in which no
assignment may reach a constant, and in every run in which no assignment to it starts. There is
nothing else to protect it: an assignment to it that ends with a value has stored that value. -/
theorem const_kept (hsplit : programHistory settings p Session.start = before ++ m :: behind)
    (hm : m.constBound? = some (name, r)) :
    (p.SparesConsts → Kept r name (m :: behind) (Session.run settings p Session.start).2) ∧
    ((∀ m' ∈ programHistory settings p Session.start, m'.assigned? ≠ some (name, r)) →
      Kept r name (m :: behind) (Session.run settings p Session.start).2) ∧
    ∀ depth pos e r' s old v s', s.store.scopes.get? r' name = some (old, r) →
      eval settings (depth + 1) (.expr (.assign pos name e) r') s = .ok v s' →
      ∃ s₁, eval settings depth (.expr e r') s = .ok v s₁ ∧ s'.store = s₁.store.bind r name v := by
  have hroot : 0 < Session.start.store.scopes.size := by decide
  have hbound := Moment.bound?_of_constBound? hm
  exact ⟨fun hspares => binding_kept hroot (const_not_assigned hspares hsplit hm) hsplit hbound,
    fun hassigned => binding_kept hroot hassigned hsplit hbound,
    fun _ _ _ _ _ _ _ _ => assignment_stores⟩

/-- The program is accepted, passes the test and has a moment that passes the other one. -/
def found (source : String) (test : Program → Bool) (find : Moment → Bool) : Bool :=
  match parse? source with
  | .ok p => test p && (programHistory {} p Session.start).any find
  | .error _ => false

theorem exists_of_found {source : String} {test : Program → Bool} {find : Moment → Bool}
    (h : found source test find = true) :
    ∃ p before m behind, parse? source = .ok p ∧ test p = true ∧ find m = true ∧
      programHistory {} p Session.start = before ++ m :: behind := by
  unfold found at h
  split at h
  · rename_i p hp
    rw [Bool.and_eq_true, List.any_eq_true] at h
    obtain ⟨htest, m, hm, hfind⟩ := h
    obtain ⟨before, behind, hsplit⟩ := List.append_of_mem hm
    exact ⟨p, before, m, behind, hp, htest, hfind, hsplit⟩
  · cases h

/-- A constant beside a loop and a function that assigns to another variable. -/
theorem const_kept_beside_loop :
    ∃ p before m behind,
      parse? "const n = 2; let s = 0; func f(k) { s += k; } for (let i = 0; i < n; i++) { f(i); }" =
        .ok p ∧
      programHistory {} p Session.start = before ++ m :: behind ∧
      m.constBound? = some ("n", Scopes.root) ∧
      Kept Scopes.root "n" (m :: behind) (Session.run {} p Session.start).2 := by
  have hfound : found
      "const n = 2; let s = 0; func f(k) { s += k; } for (let i = 0; i < n; i++) { f(i); }"
      (fun p => p.SparesConsts) (fun m => m.constBound? = some ("n", Scopes.root)) = true := by
    decide +kernel
  obtain ⟨p, before, m, behind, hp, hspares, hm, hsplit⟩ := exists_of_found hfound
  rw [decide_eq_true_iff] at hspares hm
  exact ⟨p, before, m, behind, hp, hsplit, hm, (const_kept hsplit hm).1 hspares⟩

/-- The value of an integer variable of the root scope. -/
def rootKey? (s : State) (name : String) : Option Key :=
  (s.store.scopes.getLocal? Scopes.root name).bind Value.key?

/-- The grammar accepts an assignment to a constant inside the declaration of another name. -/
theorem const_changed_in_initializer :
    ∃ p before m behind, parse? "const x = 1; let y = (x = 2); x" = .ok p ∧
      programHistory {} p Session.start = before ++ m :: behind ∧
      m.constBound? = some ("x", Scopes.root) ∧
      ¬ Kept Scopes.root "x" (m :: behind) (Session.run {} p Session.start).2 := by
  have hfound : found "const x = 1; let y = (x = 2); x"
      (fun p => rootKey? (Session.run {} p Session.start).2 "x" = some (.int 2))
      (fun m => m.constBound? = some ("x", Scopes.root) ∧ rootKey? m.state "x" = some (.int 1)) =
      true := by
    decide +kernel
  obtain ⟨p, before, m, behind, hp, hlast, hm, hsplit⟩ := exists_of_found hfound
  rw [decide_eq_true_iff] at hlast hm
  refine ⟨p, before, m, behind, hp, hsplit, hm.1, ?_⟩
  rintro ⟨v, hms, hend⟩
  have hfirst := hm.2
  rw [rootKey?, hms m (by simp)] at hfirst
  rw [rootKey?, hend, hfirst] at hlast
  cases hlast

end Eval

end Vorn
