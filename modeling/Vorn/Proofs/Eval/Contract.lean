import Vorn.Proofs.Eval.History
import Vorn.Proofs.Eval.Plain
import Vorn.Proofs.Eval.Strict

/-!
# Contracts

A contract says what holds of the store at every moment of a run and what a task may count on. What
is known beyond the store stands in a world; worlds grow along a run. A quiet step of a run does not
change what is known about the scopes that were there before it: all tasks but statements are quiet.

`Step.Good` is the weakest precondition of a script under a contract: each task that the script
hands out gets what it needs, and the script may count on what the task leaves. `Contract.Along`
says that the moments of a history hold at growing worlds, and `Contract.Valid.does` that they do
if the script of every task is good.
-/

namespace Vorn

namespace Ints

/-- The lengths of the arrays at the moment, and of the texts that a call or a result hands over. -/
def Sizes (I : Ints) : Moment → Prop
  | .started (.apply _ _ args) s => I.Sized s.store ∧ ∀ v ∈ args, I.Fits v
  | .started _ s => I.Sized s.store
  | .finished _ (.ok v s) => I.Sized s.store ∧ I.Fits v
  | .finished _ (.error _ _) => True

theorem sizes_all : ∀ m : Moment, all.Sizes m
  | .started (.apply _ _ _) _ => ⟨fun _ _ _ _ => trivial, fun v _ => by cases v <;> trivial⟩
  | .started (.expr _ _) _ | .started (.stmt _ _) _ | .started (.block _ _) _ =>
    fun _ _ _ _ => trivial
  | .finished _ (.ok v _) => ⟨fun _ _ _ _ => trivial, by cases v <;> trivial⟩
  | .finished _ (.error _ _) => trivial

theorem Sizes.sized {I : Ints} {t : Task} {s : State} (h : I.Sizes (.started t s)) :
    I.Sized s.store := by
  cases t with
  | apply => exact h.1
  | _ => exact h

end Ints

/-- What holds along the runs of programs. -/
structure Contract where
  World : Type
  /-- More is known in the second world. -/
  Le : World → World → Prop
  /-- The same is known about the scopes of the first world. -/
  Quiet : World → World → Prop
  quiet_refl : ∀ w, Quiet w w
  quiet_trans : ∀ {w₁ w₂ w₃}, Quiet w₁ w₂ → Quiet w₂ w₃ → Quiet w₁ w₃
  le_of_quiet : ∀ {w w'}, Quiet w w' → Le w w'
  le_trans : ∀ {w₁ w₂ w₃}, Le w₁ w₂ → Le w₂ w₃ → Le w₁ w₃
  /-- The integers that may occur. -/
  ints : Ints
  /-- The functions that may occur. -/
  Function : World → Closure → Prop
  function_mono : ∀ {w w' c}, Le w w' → Function w c → Function w' c
  /-- Whether signals may be data. -/
  Signals : Prop := True
  /-- What holds of the scopes. -/
  Scoped : World → Scopes Value → Prop
  /-- What the evaluation of an expression in a scope needs. -/
  Expr : World → Vorn.Expr → ScopeRef → Prop
  /-- What a statement in a scope needs. -/
  Stmt : World → Vorn.Stmt → ScopeRef → Prop
  /-- What a block inside a scope needs. -/
  Block : World → Vorn.Block → ScopeRef → Prop
  /-- What a statement leaves behind. -/
  Ran : World → Vorn.Stmt → ScopeRef → World → Prop
  /-- What is taken for granted at the moments of a run. -/
  Assumed : Moment → Prop
  sizes : ∀ {m}, Assumed m → ints.Sizes m

namespace Contract

variable (C : Contract)

/-- The law on values in a world. -/
def law (w : C.World) : Law := ⟨C.ints, C.Function w, C.Signals⟩

/-- What holds of the store. -/
structure Holds (w : C.World) (s : Store) : Prop where
  admits : (C.law w).AdmitsStore s
  scopes : C.Scoped w s.scopes

/-- What a task needs. -/
def Needs (w : C.World) : Task → Prop
  | .expr e r => C.Expr w e r
  | .stmt s r => C.Stmt w s r
  | .block b r => C.Block w b r
  | .apply _ f args => (C.law w).Admits f ∧ ∀ v ∈ args, (C.law w).Admits v

/-- What a task leaves behind: every task but a statement is quiet. -/
def Leaves (w : C.World) : Task → C.World → Prop
  | .stmt s r => C.Ran w s r
  | _ => C.Quiet w

/-- What the end of a task with a value brings. -/
structure Gives (w : C.World) (t : Task) (v : Value) (w' : C.World) : Prop where
  yields : (C.law w').Yields t v
  leaves : C.Leaves w t w'

/-- What is true at a moment. -/
def At (w : C.World) : Moment → Prop
  | .started t s => C.Holds w s.store ∧ C.Needs w t
  | .finished t (.ok v s) => C.Holds w s.store ∧ ∃ w₀, C.Le w₀ w ∧ C.Needs w₀ t ∧ C.Gives w₀ t v w
  | .finished _ (.error _ s) => C.Holds w s.store

/-- Every moment is true in a world, and worlds grow from one moment to the next. -/
inductive Along : C.World → List Moment → C.World → Prop where
  | nil {w w' : C.World} (h : C.Le w w') : Along w [] w'
  | cons {w w₁ w' : C.World} {m : Moment} {ms : List Moment} (h : C.Le w w₁) (hm : C.At w₁ m)
      (rest : Along w₁ ms w') : Along w (m :: ms) w'

variable {C}

theorem le_refl (w : C.World) : C.Le w w := C.le_of_quiet (C.quiet_refl w)

theorem law_le {w w' : C.World} (h : C.Le w w') : (C.law w).Le (C.law w') :=
  ⟨rfl, fun _ => C.function_mono h, fun h => h⟩

theorem admits_mono {w w' : C.World} (h : C.Le w w') {v : Value} (hv : (C.law w).Admits v) :
    (C.law w').Admits v :=
  hv.mono (law_le h)

theorem admitsStore_mono {w w' : C.World} (h : C.Le w w') {s : Store}
    (hs : (C.law w).AdmitsStore s) : (C.law w').AdmitsStore s :=
  hs.mono (law_le h)

/-- A run that leaves the scopes alone. -/
theorem Holds.kept {w : C.World} {s s' : Store} (h : C.Holds w s)
    (hs' : (C.law w).AdmitsStore s' ∧ s'.scopes = s.scopes) : C.Holds w s' :=
  ⟨hs'.1, by rw [hs'.2]; exact h.scopes⟩

theorem At.holds {w : C.World} : ∀ {m : Moment}, C.At w m → C.Holds w m.state.store
  | .started _ _, h => h.1
  | .finished _ (.ok _ _), h => h.1
  | .finished _ (.error _ _), h => h

namespace Along

theorem of_le {w₀ w w' : C.World} (h : C.Le w₀ w) :
    ∀ {ms : List Moment}, C.Along w ms w' → C.Along w₀ ms w'
  | _, .nil h' => .nil (C.le_trans h h')
  | _, .cons h' hm rest => .cons (C.le_trans h h') hm rest

theorem append {ms ms' : List Moment} {w w₁ w' : C.World} (h : C.Along w ms w₁)
    (h' : C.Along w₁ ms' w') : C.Along w (ms ++ ms') w' := by
  induction h with
  | nil h => exact h'.of_le h
  | cons h hm _ ih => exact .cons h hm (ih h')

theorem trans_le {ms : List Moment} {w w₁ w' : C.World} (h : C.Along w ms w₁) (hle : C.Le w₁ w') :
    C.Along w ms w' := by
  have := h.append (.nil hle)
  rwa [List.append_nil] at this

theorem le {ms : List Moment} {w w' : C.World} (h : C.Along w ms w') : C.Le w w' := by
  induction h with
  | nil h => exact h
  | cons h _ _ ih => exact C.le_trans h ih

theorem at_of_mem {ms : List Moment} {w w' : C.World} (h : C.Along w ms w') {m : Moment}
    (hm : m ∈ ms) : ∃ w₁, C.Le w w₁ ∧ C.Le w₁ w' ∧ C.At w₁ m := by
  induction h with
  | nil => cases hm
  | cons h hat rest ih =>
    rcases List.mem_cons.mp hm with rfl | hm
    · exact ⟨_, h, rest.le, hat⟩
    · obtain ⟨w₁, hle, hle', hat⟩ := ih hm
      exact ⟨w₁, C.le_trans h hle, hle', hat⟩

theorem split {ms ms' : List Moment} {w w' : C.World} (h : C.Along w (ms ++ ms') w') :
    ∃ w₁, C.Along w ms w₁ ∧ C.Along w₁ ms' w' := by
  induction ms generalizing w with
  | nil => exact ⟨w, .nil (le_refl w), h⟩
  | cons m ms ih =>
    cases h with
    | cons hle hm rest =>
      obtain ⟨w₁, h₁, h₂⟩ := ih rest
      exact ⟨w₁, .cons hle hm h₁, h₂⟩

end Along

end Contract

/-! ## Scripts -/

/-- How a script may end, in some later world. -/
def Ending.Good {α : Type} (C : Contract) (post : α → C.World → Store → Prop) (w : C.World) :
    Ending α → Prop
  | .ok a s => ∃ w', C.Le w w' ∧ post a w' s.store
  | .error _ s => ∃ w', C.Le w w' ∧ C.Holds w' s.store

/-- The steps keep to the contract, and a result satisfies `post`. -/
def Step.Good {α : Type} (C : Contract) (post : α → C.World → Store → Prop) :
    C.World → Step α → Prop
  | w, done ending => ending.Good C post w
  | w, ask t s resume =>
    ∃ w₁, C.Le w w₁ ∧ C.Holds w₁ s.store ∧ C.Needs w₁ t ∧
      ∀ v w₂ s', C.Le w₁ w₂ → C.Holds w₂ s'.store → C.Gives w₁ t v w₂ →
        C.Assumed (.finished t (.ok v s')) → (resume (.ok v s')).Good C post w₂

namespace Step.Good

variable {C : Contract} {α β : Type} {post : α → C.World → Store → Prop}
  {post' : β → C.World → Store → Prop} {w w' : C.World}

theorem of_le (h : C.Le w w') : ∀ {m : Step α}, m.Good C post w' → m.Good C post w
  | .done (.ok _ _), ⟨w₁, h₁, hpost⟩ => ⟨w₁, C.le_trans h h₁, hpost⟩
  | .done (.error _ _), ⟨w₁, h₁, hholds⟩ => ⟨w₁, C.le_trans h h₁, hholds⟩
  | .ask _ _ _, ⟨w₁, h₁, hask⟩ => ⟨w₁, C.le_trans h h₁, hask⟩

theorem weaken {post₁ : α → C.World → Store → Prop} :
    ∀ {m : Step α} {w : C.World}, m.Good C post w →
      (∀ a w' s, C.Le w w' → post a w' s → post₁ a w' s) → m.Good C post₁ w
  | .done (.ok a s), _, ⟨w', hle, hpost⟩, h => ⟨w', hle, h a w' s.store hle hpost⟩
  | .done (.error _ _), _, hend, _ => hend
  | .ask _ _ _, _, ⟨w₁, hle, hholds, hneeds, hresume⟩, h =>
    ⟨w₁, hle, hholds, hneeds, fun v w₂ s' hle' hs' hgives hassumed =>
      (hresume v w₂ s' hle' hs' hgives hassumed).weaken fun a w' s hle'' hpost =>
        h a w' s (C.le_trans hle (C.le_trans hle' hle'')) hpost⟩

theorem bind {f : α → State → Step β}
    (hf : ∀ a w' s, C.Le w w' → post a w' s.store → (f a s).Good C post' w') :
    ∀ {w₀ : C.World} {m : Step α}, C.Le w w₀ → m.Good C post w₀ → (m.bind f).Good C post' w₀
  | _, .done (.ok a s), h₀, ⟨w', hle, hpost⟩ => (hf a w' s (C.le_trans h₀ hle) hpost).of_le hle
  | _, .done (.error _ _), _, ⟨w', hle, hholds⟩ => ⟨w', hle, hholds⟩
  | _, .ask _ _ _, h₀, ⟨w₁, hle, hholds, hneeds, hresume⟩ =>
    ⟨w₁, hle, hholds, hneeds, fun v w₂ s' hle' hs' hgives hassumed =>
      (hresume v w₂ s' hle' hs' hgives hassumed).bind hf
        (C.le_trans h₀ (C.le_trans hle hle'))⟩

end Step.Good

namespace Contract

variable {C : Contract} {α : Type}

/-- A way to do tasks, with their moments, that keeps to the contract. -/
def Does (C : Contract) (go : Task → Run Value) (tell : Task → State → List Moment) : Prop :=
  ∀ t s w, C.Holds w s.store → C.Needs w t → (∀ m ∈ tell t s, C.Assumed m) →
    ∃ w', C.Along w (tell t s) w' ∧
      match go t s with
      | .ok v s' => C.Holds w' s'.store ∧ C.Gives w t v w' ∧
          C.Assumed (.finished t (.ok v s'))
      | .error _ s' => C.Holds w' s'.store

/-- **Playing a good script keeps to the contract.** -/
theorem Does.play {go : Task → Run Value} {tell : Task → State → List Moment}
    (hgo : C.Does go tell) {post : α → C.World → Store → Prop} :
    ∀ {m : Step α} {w : C.World}, m.Strict → m.Good C post w →
      (∀ mo ∈ m.history go tell, C.Assumed mo) →
      ∃ w', C.Along w (m.history go tell) w' ∧ (m.play go).Good C post w'
  | .done _, w, _, hgood, _ => ⟨w, .nil (le_refl w), hgood⟩
  | .ask t s resume, w, ⟨hstop, hok⟩, ⟨w₁, hle, hholds, hneeds, hresume⟩, hassumed => by
    rw [Step.history, List.forall_mem_append] at hassumed
    obtain ⟨w₂, halong, hend⟩ := hgo t s w₁ hholds hneeds hassumed.1
    rw [Step.history, Step.play]
    cases hrun : go t s with
    | ok v s' =>
      rw [hrun] at hend hassumed
      obtain ⟨hs', hgives, hfinish⟩ := hend
      obtain ⟨w', halong', hplay⟩ := hgo.play (hok v s')
        (hresume v w₂ s' halong.le hs' hgives hfinish) hassumed.2
      exact ⟨w', (halong.of_le hle).append halong', hplay⟩
    | error stop s' =>
      -- The script ends here, in the state in which the task stopped.
      rw [hrun] at hend
      obtain ⟨stop', hresume, -⟩ := hstop stop s'
      rw [hresume, Step.history, Step.play, List.append_nil]
      exact ⟨w₂, halong.of_le hle, w₂, le_refl w₂, hend⟩

/-- The script of every task keeps to the contract. -/
def Valid (C : Contract) (settings : Settings) : Prop :=
  ∀ t w s, C.Holds w s.store → C.Needs w t → C.Assumed (.started t s) →
    (Eval.runTask settings t s).Good C (fun v w' s' => C.Holds w' s' ∧ C.Gives w t v w') w

/-- **Evaluation keeps to a valid contract, at every moment of its history.** -/
theorem Valid.does {settings : Settings} (h : C.Valid settings) :
    ∀ depth, C.Does (Eval.eval settings depth) (Eval.history settings depth)
  | 0, t, s, w, hs, hneeds, _ =>
    ⟨w, .cons (le_refl w) ⟨hs, hneeds⟩ (.cons (le_refl w) hs (.nil (le_refl w))), hs⟩
  | depth + 1, t, s, w, hs, hneeds, hassumed => by
    rw [Eval.history, List.forall_mem_cons, List.forall_mem_append] at hassumed
    obtain ⟨hstart, hinner, hfinish⟩ := hassumed
    obtain ⟨w₁, halong, hend⟩ :=
      (h.does depth).play (Eval.strict_runTask t s) (h t w s hs hneeds hstart) hinner
    have hfinish := hfinish _ (List.mem_singleton.mpr rfl)
    rw [Eval.history]
    rw [Eval.eval, Script.perform] at hfinish ⊢
    cases hrun : (Eval.runTask settings t s).play (Eval.eval settings depth) with
    | ok v s' =>
      rw [hrun] at hend hfinish
      obtain ⟨w', hle, hs', hgives⟩ := hend
      have hlast : C.At w' (.finished t (.ok v s')) :=
        ⟨hs', w, C.le_trans halong.le hle, hneeds, hgives⟩
      exact ⟨w', .cons (le_refl w) ⟨hs, hneeds⟩ (halong.append (.cons hle hlast (.nil (le_refl w')))),
        hs', hgives, hfinish⟩
    | error stop s' =>
      rw [hrun] at hend
      obtain ⟨w', hle, hs'⟩ := hend
      exact ⟨w', .cons (le_refl w) ⟨hs, hneeds⟩ (halong.append (.cons hle hs' (.nil (le_refl w')))),
        hs'⟩

end Contract

end Vorn
