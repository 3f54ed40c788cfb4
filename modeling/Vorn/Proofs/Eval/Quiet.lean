import Vorn.Proofs.Eval.Contract

/-!
# Quiet scripts

`Step.Quietly` is `Step.Good` for scripts that are quiet as a whole and leave a store that the
contract holds of. The rules below put quiet scripts together; `Run.Steady` is for runs that leave
the store as it is.
-/

namespace Vorn

/-! ## Runs that leave the store as it is -/

namespace Run

variable {α β : Type}

def Steady (m : Run α) : Prop := ∀ s, (Ending.state (m s)).store = s.store

namespace Steady

theorem pure (a : α) : Steady (Pure.pure a : Run α) := fun _ => rfl

theorem fault (pos : Pos) (cause : Cause) : Steady (Run.fault pos cause : Run α) := fun _ => rfl

theorem bind {m : Run α} {f : α → Run β} (hm : Steady m) (hf : ∀ a, Steady (f a)) :
    Steady (m >>= f) := by
  intro s
  have h := hm s
  rw [run_bind]
  cases hrun : m s with
  | ok a s' =>
    rw [hrun] at h
    exact (hf a s').trans h
  | error stop s' =>
    rw [hrun] at h
    exact h

/-- A check in front of the rest. -/
theorem check {c : Prop} [Decidable c] {m : Run Unit} {k : Unit → Run α} (hm : Steady m)
    (hk : ∀ u, Steady (k u)) : Steady (if c then m >>= k else k ()) := by
  split
  · exact bind hm hk
  · exact hk ()

theorem mapM {f : α → Run β} (hf : ∀ a, Steady (f a)) : ∀ xs : List α, Steady (xs.mapM f)
  | [] => by
    rw [List.mapM_nil]
    exact pure _
  | x :: xs => by
    rw [List.mapM_cons]
    exact bind (hf x) fun _ => bind (mapM hf xs) fun _ => pure _

end Steady

theorem steady_store : Steady store := fun _ => rfl

theorem steady_elements (r : ArrayRef) : Steady (elements r) := fun _ => rfl

theorem steady_inspect (v : Value) : Steady (inspect v) := by
  refine .bind steady_store fun s => ?_
  cases s.inspect? v <;> exact fun _ => rfl

theorem steady_trace {settings : Settings} {level : Nat} {line : Run String} (h : Steady line) :
    Steady (trace settings level line) := by
  unfold trace
  split
  · exact .bind h fun _ _ => rfl
  · exact .pure _

theorem steady_toBool? (v : Value) : Steady (toBool? v) := by
  unfold toBool?
  split
  case h_6 r _ => exact .bind (steady_elements r) fun _ => .pure _
  case h_7 => exact .bind steady_store fun _ => .pure _
  all_goals exact .pure _

end Run

theorem ArrayMethod.steady_checkCallback (m : ArrayMethod) (f : Value) (least : Nat) :
    Run.Steady (checkCallback m f least) := by
  unfold checkCallback
  split
  · split
    · exact .fault _ _
    · exact .pure _
  · exact .pure _
  · exact .fault _ _

/-- A run in front that leaves the store as it is. -/
theorem Step.Good.steady_bind {C : Contract} {α β : Type} {post : β → C.World → Store → Prop}
    {w : C.World} {s : State} {m : Run α} {f : α → Script β} (hs : C.Holds w s.store)
    (hm : m.Steady)
    (hf : ∀ a s', m s = .ok a s' → s'.store = s.store → C.Holds w s'.store →
      (f a s').Good C post w) : ((liftM m >>= f) s).Good C post w := by
  have h := hm s
  rw [Script.run_bind, Script.run_lift]
  cases hrun : m s with
  | ok a s' =>
    rw [hrun] at h
    exact hf a s' hrun h (by rw [show s'.store = s.store from h]; exact hs)
  | error stop s' =>
    rw [hrun] at h
    exact ⟨w, C.le_refl w, by rw [show s'.store = s.store from h]; exact hs⟩

/-! ## Quiet scripts -/

/-- The steps are good and, as a whole, quiet. -/
def Step.Quietly {α : Type} (C : Contract) (post : α → C.World → Store → Prop) (w : C.World)
    (m : Step α) : Prop :=
  m.Good C (fun a w' s => (C.Quiet w w' ∧ C.Holds w' s) ∧ post a w' s) w

namespace Step.Quietly

variable {C : Contract} {α β : Type} {post : α → C.World → Store → Prop}
  {post' : β → C.World → Store → Prop} {w : C.World} {s : State}

theorem pure {a : α} (hs : C.Holds w s.store) (h : post a w s.store) :
    ((Pure.pure a : Script α) s).Quietly C post w :=
  ⟨w, C.le_refl w, ⟨C.quiet_refl w, hs⟩, h⟩

theorem bind {m : Script α} {f : α → Script β} (hm : (m s).Quietly C post w)
    (hf : ∀ a w' s', C.Quiet w w' → C.Holds w' s'.store → post a w' s'.store →
      (f a s').Quietly C post' w') : ((m >>= f) s).Quietly C post' w := by
  refine Step.Good.bind (fun a w' s' _ ⟨⟨hquiet, hs'⟩, ha⟩ => ?_) (C.le_refl w) hm
  refine Step.Good.weaken (hf a w' s' hquiet hs' ha) ?_
  exact fun b w'' s'' _ ⟨⟨hquiet', hs''⟩, hb⟩ => ⟨⟨C.quiet_trans hquiet hquiet', hs''⟩, hb⟩

theorem weaken {post₁ : α → C.World → Store → Prop} {m : Step α} (hm : m.Quietly C post w)
    (h : ∀ a w' s, C.Quiet w w' → post a w' s → post₁ a w' s) : m.Quietly C post₁ w :=
  Step.Good.weaken hm fun a w' s _ ⟨hw, ha⟩ => ⟨hw, h a w' s hw.1 ha⟩

/-- A script may start in a later world. -/
theorem of_quiet {w' : C.World} {m : Step α} (hw : C.Quiet w w') (h : m.Quietly C post w') :
    m.Quietly C post w :=
  Step.Good.weaken (Step.Good.of_le (C.le_of_quiet hw) h)
    fun _ _ _ _ ⟨⟨hw', hs'⟩, ha⟩ => ⟨⟨C.quiet_trans hw hw', hs'⟩, ha⟩

/-- A run that leaves the scopes alone. -/
theorem lift {m : Run α} {p : α → Prop} (hs : C.Holds w s.store) (hm : m.Keeps (C.law w) p) :
    ((liftM m : Script α) s).Quietly C (fun a _ _ => p a) w := by
  have h := hm s hs.admits
  rw [Script.run_lift]
  cases hrun : m s with
  | ok a s' =>
    rw [hrun] at h
    exact ⟨w, C.le_refl w, ⟨C.quiet_refl w, hs.kept h.1⟩, h.2⟩
  | error stop s' =>
    rw [hrun] at h
    exact ⟨w, C.le_refl w, hs.kept h⟩

theorem lift_sized {m : Run α} {p : α → Prop} (hs : C.Holds w s.store)
    (hsized : C.ints.Sized s.store) (hm : m.KeepsSized (C.law w) p) :
    ((liftM m : Script α) s).Quietly C (fun a _ _ => p a) w := by
  have h := hm s hs.admits hsized
  rw [Script.run_lift]
  cases hrun : m s with
  | ok a s' =>
    rw [hrun] at h
    exact ⟨w, C.le_refl w, ⟨C.quiet_refl w, hs.kept h.1⟩, h.2⟩
  | error stop s' =>
    rw [hrun] at h
    exact ⟨w, C.le_refl w, hs.kept h⟩

/-- A run that leaves the scopes alone and gives an admitted value. -/
theorem lift_admits {m : Run Value} (hs : C.Holds w s.store)
    (hm : m.Keeps (C.law w) (C.law w).Admits) :
    ((liftM m : Script Value) s).Quietly C (fun v w' _ => (C.law w').Admits v) w :=
  (lift hs hm).weaken fun _ _ _ hw hv => C.admits_mono (C.le_of_quiet hw) hv

theorem fault (hs : C.Holds w s.store) (pos : Pos) (cause : Cause) :
    ((liftM (Run.fault pos cause : Run α) : Script α) s).Quietly C post w :=
  ⟨w, C.le_refl w, hs⟩

/-- A run in front that leaves the scopes alone. -/
theorem lift_bind {m : Run α} {f : α → Script β} {p : α → Prop} (hs : C.Holds w s.store)
    (hm : m.Keeps (C.law w) p)
    (hf : ∀ a s', m s = .ok a s' → C.Holds w s'.store → p a → (f a s').Quietly C post' w) :
    ((liftM m >>= f) s).Quietly C post' w := by
  have h := hm s hs.admits
  rw [Script.run_bind, Script.run_lift]
  cases hrun : m s with
  | ok a s' =>
    rw [hrun] at h
    exact hf a s' hrun (hs.kept h.1) h.2
  | error stop s' =>
    rw [hrun] at h
    exact ⟨w, C.le_refl w, hs.kept h⟩

/-- A run in front that leaves the store as it is. -/
theorem steady_bind {m : Run α} {f : α → Script β} (hs : C.Holds w s.store) (hm : m.Steady)
    (hf : ∀ a s', s'.store = s.store → C.Holds w s'.store → (f a s').Quietly C post' w) :
    ((liftM m >>= f) s).Quietly C post' w :=
  Step.Good.steady_bind hs hm fun a s' _ heq hs' => hf a s' heq hs'

/-- Handing out a task that is no statement. -/
theorem ask {t : Task} (hs : C.Holds w s.store) (ht : C.Needs w t)
    (hquiet : ∀ w', C.Leaves w t w' → C.Quiet w w') :
    (Script.ask t s).Quietly C
      (fun v w' s' => (C.law w').Yields t v ∧ C.ints.Sized s' ∧ C.ints.Fits v) w :=
  ⟨w, C.le_refl w, hs, ht, fun _ w' _ _ hs' hgives hassumed =>
    ⟨w', C.le_refl w', ⟨hquiet w' hgives.leaves, hs'⟩, hgives.yields, C.sizes hassumed⟩⟩

theorem ite {c : Prop} [Decidable c] {m₁ m₂ : Script α} (h₁ : c → (m₁ s).Quietly C post w)
    (h₂ : ¬ c → (m₂ s).Quietly C post w) : ((if c then m₁ else m₂) s).Quietly C post w := by
  split
  · exact h₁ ‹_›
  · exact h₂ ‹_›

/-- A check in front of the rest that can only fail. -/
theorem check {c : Prop} [Decidable c] {pos : Pos} {cause : Cause} {k : Unit → Script α}
    (hs : C.Holds w s.store) (hk : ¬ c → (k () s).Quietly C post w) :
    ((if c then (liftM (Run.fault pos cause : Run Unit) : Script Unit) >>= k else k ()) s).Quietly
      C post w :=
  ite (fun _ => ⟨w, C.le_refl w, hs⟩) hk

/-- The same check the other way round. -/
theorem demand {c : Prop} [Decidable c] {pos : Pos} {cause : Cause} {k : Unit → Script α}
    (hs : C.Holds w s.store) (hk : (k () s).Quietly C post w) :
    ((if c then k () else (liftM (Run.fault pos cause : Run Unit) : Script Unit) >>= k) s).Quietly
      C post w :=
  ite (fun _ => hk) fun _ => ⟨w, C.le_refl w, hs⟩

/-! ## Walking and sorting -/

/-- Walking over an array keeps what each visit keeps. -/
theorem walk {r : ArrayRef} {visit : β → Nat → Value → Script (ForInStep β)}
    {I : β → C.World → Prop}
    (hvisit : ∀ b (i : Nat) v w s, C.Holds w s.store → C.ints.Holds i → (C.law w).Admits v →
      I b w →
      (visit b i v s).Quietly C (fun step w' s' => C.ints.Sized s' ∧
        match step with
        | .done b => I b w'
        | .yield b => I b w') w) :
    ∀ {fuel index : Nat} {b : β} {w : C.World} {s : State}, C.Holds w s.store →
      C.ints.Sized s.store → I b w →
      (Script.walk r visit fuel index b s).Quietly C (fun b w' _ => I b w') w
  | 0, _, _, w, _, hs, _, _ => ⟨w, C.le_refl w, hs⟩
  | fuel + 1, index, b, w, s, hs, hsized, hb => by
    rw [Script.walk, Script.run_elements_bind]
    cases helement : (s.store.array r)[index]? with
    | none => exact pure hs hb
    | some v =>
      obtain ⟨hindex, hv⟩ := Array.getElem?_eq_some_iff.mp helement
      have hi := hsized.array r (Nat.le_of_lt hindex)
      have hadmits : (C.law w).Admits v := hs.admits.array r v (Array.mem_of_getElem? helement)
      refine bind (hvisit b index v w s hs hi hadmits hb) fun step w' s' _ hs' hvisited => ?_
      obtain ⟨hsized', hstep⟩ := hvisited
      cases step with
      | done b => exact pure hs' hstep
      | yield b => exact walk hvisit hs' hsized' hstep

section Order

variable {less : Value → Value → Script Bool} {p : Value → Prop} {w₀ : C.World}
  (hless : ∀ x y w s, p x → p y → C.Quiet w₀ w → C.Holds w s.store →
    (less x y s).Quietly C (fun _ _ _ => True) w)
include hless

theorem run {done : List Value} {last : Value} {rest : List Value} {w : C.World} {s : State}
    (hw : C.Quiet w₀ w) (hs : C.Holds w s.store) (hdone : ∀ x ∈ done, p x) (hlast : p last)
    (hrest : ∀ x ∈ rest, p x) :
    (Order.run less done last rest s).Quietly C
      (fun r _ _ => (∀ x ∈ r.1, p x) ∧ ∀ x ∈ r.2, p x) w := by
  induction rest generalizing done last w s with
  | nil => exact pure hs ⟨List.forall_mem_cons.mpr ⟨hlast, hdone⟩, by simp⟩
  | cons x rest ih =>
    have hdone' : ∀ y ∈ last :: done, p y := List.forall_mem_cons.mpr ⟨hlast, hdone⟩
    obtain ⟨hx, hrest'⟩ := List.forall_mem_cons.mp hrest
    rw [Order.run]
    refine bind (hless x last w s hx hlast hw hs) fun b w' s' hw' hs' _ => ite (fun _ => ?_) fun _ => ?_
    · exact ih (C.quiet_trans hw hw') hs' hdone' hx hrest'
    · exact pure hs' ⟨hdone', hrest⟩

theorem place {sorted : Array Value} {x : Value} {low high : Nat} {w : C.World} {s : State}
    (hw : C.Quiet w₀ w) (hs : C.Holds w s.store) (hsorted : ∀ y ∈ sorted, p y) (hx : p x) :
    (Order.place less sorted x low high s).Quietly C (fun _ _ _ => True) w := by
  fun_induction Order.place less sorted x low high generalizing w s with
  | case1 => exact pure hs trivial
  | case2 _ _ _ middle y hy ihLow =>
    rename_i ihHigh
    refine bind (hless x y w s hx (hsorted y (Array.mem_of_getElem? hy)) hw hs)
      fun b w' s' hw' hs' _ => ite (fun _ => ?_) fun _ => ?_
    · exact ihLow (C.quiet_trans hw hw') hs'
    · exact ihHigh (C.quiet_trans hw hw') hs'
  | case3 => exact pure hs trivial

theorem insertAll {sorted : Array Value} {xs : List Value} {w : C.World} {s : State}
    (hw : C.Quiet w₀ w) (hs : C.Holds w s.store) (hsorted : ∀ y ∈ sorted, p y)
    (hxs : ∀ x ∈ xs, p x) :
    (Order.insertAll less sorted xs s).Quietly C (fun ys _ _ => ∀ y ∈ ys, p y) w := by
  induction xs generalizing sorted w s with
  | nil => exact pure hs hsorted
  | cons x xs ih =>
    obtain ⟨hx, hxs'⟩ := List.forall_mem_cons.mp hxs
    rw [Order.insertAll]
    refine bind (place hless hw hs hsorted hx) fun i w' s' hw' hs' _ => ?_
    refine ih (C.quiet_trans hw hw') hs' (fun y hy => ?_) hxs'
    unfold Array.insertIdxIfInBounds at hy
    split at hy
    · rcases Array.mem_insertIdx.mp hy with rfl | hy
      · exact hx
      · exact hsorted y hy
    · exact hsorted y hy

theorem sort {xs : List Value} {w : C.World} {s : State} (hw : C.Quiet w₀ w)
    (hs : C.Holds w s.store) (hxs : ∀ x ∈ xs, p x) :
    (Order.sort less xs s).Quietly C (fun ys _ _ => ∀ y ∈ ys, p y) w := by
  match xs with
  | [] => exact pure hs (by simp)
  | [x] => exact pure hs (by simpa using hxs)
  | x :: y :: rest =>
    obtain ⟨hx, hxs⟩ := List.forall_mem_cons.mp hxs
    obtain ⟨hy, hrest⟩ := List.forall_mem_cons.mp hxs
    have hnot : ∀ x y w s, p x → p y → C.Quiet w₀ w → C.Holds w s.store →
        ((do return !(← less x y) : Script Bool) s).Quietly C (fun _ _ _ => True) w :=
      fun x y w s hx hy hw hs => bind (hless x y w s hx hy hw hs) fun _ _ _ _ hs' _ =>
        pure hs' trivial
    rw [Order.sort]
    refine bind (hless y x w s hy hx hw hs) fun b w' s' hw' hs' _ => ite (fun _ => ?_) fun _ => ?_
    · refine bind (run hless (C.quiet_trans hw hw') hs' (by simpa using hx) hy hrest)
        fun r w'' s'' hw'' hs'' hr => ?_
      exact insertAll hless (C.quiet_trans hw (C.quiet_trans hw' hw'')) hs''
        (by simpa using hr.1) hr.2
    · refine bind (run hnot (C.quiet_trans hw hw') hs' (by simpa using hx) hy hrest)
        fun r w'' s'' hw'' hs'' hr => ?_
      exact insertAll hless (C.quiet_trans hw (C.quiet_trans hw' hw'')) hs''
        (by simpa using hr.1) hr.2

theorem sortDescending {xs : List Value} {w : C.World} {s : State} (hw : C.Quiet w₀ w)
    (hs : C.Holds w s.store) (hxs : ∀ x ∈ xs, p x) :
    (Order.sortDescending less xs s).Quietly C (fun ys _ _ => ∀ y ∈ ys, p y) w :=
  bind (sort hless hw hs (by simpa using hxs)) fun _ _ _ _ hs' hys => pure hs' (by simpa using hys)

end Order

end Step.Quietly

end Vorn
