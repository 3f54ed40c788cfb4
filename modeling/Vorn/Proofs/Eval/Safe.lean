import Vorn.Proofs.Eval.Quiet
import Vorn.Proofs.Eval.Spec
import Vorn.Proofs.Eval.Values
import Vorn.Proofs.Store.Whole

/-!
# Runs that make no dangling references

A run is safe if from a whole store that owns the given values it leaves a whole store that owns
what the result gives, whether or not it ends with one (`Run.Safe`). What is given to the first part
of a run is still owned in the parts behind it, so each part may use it and whatever the parts
before it gave (`Run.Safe.bind`). A script is safe if besides it hands out only tasks about values
that are owned (`Script.Safe`); for the tasks themselves this is a specification (`owning`).

The rules put safe runs and safe scripts together, with walks over arrays and sorts among them.
-/

namespace Vorn

/-- A store that owns the first values owns the others. -/
def Store.Entails (given vs : List Value) : Prop :=
  ∀ s : Store, (∀ v ∈ given, s.Owns v) → ∀ v ∈ vs, s.Owns v

namespace Store.Entails

variable {given vs ws : List Value} {v : Value}

theorem of_subset (h : vs ⊆ given) : Entails given vs := fun _ hs v hv => hs v (h hv)

theorem nil : Entails given [] := .of_subset (List.nil_subset _)

theorem single (h : v ∈ given) : Entails given [v] := .of_subset (by simpa using h)

/-- What is neither an array nor a hash, nor wraps one. -/
theorem scalar (h : v.collection? .showing = none) : Entails given [v] := by
  rintro s - u hu
  obtain rfl := List.mem_singleton.mp hu
  exact .of_none h

/-- A signal refers to what the value in it refers to. -/
theorem returned_iff {id : Nat} {pos : Pos} :
    Entails given [.returned id v pos] ↔ Entails given [v] := by
  simp only [Entails, List.forall_mem_singleton]
  rfl

theorem of_returned {id : Nat} {pos : Pos} (h : .returned id v pos ∈ given) : Entails given [v] :=
  returned_iff.mp (single h)

theorem trans (h : Entails given vs) (h' : Entails vs ws) : Entails given ws :=
  fun s hs => h' s (h s hs)

theorem cons (hv : Entails given [v]) (hvs : Entails given vs) : Entails given (v :: vs) :=
  fun s hs => List.forall_mem_cons.mpr ⟨hv s hs v (List.mem_singleton_self v), hvs s hs⟩

theorem append (hvs : Entails given vs) (hws : Entails given ws) : Entails given (vs ++ ws) :=
  fun s hs => List.forall_mem_append.mpr ⟨hvs s hs, hws s hs⟩

end Store.Entails

open Store

/-! ## What is new -/

namespace Store.Whole

variable {s : Store} {vs : Array Value} {t : Table}

/-- A new array, with the place that it comes from. -/
theorem newArray_safe (h : s.Whole) (hvs : ∀ v ∈ vs, s.Owns v) (pos : Pos) :
    ((s.newArray vs).2.Whole ∧ s.Lasts (s.newArray vs).2) ∧
      ∀ v ∈ [Value.array (s.newArray vs).1 pos], (s.newArray vs).2.Owns v := by
  refine ⟨⟨h.newArray hvs, (Grows.newArray s vs).lasts⟩, List.forall_mem_singleton.mpr ?_⟩
  rintro c ⟨⟩
  simp [Has, Store.newArray]

theorem newTable_safe (h : s.Whole) (ht : t.WellFormed) (hvs : ∀ v ∈ t.held, s.Owns v) (pos : Pos) :
    ((s.newTable t).2.Whole ∧ s.Lasts (s.newTable t).2) ∧
      ∀ v ∈ [Value.hash (s.newTable t).1 pos], (s.newTable t).2.Owns v := by
  refine ⟨⟨h.newTable ht hvs, (Grows.newTable s t).lasts⟩, List.forall_mem_singleton.mpr ?_⟩
  rintro c ⟨⟩
  simp [Has, Store.newTable]

end Store.Whole

/-! ## Copies -/

namespace Store.Copy

variable {α β : Type} {given : List Value}

/-- What `Run.Safe` says, of a copy. -/
def Safe (given : List Value) (m : Copy α) (gives : α → List Value) : Prop :=
  ∀ s : Store, s.Whole → (∀ v ∈ given, s.Owns v) →
    ((m.run s).2.Whole ∧ s.Lasts (m.run s).2) ∧
      ∀ a ∈ (m.run s).1, ∀ v ∈ gives a, (m.run s).2.Owns v

namespace Safe

variable {gives : α → List Value} {gives' : β → List Value}

theorem pure {a : α} (h : Entails given (gives a)) : Copy.Safe given (Pure.pure a) gives := by
  refine fun s hs hgiven => ⟨⟨hs, .refl s⟩, fun b hb => ?_⟩
  cases hb
  exact h s hgiven

theorem failure : Copy.Safe given (failure : Copy α) gives :=
  fun s hs _ => ⟨⟨hs, .refl s⟩, fun _ hb => by cases hb⟩

theorem bind {m : Copy α} {f : α → Copy β} (hm : Copy.Safe given m gives)
    (hf : ∀ a, Copy.Safe (gives a ++ given) (f a) gives') : Copy.Safe given (m >>= f) gives' := by
  intro s hs hgiven
  have hfirst := hm s hs hgiven
  rw [run_bind]
  cases hrun : (m.run s : Option α × Store) with
  | mk o s' =>
    rw [hrun] at hfirst
    obtain ⟨⟨hs', hlasts⟩, ha⟩ := hfirst
    cases o with
    | none => exact ⟨⟨hs', hlasts⟩, fun _ hb => by cases hb⟩
    | some a =>
      have howned : ∀ v ∈ gives a ++ given, s'.Owns v :=
        List.forall_mem_append.mpr ⟨ha a rfl, fun v hv => (hgiven v hv).lasts hlasts⟩
      obtain ⟨⟨hs'', hlasts'⟩, hb⟩ := hf a s' hs' howned
      exact ⟨⟨hs'', hlasts.trans hlasts'⟩, hb⟩

theorem of_subset {given' : List Value} {m : Copy α} (h : given' ⊆ given)
    (hm : Copy.Safe given' m gives) : Copy.Safe given m gives :=
  fun s hs hgiven => hm s hs fun v hv => hgiven v (h hv)

theorem mapM {f : α → Copy β} {xs : List α} (h : ∀ x ∈ xs, Copy.Safe given (f x) gives') :
    Copy.Safe given (xs.mapM f) (List.flatMap gives') := by
  induction xs generalizing given with
  | nil =>
    rw [List.mapM_nil]
    exact pure .nil
  | cons x xs ih =>
    obtain ⟨hx, hxs⟩ := List.forall_mem_cons.mp h
    rw [List.mapM_cons]
    refine bind hx fun y => bind (ih fun x hx => ?_) fun ys => pure (.of_subset ?_)
    · exact (hxs x hx).of_subset (List.subset_append_right _ _)
    · rw [List.flatMap_cons]
      exact List.append_subset.mpr ⟨by simp, by simp⟩

/-- What is in the store may be used. -/
theorem get {f : Store → Copy β} (read : Store → List Value)
    (hread : ∀ s : Store, s.Whole → ∀ v ∈ read s, s.Owns v)
    (hf : ∀ s, Copy.Safe (read s ++ given) (f s) gives') :
    Copy.Safe given ((MonadState.get : Copy Store) >>= f) gives' := by
  intro s hs hgiven
  exact hf s s hs (List.forall_mem_append.mpr ⟨hread s hs, hgiven⟩)

theorem modifyGet {f : Store → α × Store}
    (h : ∀ s : Store, s.Whole → (∀ v ∈ given, s.Owns v) →
      ((f s).2.Whole ∧ s.Lasts (f s).2) ∧ ∀ v ∈ gives (f s).1, (f s).2.Owns v) :
    Copy.Safe given (MonadState.modifyGet f : Copy α) gives := by
  refine fun s hs hgiven => ⟨(h s hs hgiven).1, fun a ha => ?_⟩
  cases ha
  exact (h s hs hgiven).2

theorem newArray {vs : Array Value} (h : Entails given vs.toList) (pos : Pos) :
    Copy.Safe given (MonadState.modifyGet (·.newArray vs)) fun r => [.array r pos] :=
  modifyGet fun s hs hgiven =>
    hs.newArray_safe (fun v hv => h s hgiven v (Array.mem_toList_iff.mpr hv)) pos

theorem newTable {t : Table} (ht : t.WellFormed) (h : Entails given t.held) (pos : Pos) :
    Copy.Safe given (MonadState.modifyGet (·.newTable t)) fun r => [.hash r pos] :=
  modifyGet fun s hs hgiven => hs.newTable_safe ht (h s hgiven) pos

end Safe

variable {inner : Value → Copy Value} {pos : Pos} {v : Value}

theorem safe_copyOf {given : List Value} (hv : v ∈ given)
    (hinner : ∀ (u : Value) (given : List Value), u ∈ given → Copy.Safe given (inner u) ([·])) :
    Copy.Safe given (copyOf inner pos v) ([·]) := by
  unfold copyOf
  split
  case h_4 r _ =>
    refine Safe.get (fun s => (s.array r).toList)
      (fun s hs v hv => hs.owns_array r v (Array.mem_toList_iff.mp hv)) fun s => ?_
    refine Safe.bind (Safe.mapM fun u hu => hinner u _ (List.mem_append_left _ hu)) fun us => ?_
    exact Safe.bind (Safe.newArray (.of_subset (by simp)) pos) fun r => Safe.pure (.single (by simp))
  case h_5 r _ =>
    refine Safe.get (fun s => (s.table r).held) (fun s hs => hs.owns_held r) fun s => ?_
    have hcopy : ∀ e ∈ (s.table r).entries,
        Copy.Safe ((s.table r).held ++ given) (copyEntry inner pos e) fun e => [e.value] :=
      fun e he => Safe.bind (hinner e.value _ (List.mem_append_left _ (List.mem_map_of_mem he)))
        fun u => Safe.pure (.single (by simp))
    refine Safe.bind (Safe.mapM hcopy) fun es => ?_
    refine Safe.bind (Safe.newTable (Table.wellFormed_empty.foldl_insert es)
      (.of_subset fun u hu => ?_) pos) fun r => Safe.pure (.single (by simp))
    rcases Table.mem_held_foldl_insert hu with hu | hu
    · cases hu
    · obtain ⟨e, he, rfl⟩ := List.mem_map.mp hu
      exact List.mem_append_left _ (List.mem_flatMap.mpr ⟨e, he, by simp⟩)
  case h_6 => exact Safe.pure (.single hv)
  all_goals exact Safe.pure (.scalar rfl)

theorem safe_copyWithin (pos : Pos) : ∀ (depth : Nat) {v : Value} {given : List Value}, v ∈ given →
    Copy.Safe given (copyWithin pos depth v) ([·])
  | 0, _, _, hv => safe_copyOf hv fun _ _ _ => Safe.failure
  | depth + 1, _, _, hv => safe_copyOf hv fun _ _ hu => safe_copyWithin pos depth hu

end Store.Copy

/-! ## Runs -/

/-- Behind a run that started with the store `s`: the store is whole and has all that `s` has, and
it owns what a result gives. -/
def Ending.Safe {α : Type} (s : Store) (gives : α → List Value) : Ending α → Prop
  | .ok a s' => (s'.store.Whole ∧ s.Lasts s'.store) ∧ ∀ v ∈ gives a, s'.store.Owns v
  | .error _ s' => s'.store.Whole ∧ s.Lasts s'.store

theorem Ending.Safe.of_lasts {α : Type} {s t : Store} {gives : α → List Value} (h : s.Lasts t) :
    ∀ {ending : Ending α}, ending.Safe t gives → ending.Safe s gives
  | .ok _ _, ⟨⟨hwhole, hlasts⟩, hgives⟩ => ⟨⟨hwhole, h.trans hlasts⟩, hgives⟩
  | .error _ _, ⟨hwhole, hlasts⟩ => ⟨hwhole, h.trans hlasts⟩

namespace Run

variable {α β : Type} {given given' : List Value}

def Safe (given : List Value) (m : Run α) (gives : α → List Value) : Prop :=
  ∀ s : State, s.store.Whole → (∀ v ∈ given, s.store.Owns v) → Ending.Safe s.store gives (m s)

namespace Safe

variable {gives : α → List Value} {gives' : β → List Value} {m : Run α} {f : α → Run β}

theorem pure {a : α} (h : Entails given (gives a)) : Safe given (Pure.pure a) gives :=
  fun s hs hgiven => ⟨⟨hs, .refl _⟩, h s.store hgiven⟩

/-- A result without references. -/
theorem scalar {v : Value} (h : v.collection? .showing = none) :
    Safe given (Pure.pure v) ([·]) :=
  pure (.scalar h)

theorem throw (stop : Stop) : Safe given (MonadExcept.throw stop : Run α) gives :=
  fun _ hs _ => ⟨hs, .refl _⟩

theorem fault (pos : Pos) (cause : Cause) : Safe given (Run.fault pos cause : Run α) gives :=
  throw _

theorem bind (hm : Safe given m gives) (hf : ∀ a, Safe (gives a ++ given) (f a) gives') :
    Safe given (m >>= f) gives' := by
  intro s hs hgiven
  have h := hm s hs hgiven
  rw [run_bind]
  cases hrun : m s with
  | error stop s' =>
    rw [hrun] at h
    exact h
  | ok a s' =>
    rw [hrun] at h
    obtain ⟨⟨hs', hlasts⟩, ha⟩ := h
    refine Ending.Safe.of_lasts hlasts (hf a s' hs' ?_)
    exact List.forall_mem_append.mpr ⟨ha, fun v hv => (hgiven v hv).lasts hlasts⟩

/-- What follows uses nothing of the result. -/
theorem followed (hm : Safe given m fun _ => []) (hf : ∀ a, Safe given (f a) gives') :
    Safe given (m >>= f) gives' :=
  bind hm hf

theorem ite {c : Prop} [Decidable c] {m₁ m₂ : Run α} (h₁ : Safe given m₁ gives)
    (h₂ : Safe given m₂ gives) : Safe given (if c then m₁ else m₂) gives := by
  split
  · exact h₁
  · exact h₂

/-- A check in front of the rest. -/
theorem check {c : Prop} [Decidable c] {m : Run Unit} {k : Unit → Run α}
    (hm : Safe given m fun _ => []) (hk : ∀ u, Safe given (k u) gives) :
    Safe given (if c then m >>= k else k ()) gives :=
  ite (followed hm hk) (hk ())

theorem of_entails (h : Entails given given') (hm : Safe given' m gives) : Safe given m gives :=
  fun s hs hgiven => hm s hs (h s.store hgiven)

theorem mapM {f : α → Run β} {xs : List α} (h : ∀ x ∈ xs, Safe given (f x) gives') :
    Safe given (xs.mapM f) (List.flatMap gives') := by
  induction xs generalizing given with
  | nil =>
    rw [List.mapM_nil]
    exact pure .nil
  | cons x xs ih =>
    obtain ⟨hx, hxs⟩ := List.forall_mem_cons.mp h
    rw [List.mapM_cons]
    refine bind hx fun y => bind (ih fun x hx => ?_) fun ys => pure (.of_subset ?_)
    · exact (hxs x hx).of_entails (.of_subset (List.subset_append_right _ _))
    · rw [List.flatMap_cons]
      exact List.append_subset.mpr ⟨by simp, by simp⟩

/-- A run that leaves the store as it is. -/
theorem of_steady (hm : Steady m) : Safe given m fun _ => [] := by
  intro s hs _
  have h := hm s
  cases hrun : m s with
  | error stop s' =>
    rw [hrun] at h
    have hstore : s'.store = s.store := h
    exact ⟨hstore ▸ hs, fun c hc => hstore ▸ hc⟩
  | ok a s' =>
    rw [hrun] at h
    have hstore : s'.store = s.store := h
    exact ⟨⟨hstore ▸ hs, fun c hc => hstore ▸ hc⟩, fun _ hv => by cases hv⟩

end Safe

/-! ## The machine -/

variable {gives : α → List Value} {pos : Pos}

theorem safe_orExhausted {o : Option α} (h : ∀ a, o = some a → Entails given (gives a)) :
    Safe given (orExhausted o) gives := by
  cases o with
  | none => exact .throw _
  | some a => exact .pure (h a rfl)

/-- What is in the store may be used. -/
theorem safe_store_bind {f : Store → Run α} (read : Store → List Value)
    (hread : ∀ s : Store, s.Whole → ∀ v ∈ read s, s.Owns v)
    (hf : ∀ s, Safe (read s ++ given) (f s) gives) : Safe given (store >>= f) gives := by
  intro s hs hgiven
  rw [run_bind]
  exact hf s.store s hs (List.forall_mem_append.mpr ⟨hread s.store hs, hgiven⟩)

theorem safe_elements (r : ArrayRef) : Safe given (elements r) Array.toList :=
  safe_store_bind (fun s => (s.array r).toList)
    (fun _ hs v hv => hs.owns_array r v (Array.mem_toList_iff.mp hv))
    fun _ => .pure (.of_subset (List.subset_append_left _ _))

theorem safe_updateStore {f : Store → α × Store}
    (h : ∀ s : Store, s.Whole → (∀ v ∈ given, s.Owns v) →
      ((f s).2.Whole ∧ s.Lasts (f s).2) ∧ ∀ v ∈ gives (f s).1, (f s).2.Owns v) :
    Safe given (updateStore f) gives :=
  fun s hs hgiven => h s.store hs hgiven

theorem safe_modifyArray {r : ArrayRef} {f : Array Value → Array Value}
    (h : ∀ vs : Array Value, Entails (vs.toList ++ given) (f vs).toList) :
    Safe given (modifyStore (·.modifyArray r f)) fun _ => [] := by
  intro s hs hgiven
  have hf : ∀ v ∈ f (s.store.array r), s.store.Owns v := fun v hv =>
    h (s.store.array r) s.store (List.forall_mem_append.mpr
      ⟨fun u hu => hs.owns_array r u (Array.mem_toList_iff.mp hu), hgiven⟩) v
      (Array.mem_toList_iff.mpr hv)
  exact ⟨⟨hs.modifyArray r hf, lasts_modifyArray s.store r f⟩, fun _ hv => by cases hv⟩

theorem safe_newArray {vs : Array Value} (h : Entails given vs.toList) :
    Safe given (newArray vs pos) ([·]) := by
  have hnew : Safe given (updateStore (·.newArray vs)) fun r => [.array r pos] :=
    safe_updateStore fun s hs hgiven =>
      hs.newArray_safe (fun v hv => h s hgiven v (Array.mem_toList_iff.mpr hv)) pos
  exact .bind hnew fun r => .pure (.single (by simp))

theorem safe_newTable {t : Table} (ht : t.WellFormed) (h : Entails given t.held) :
    Safe given (newTable t pos) ([·]) := by
  have hnew : Safe given (updateStore (·.newTable t)) fun r => [.hash r pos] :=
    safe_updateStore fun s hs hgiven => hs.newTable_safe ht (h s hgiven) pos
  exact .bind hnew fun r => .pure (.single (by simp))

theorem safe_clone {v : Value} (hv : v ∈ given) : Safe given (clone v pos) ([·]) := by
  have hcopy : Safe given (updateStore (·.clone v pos)) Option.toList := by
    refine safe_updateStore fun s hs hgiven => ?_
    obtain ⟨hwhole, howns⟩ := Store.Copy.safe_copyWithin pos s.collections hv s hs hgiven
    exact ⟨hwhole, fun u hu => howns u (Option.mem_toList.mp hu) u (List.mem_singleton_self u)⟩
  exact .bind hcopy fun o => safe_orExhausted fun a ha => .single (by simp [ha])

theorem safe_newId : Safe given newId fun _ => [] :=
  safe_updateStore fun s hs _ => ⟨⟨hs.newId, .refl s⟩, fun _ hv => by cases hv⟩

theorem safe_enclose (r : ScopeRef) : Safe given (enclose r) fun _ => [] :=
  safe_updateStore fun s hs _ => ⟨⟨hs.enclose r, .refl s⟩, fun _ hv => by cases hv⟩

theorem safe_bind {r : ScopeRef} {name : String} {v : Value} (hv : Entails given [v]) :
    Safe given (Run.bind r name v) fun _ => [] := fun s hs hgiven =>
  ⟨⟨hs.bind r name (hv s.store hgiven v (List.mem_singleton_self v)), .refl s.store⟩,
    fun _ hu => by cases hu⟩

theorem safe_inspect (v : Value) : Safe given (inspect v) fun _ => [] :=
  .of_steady (steady_inspect v)

theorem safe_toBool? (v : Value) : Safe given (toBool? v) fun _ => [] :=
  .of_steady (steady_toBool? v)

end Run

/-! ## Scripts -/

/-- Tasks are about values that a whole store owns, and leave such a store with such a value. -/
def owning : TaskSpec where
  Pre t s := s.store.Whole ∧ ∀ v ∈ t.values, s.store.Owns v
  Post _ s ending := Ending.Safe s.store ([·]) ending

namespace Script

variable {α β : Type} {given given' : List Value}

def Safe (given : List Value) (m : Script α) (gives : α → List Value) : Prop :=
  ∀ s : State, s.store.Whole → (∀ v ∈ given, s.store.Owns v) →
    (m s).Ensures owning (Ending.Safe s.store gives)

namespace Safe

variable {gives : α → List Value} {gives' : β → List Value} {m : Script α} {f : α → Script β}

theorem pure {a : α} (h : Entails given (gives a)) : Safe given (Pure.pure a) gives :=
  fun s hs hgiven => ⟨⟨hs, .refl _⟩, h s.store hgiven⟩

theorem scalar {v : Value} (h : v.collection? .showing = none) :
    Safe given (Pure.pure v) ([·]) :=
  pure (.scalar h)

theorem lift {m : Run α} (h : Run.Safe given m gives) : Safe given (liftM m : Script α) gives := h

theorem fault (pos : Pos) (cause : Cause) :
    Safe given (liftM (Run.fault pos cause : Run α) : Script α) gives :=
  lift (.fault pos cause)

theorem bind (hm : Safe given m gives) (hf : ∀ a, Safe (gives a ++ given) (f a) gives') :
    Safe given (m >>= f) gives' := by
  intro s hs hgiven
  rw [Script.run_bind]
  refine Step.Ensures.bind (fun a s' h => ?_) (fun _ _ h => ?_) (hm s hs hgiven)
  case refine_2 => exact h
  obtain ⟨⟨hs', hlasts⟩, ha⟩ := h
  have howned : ∀ v ∈ gives a ++ given, s'.store.Owns v :=
    List.forall_mem_append.mpr ⟨ha, fun v hv => (hgiven v hv).lasts hlasts⟩
  exact (hf a s' hs' howned).mono fun _ h => h.of_lasts hlasts

theorem followed (hm : Safe given m fun _ => []) (hf : ∀ a, Safe given (f a) gives') :
    Safe given (m >>= f) gives' :=
  bind hm hf

/-- Behind a run, what follows may rely on how it ended. -/
theorem run_bind {m : Run α} {f : α → Script β} (hm : Run.Safe given m gives)
    (hf : ∀ a s s', m s = .ok a s' → Safe (gives a ++ given) (f a) gives') :
    Safe given (liftM m >>= f) gives' := by
  intro s hs hgiven
  have h := hm s hs hgiven
  rw [Script.run_bind, run_lift]
  cases hrun : m s with
  | error stop s' =>
    rw [hrun] at h
    exact h
  | ok a s' =>
    rw [hrun] at h
    obtain ⟨⟨hs', hlasts⟩, ha⟩ := h
    have howned : ∀ v ∈ gives a ++ given, s'.store.Owns v :=
      List.forall_mem_append.mpr ⟨ha, fun v hv => (hgiven v hv).lasts hlasts⟩
    exact (hf a s s' hrun s' hs' howned).mono fun _ h => h.of_lasts hlasts

theorem ask {t : Task} (h : Entails given t.values) : Safe given (Script.ask t) ([·]) :=
  fun s hs hgiven => ⟨⟨hs, h s.store hgiven⟩, fun _ hpost => hpost⟩

theorem ite {c : Prop} [Decidable c] {m₁ m₂ : Script α} (h₁ : Safe given m₁ gives)
    (h₂ : Safe given m₂ gives) : Safe given (if c then m₁ else m₂) gives := by
  split
  · exact h₁
  · exact h₂

theorem check {c : Prop} [Decidable c] {m : Script Unit} {k : Unit → Script α}
    (hm : Safe given m fun _ => []) (hk : ∀ u, Safe given (k u) gives) :
    Safe given (if c then m >>= k else k ()) gives :=
  ite (followed hm hk) (hk ())

/-- The same check the other way round. -/
theorem demand {c : Prop} [Decidable c] {m : Script Unit} {k : Unit → Script α}
    (hm : Safe given m fun _ => []) (hk : ∀ u, Safe given (k u) gives) :
    Safe given (if c then k () else m >>= k) gives :=
  ite (hk ()) (followed hm hk)

theorem of_entails (h : Entails given given') (hm : Safe given' m gives) : Safe given m gives :=
  fun s hs hgiven => hm s hs (h s.store hgiven)

theorem of_subset (h : given' ⊆ given) (hm : Safe given' m gives) : Safe given m gives :=
  hm.of_entails (.of_subset h)

/-- A run that leaves the store as it is, in front of the rest. -/
theorem steady {m : Run α} {f : α → Script β} (hm : Run.Steady m)
    (hf : ∀ a, Safe given (f a) gives') : Safe given (liftM m >>= f) gives' :=
  followed (lift (.of_steady hm)) hf

end Safe

/-! ## Walking and sorting -/

/-- What a step of a walk gives. -/
def afterStep {β : Type} (gives : β → List Value) : ForInStep β → List Value
  | .done b => gives b
  | .yield b => gives b

theorem safe_walk (given : List Value) (gives : β → List Value) {r : ArrayRef}
    {visit : β → Nat → Value → Script (ForInStep β)}
    (hvisit : ∀ b (i : Nat) v, Safe (v :: gives b ++ given) (visit b i v) (afterStep gives)) :
    ∀ (fuel index : Nat) (b : β), Safe (gives b ++ given) (walk r visit fuel index b) gives
  | 0, _, _ => .lift (.throw _)
  | fuel + 1, index, b => by
    rw [walk]
    refine .bind (.lift (Run.safe_elements r)) fun vs => ?_
    split
    · exact .pure (.of_subset (by simp))
    · rename_i v hv
      have hmem : v ∈ vs.toList := Array.mem_toList_iff.mpr (Array.mem_of_getElem? hv)
      have hgiven : v :: gives b ++ given ⊆ vs.toList ++ (gives b ++ given) :=
        List.cons_subset.mpr ⟨List.mem_append_left _ hmem, List.subset_append_right _ _⟩
      refine .bind ((hvisit b index v).of_subset hgiven) fun step => ?_
      cases step with
      | done b => exact .pure (.of_subset (List.subset_append_left _ _))
      | yield b =>
        refine (safe_walk given gives hvisit fuel (index + 1) b).of_subset ?_
        exact List.append_subset.mpr ⟨List.subset_append_left _ _, by grind⟩

section Order

variable {less : Value → Value → Script Bool}
  (hless : ∀ x y, Safe (x :: y :: given) (less x y) fun _ => [])
include hless

theorem safe_run (done : List Value) (last : Value) (rest : List Value) :
    Safe (done ++ last :: rest ++ given) (Order.run less done last rest) fun p => p.1 ++ p.2 := by
  induction rest generalizing done last with
  | nil => exact .pure (.of_subset (by grind))
  | cons x rest ih =>
    rw [Order.run]
    refine .followed ((hless x last).of_subset (by grind)) fun b => .ite ?_ ?_
    · exact (ih (last :: done) x).of_subset (by grind)
    · exact .pure (.of_subset (by grind))

theorem safe_place (sorted : Array Value) (x : Value) (low high : Nat) :
    Safe (x :: sorted.toList ++ given) (Order.place less sorted x low high) fun _ => [] := by
  fun_induction Order.place less sorted x low high with
  | case1 => exact .pure .nil
  | case2 _ _ _ middle y hy ihLow =>
    rename_i ihHigh
    have hmem : y ∈ sorted.toList := Array.mem_toList_iff.mpr (Array.mem_of_getElem? hy)
    exact .followed ((hless x y).of_subset (by grind)) fun b => .ite ihLow ihHigh
  | case3 => exact .pure .nil

theorem safe_insertAll (sorted : Array Value) (xs : List Value) :
    Safe (sorted.toList ++ xs ++ given) (Order.insertAll less sorted xs) Array.toList := by
  induction xs generalizing sorted with
  | nil => exact .pure (.of_subset (by grind))
  | cons x xs ih =>
    rw [Order.insertAll]
    refine .followed ((safe_place hless sorted x 0 sorted.size).of_subset (by grind)) fun i => ?_
    have hinsert : (sorted.insertIdxIfInBounds i x).toList ⊆ x :: sorted.toList := by
      intro u hu
      rw [Array.mem_toList_iff] at hu
      unfold Array.insertIdxIfInBounds at hu
      split at hu
      · simpa [Array.mem_insertIdx] using hu
      · simp [hu]
    refine (ih _).of_subset ?_
    grind

theorem safe_sort : ∀ xs : List Value, Safe (xs ++ given) (Order.sort less xs) Array.toList
  | [] => .pure .nil
  | [x] => .pure (.of_subset (by grind))
  | x :: y :: rest => by
    have hnot : ∀ x y, Safe (x :: y :: given) (do return !(← less x y) : Script Bool) fun _ => [] :=
      fun x y => .followed (hless x y) fun _ => .pure .nil
    have hrest : ∀ (p : List Value × List Value) (first : Array Value), first.toList ⊆ p.1 →
        Safe ((p.1 ++ p.2) ++ (x :: y :: rest ++ given)) (Order.insertAll less first p.2)
          Array.toList := fun p first hfirst =>
      (safe_insertAll hless first p.2).of_subset (by grind)
    rw [Order.sort]
    refine .followed ((hless y x).of_subset (by grind)) fun b => .ite ?_ ?_
    · exact .bind ((safe_run hless [x] y rest).of_subset (by grind)) fun p => hrest p _ (by grind)
    · exact .bind ((safe_run hnot [x] y rest).of_subset (by grind)) fun p => hrest p _ (by grind)

theorem safe_sortDescending (xs : List Value) :
    Safe (xs ++ given) (Order.sortDescending less xs) Array.toList :=
  .bind ((safe_sort hless xs.reverse).of_subset (by grind)) fun _ => .pure (.of_subset (by grind))

end Order

end Script

end Vorn
