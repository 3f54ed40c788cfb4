import Vorn.Proofs.Eval.Law

/-!
# Runs that keep a law

`Run.Keeps L m post` says that `m` keeps a store that `L` admits, leaves the scopes alone and gives
only results that satisfy `post`, whether or not it ends with one. The built-in functions and the
methods that call nothing back are such runs, with results that the law admits.
-/

namespace Vorn

/-- Behind a run that started with the store `s`: the law still admits the store, the scopes are
the same, and a result satisfies `post`. -/
def Ending.Kept {α : Type} (L : Law) (s : Store) (post : α → Prop) : Ending α → Prop
  | .ok a s' => (L.AdmitsStore s'.store ∧ s'.store.scopes = s.scopes) ∧ post a
  | .error _ s' => L.AdmitsStore s'.store ∧ s'.store.scopes = s.scopes

/-! ## Copies -/

namespace Store.Copy

variable {α β : Type} {L : Law}

/-- What `Run.Keeps` says, of a copy. -/
def Keeps (L : Law) (m : Copy α) (post : α → Prop) : Prop :=
  ∀ s, L.AdmitsStore s →
    (L.AdmitsStore (m.run s).2 ∧ (m.run s).2.scopes = s.scopes) ∧ ∀ a ∈ (m.run s).1, post a

variable {post : α → Prop} {post' : β → Prop}

theorem keeps_pure {a : α} (h : post a) : Keeps L (pure a) post := by
  refine fun _ hs => ⟨⟨hs, rfl⟩, fun b hb => ?_⟩
  cases hb
  exact h

theorem keeps_failure : Keeps L (failure : Copy α) post :=
  fun _ hs => ⟨⟨hs, rfl⟩, fun _ hb => nomatch hb⟩

theorem keeps_bind {m : Copy α} {f : α → Copy β} (hm : Keeps L m post)
    (hf : ∀ a, post a → Keeps L (f a) post') : Keeps L (m >>= f) post' := by
  intro s hs
  have hfirst := hm s hs
  rw [run_bind]
  cases hrun : (m.run s : Option α × Store) with
  | mk o s' =>
    rw [hrun] at hfirst
    obtain ⟨⟨hs', hscopes⟩, ha⟩ := hfirst
    cases o with
    | none => exact ⟨⟨hs', hscopes⟩, fun _ hb => nomatch hb⟩
    | some a =>
      obtain ⟨⟨hs'', hscopes'⟩, hb⟩ := hf a (ha a rfl) s' hs'
      exact ⟨⟨hs'', hscopes'.trans hscopes⟩, hb⟩

theorem keeps_mapM {f : α → Copy β} : ∀ {xs : List α}, (∀ x ∈ xs, Keeps L (f x) post') →
    Keeps L (xs.mapM f) fun ys => ∀ y ∈ ys, post' y
  | [], _ => by
    rw [List.mapM_nil]
    exact keeps_pure (by simp)
  | x :: xs, h => by
    rw [List.mapM_cons]
    refine keeps_bind (h x (by simp)) fun y hy => ?_
    refine keeps_bind (keeps_mapM fun x hx => h x (by simp [hx])) fun ys hys => ?_
    exact keeps_pure (List.forall_mem_cons.mpr ⟨hy, hys⟩)

theorem keeps_get : Keeps L (get : Copy Store) L.AdmitsStore := by
  refine fun s hs => ⟨⟨hs, rfl⟩, fun b hb => ?_⟩
  cases hb
  exact hs

theorem keeps_modifyGet {f : Store → α × Store}
    (h : ∀ s, L.AdmitsStore s → L.AdmitsStore (f s).2 ∧ (f s).2.scopes = s.scopes) :
    Keeps L (modifyGet f : Copy α) fun _ => True :=
  fun s hs => ⟨h s hs, fun _ _ => trivial⟩

/-- Entries that are put into an empty hash one after the other. -/
theorem admitsTable_foldl {es : List Entry} :
    ∀ {t : Table}, L.AdmitsTable t →
      (∀ e ∈ es, L.Admits e.keyValue ∧ L.Admits e.value) →
      L.AdmitsTable (es.foldl (fun t e => t.insert e.key e.pos e.value) t) := by
  induction es with
  | nil => exact fun ht _ => ht
  | cons e es ih =>
    intro t ht h
    obtain ⟨he, hes⟩ := List.forall_mem_cons.mp h
    exact ih (ht.insert he.1 he.2) hes

theorem keeps_copyOf {inner : Value → Copy Value} (pos : Pos)
    (hinner : ∀ v, L.Admits v → Keeps L (inner v) L.Admits) {v : Value} (hv : L.Admits v) :
    Keeps L (copyOf inner pos v) L.Admits := by
  unfold copyOf
  split
  case h_1 => exact keeps_pure hv
  case h_4 r _ =>
    refine keeps_bind keeps_get fun s hs => ?_
    refine keeps_bind (keeps_mapM fun u hu => hinner u (hs.array r u (by simpa using hu)))
      fun us hus => ?_
    exact keeps_bind (keeps_modifyGet fun s hs => ⟨hs.newArray (by simpa using hus), rfl⟩)
      fun _ _ => keeps_pure trivial
  case h_5 r _ =>
    refine keeps_bind keeps_get fun s hs => ?_
    have hcopy : ∀ e ∈ (s.table r).entries,
        Keeps L (copyEntry inner pos e) fun e => L.Admits e.keyValue ∧ L.Admits e.value := by
      intro e he
      obtain ⟨hkey, hvalue⟩ := hs.table r e he
      exact keeps_bind (hinner e.value hvalue) fun u hu => keeps_pure ⟨Law.admits_key hkey, hu⟩
    refine keeps_bind (keeps_mapM hcopy) fun es hes => ?_
    exact keeps_bind
      (keeps_modifyGet fun s hs => ⟨hs.newTable (admitsTable_foldl Law.admitsTable_empty hes), rfl⟩)
      fun _ _ => keeps_pure trivial
  case h_6 => exact keeps_pure hv
  all_goals exact keeps_pure trivial

theorem keeps_copyWithin (pos : Pos) :
    ∀ depth {v : Value}, L.Admits v → Keeps L (copyWithin pos depth v) L.Admits
  | 0, _, hv => keeps_copyOf pos (fun _ _ => keeps_failure) hv
  | depth + 1, _, hv => keeps_copyOf pos (fun _ hu => keeps_copyWithin pos depth hu) hv

/-- A copy leaves the scopes alone, under whatever law. -/
theorem scopes_copyWithin (pos : Pos) (depth : Nat) (v : Value) (s : Store) :
    ((copyWithin pos depth v).run s).2.scopes = s.scopes :=
  (keeps_copyWithin pos depth (Law.admits_free v) s (Law.admitsStore_free s)).1.2

end Store.Copy

namespace Run

variable {α β : Type} {L : Law}

def Keeps (L : Law) (m : Run α) (post : α → Prop) : Prop :=
  ∀ s, L.AdmitsStore s.store → Ending.Kept L s.store post (m s)

namespace Keeps

variable {post : α → Prop} {post' : β → Prop}

theorem pure {a : α} (h : post a) : Keeps L (Pure.pure a) post := fun _ hs => ⟨⟨hs, rfl⟩, h⟩

theorem throw (stop : Stop) : Keeps L (MonadExcept.throw stop : Run α) post := fun _ hs => ⟨hs, rfl⟩

theorem fault (pos : Pos) (cause : Cause) : Keeps L (Run.fault pos cause : Run α) post :=
  throw _

theorem bind {m : Run α} {f : α → Run β} (hm : Keeps L m post)
    (hf : ∀ a, post a → Keeps L (f a) post') : Keeps L (m >>= f) post' := by
  intro s hs
  have h := hm s hs
  rw [run_bind]
  cases hrun : m s with
  | error stop s' =>
    rw [hrun] at h
    exact h
  | ok a s' =>
    rw [hrun] at h
    obtain ⟨⟨hs', hscopes⟩, ha⟩ := h
    have h' := hf a ha s' hs'
    dsimp only
    revert h'
    cases f a s' with
    | ok b s'' => exact fun ⟨⟨hs'', hscopes'⟩, hb⟩ => ⟨⟨hs'', hscopes'.trans hscopes⟩, hb⟩
    | error stop s'' => exact fun ⟨hs'', hscopes'⟩ => ⟨hs'', hscopes'.trans hscopes⟩

/-- What follows does not depend on the result. -/
theorem followed {m : Run α} {f : α → Run β} (hm : Keeps L m fun _ => True)
    (hf : ∀ a, Keeps L (f a) post') : Keeps L (m >>= f) post' :=
  bind hm fun a _ => hf a

theorem ite {c : Prop} [Decidable c] {m₁ m₂ : Run α} (h₁ : c → Keeps L m₁ post)
    (h₂ : ¬ c → Keeps L m₂ post) : Keeps L (if c then m₁ else m₂) post := by
  split
  · exact h₁ ‹_›
  · exact h₂ ‹_›

/-- A check in front of the rest. -/
theorem check {c : Prop} [Decidable c] {m : Run Unit} {k : Unit → Run α}
    (hm : Keeps L m fun _ => True) (hk : ∀ u, Keeps L (k u) post) :
    Keeps L (if c then m >>= k else k ()) post :=
  ite (fun _ => followed hm hk) fun _ => hk ()

theorem mapM {f : α → Run β} : ∀ {xs : List α}, (∀ x ∈ xs, Keeps L (f x) post') →
    Keeps L (xs.mapM f) fun ys => ∀ y ∈ ys, post' y
  | [], _ => by
    rw [List.mapM_nil]
    exact pure (by simp)
  | x :: xs, h => by
    rw [List.mapM_cons]
    refine bind (h x (by simp)) fun y hy => ?_
    refine bind (mapM fun x hx => h x (by simp [hx])) fun ys hys => ?_
    exact pure (List.forall_mem_cons.mpr ⟨hy, hys⟩)

end Keeps

/-! ## The machine -/

theorem keeps_store : Keeps L store L.AdmitsStore := fun _ hs => ⟨⟨hs, rfl⟩, hs⟩

theorem keeps_elements (r : ArrayRef) : Keeps L (elements r) fun vs => ∀ v ∈ vs, L.Admits v :=
  .bind keeps_store fun _ hs => .pure (hs.array r)

theorem keeps_orExhausted {o : Option α} {post : α → Prop} (h : ∀ a, o = some a → post a) :
    Keeps L (orExhausted o) post := by
  cases o with
  | none => exact .throw _
  | some a => exact .pure (h a rfl)

theorem keeps_inspect (v : Value) : Keeps L (inspect v) fun _ => True :=
  .bind keeps_store fun _ _ => keeps_orExhausted fun _ _ => trivial

theorem keeps_updateStore {f : Store → α × Store} {post : α → Prop}
    (h : ∀ s, L.AdmitsStore s →
      (L.AdmitsStore (f s).2 ∧ (f s).2.scopes = s.scopes) ∧ post (f s).1) :
    Keeps L (updateStore f) post :=
  fun s hs => h s.store hs

theorem keeps_modifyStore {f : Store → Store}
    (h : ∀ s, L.AdmitsStore s → L.AdmitsStore (f s) ∧ (f s).scopes = s.scopes) :
    Keeps L (modifyStore f) fun _ => True :=
  fun s hs => ⟨h s.store hs, trivial⟩

theorem keeps_clone {v : Value} (hv : L.Admits v) (pos : Pos) :
    Keeps L (clone v pos) L.Admits := by
  have hcopy : Keeps L (updateStore (·.clone v pos)) fun o => ∀ u ∈ o, L.Admits u :=
    keeps_updateStore fun s hs => Store.Copy.keeps_copyWithin pos s.collections hv s hs
  exact .bind hcopy fun o ho => keeps_orExhausted ho

theorem keeps_newArray {vs : Array Value} (h : ∀ v ∈ vs, L.Admits v) (pos : Pos) :
    Keeps L (newArray vs pos) L.Admits := by
  have hnew : Keeps L (updateStore (·.newArray vs)) fun _ => True :=
    keeps_updateStore fun _ hs => ⟨⟨hs.newArray h, rfl⟩, trivial⟩
  exact .bind hnew fun _ _ => .pure trivial

theorem keeps_newTable {t : Table} (h : L.AdmitsTable t) (pos : Pos) :
    Keeps L (newTable t pos) L.Admits := by
  have hnew : Keeps L (updateStore (·.newTable t)) fun _ => True :=
    keeps_updateStore fun _ hs => ⟨⟨hs.newTable h, rfl⟩, trivial⟩
  exact .bind hnew fun _ _ => .pure trivial

theorem keeps_newId : Keeps L newId fun _ => True :=
  keeps_updateStore fun _ hs => ⟨⟨hs.newId, rfl⟩, trivial⟩

theorem keeps_printLine (text : String) : Keeps L (printLine text) fun _ => True :=
  fun _ hs => ⟨⟨hs, rfl⟩, trivial⟩

theorem keeps_toBool? (v : Value) : Keeps L (toBool? v) fun _ => True := by
  unfold toBool?
  split
  case h_6 r _ => exact .bind (keeps_elements r) fun _ _ => .pure trivial
  case h_7 => exact .bind keeps_store fun _ _ => .pure trivial
  all_goals exact .pure trivial

end Run

end Vorn
