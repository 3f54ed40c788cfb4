import Vorn.Proofs.Store.Belongs
import Vorn.Proofs.Store.Copying
import Vorn.Proofs.Store.Grouping

/-!
# Deep copies

A copy of a value looks like the value and has arrays and hashes of its own (`Store.Copied`).
Copying with a bound on the depth finds one exactly if a walk of that depth ends
(`Store.copies_copyWithin`, `Store.within_of_copyWithin`), so a value has a copy if and only if it
is acyclic (`Store.clone_cases`).

Copying adds to the store while it goes on, and what is copied belongs to the store. That carries
the induction: what was copied first stays a copy while the rest is copied (`Store.Copied.before`,
`Store.Copied.behind`).
-/

namespace Vorn.Store

variable {s t : Store} {w : Walk} {u v v' : Value} {c : Collection}

/-! ## Copies -/

/-- The collection has come since the first store. -/
structure New (s t : Store) (c : Collection) : Prop where
  has : t.Has c
  old : ¬ s.Has c

/-- In `t`, which has grown from `s`, the value `v'` is a deep copy of what `v` is in `s`. -/
structure Copied (s : Store) (v : Value) (t : Store) (v' : Value) : Prop where
  belongs : t.Belongs v'
  snapshot : t.snapshot? v' = s.snapshot? v
  new : ∀ c, t.Reaches .copying v' c → s.New t c
  plain : s.Plain v → t.Plain v'

theorem exists_left_of_mem {α β : Type} {R : α → β → Prop} {as : List α} {bs : List β}
    (h : List.Forall₂ R as bs) {b : β} (hb : b ∈ bs) : ∃ a ∈ as, R a b := by
  induction h with
  | nil => cases hb
  | cons hab _ ih =>
    rcases List.mem_cons.mp hb with rfl | hb
    · exact ⟨_, List.mem_cons_self, hab⟩
    · obtain ⟨a, ha, hr⟩ := ih hb
      exact ⟨a, List.mem_cons_of_mem _ ha, hr⟩

namespace Copied

/-- A copy stays one behind changes that leave it alone. -/
theorem preserved {t₁ : Store} (h : s.Copied v t₁ v') (ht : t₁.Preserves v' t) :
    s.Copied v t v' := by
  refine ⟨ht.belongs h.belongs, ?_, fun c hc => ?_, fun hplain => ?_⟩
  · rw [ht.agrees.snapshot?_eq, h.snapshot]
  · have hnew := h.new c (ht.agrees.of_showing.reaches_iff.mp hc)
    exact ⟨ht.has c hnew.has, hnew.old⟩
  · exact (h.plain hplain).of_agrees ht.agrees.of_showing

/-- A copy stays one while its store grows. -/
theorem behind {t₁ : Store} (h : s.Copied v t₁ v') (ht : t₁.Grows t) : s.Copied v t v' :=
  h.preserved (h.belongs.preserved ht)

/-- A copy of what a value is behind changes that left it alone is one of what it was. -/
theorem of_preserves {s₁ : Store} (h : s₁.Copied v t v') (hs : s.Preserves v s₁) :
    s.Copied v t v' := by
  refine ⟨h.belongs, ?_, fun c hc => ?_, fun hplain => ?_⟩
  · rw [h.snapshot, hs.agrees.snapshot?_eq]
  · have hnew := h.new c hc
    exact ⟨hnew.has, fun hold => hnew.old (hs.has c hold)⟩
  · exact h.plain (hplain.of_agrees hs.agrees.of_showing)

/-- A copy of what a value is after some growth is one of what it was. -/
theorem before {s₁ : Store} (h : s₁.Copied v t v') (hv : s.Belongs v) (hs : s.Grows s₁) :
    s.Copied v t v' :=
  h.of_preserves (hv.preserved hs)

/-- A copy of a copy is a copy. -/
theorem trans {s₁ : Store} {v₁ : Value} (h : s.Copied v s₁ v₁) (h' : s₁.Copied v₁ t v')
    (hs : ∀ c, s.Has c → s₁.Has c) : s.Copied v t v' := by
  refine ⟨h'.belongs, h'.snapshot.trans h.snapshot, fun c hc => ?_, fun hplain => ?_⟩
  · have hnew := h'.new c hc
    exact ⟨hnew.has, fun hold => hnew.old (hs c hold)⟩
  · exact h'.plain (h.plain hplain)

/-- What is no collection is copied as it is, up to the place that it comes from. -/
theorem leaf (hv : s.Belongs v) (hnone : v'.collection? .copying = none)
    (hcollection : v'.collection? .showing = v.collection? .showing) (hty : v'.ty = v.ty)
    (hsnapshot : s.snapshot? v' = s.snapshot? v) : s.Copied v s v' := by
  have hreaches : ∀ {c}, s.Reaches .showing v' c → s.Reaches .showing v c := by
    rintro c ⟨c₀, hv', hpath⟩
    exact ⟨c₀, hcollection ▸ hv', hpath⟩
  refine ⟨⟨fun c hc => hv.has c (hreaches hc), fun r hr => hv.wellFormed r (hreaches hr)⟩,
    hsnapshot, fun c hc => absurd hc (not_reaches_of_none hnone), fun hplain => ?_⟩
  exact ⟨hty ▸ hplain.self, fun c hc => absurd hc (not_reaches_of_none hnone)⟩

/-- A new collection whose items are copies of those of a value. -/
theorem of_items (hnew : s.New t c) (hwf : ∀ r, c = .hash r → (t.table r).WellFormed)
    (hv' : ∀ w, v'.collection? w = some c) (hty : v'.ty = v.ty)
    (hsnapshot : t.snapshot? v' = s.snapshot? v)
    (hitems : List.Forall₂ (fun u u' => s.Copied u t u') (s.inner .copying v) (t.items c)) :
    s.Copied v t v' := by
  have hcopied : ∀ u' ∈ t.items c, ∃ u ∈ s.inner .copying v, s.Copied u t u' :=
    fun u' hu' => exists_left_of_mem hitems hu'
  have hinner : ∀ {w u'}, u' ∈ t.inner w v' → u' ∈ t.items c := by
    intro w u' hu'
    obtain ⟨c', hc', hmem⟩ := mem_inner.mp hu'
    obtain rfl := Option.some.inj (hc'.symm.trans (hv' w))
    exact hmem
  have hcases : ∀ {w c'}, t.Reaches w v' c' → c' = c ∨ ∃ u' ∈ t.items c, t.Reaches w u' c' := by
    intro w c' hc'
    rcases reaches_iff.mp hc' with hself | ⟨u', hu', hrest⟩
    · exact .inl (Option.some.inj (hself.symm.trans (hv' w)))
    · exact .inr ⟨u', hinner hu', hrest⟩
  refine ⟨⟨fun c' hc' => ?_, fun r hr => ?_⟩, hsnapshot, fun c' hc' => ?_, fun hplain => ?_⟩
  · rcases hcases hc' with rfl | ⟨u', hu', hrest⟩
    · exact hnew.has
    · obtain ⟨u, -, hcopy⟩ := hcopied u' hu'
      exact hcopy.belongs.has c' hrest
  · rcases hcases hr with heq | ⟨u', hu', hrest⟩
    · exact hwf r heq.symm
    · obtain ⟨u, -, hcopy⟩ := hcopied u' hu'
      exact hcopy.belongs.wellFormed r hrest
  · rcases hcases hc' with rfl | ⟨u', hu', hrest⟩
    · exact hnew
    · obtain ⟨u, -, hcopy⟩ := hcopied u' hu'
      exact hcopy.new c' hrest
  · have hplains : ∀ u' ∈ t.items c, t.Plain u' := by
      intro u' hu'
      obtain ⟨u, hu, hcopy⟩ := hcopied u' hu'
      exact hcopy.plain (hplain.of_inner hu)
    refine ⟨hty ▸ hplain.self, fun c' hc' u' hu' => ?_⟩
    rcases hcases hc' with rfl | ⟨u, hu, hrest⟩
    · exact (hplains u' hu').self
    · exact (hplains u hu).items c' hrest u' hu'

/-- Keys are copied as they are. -/
theorem key (k : Key) (p p' : Pos) (h : s.Grows t) : s.Copied (k.value p) t (k.value p') := by
  have hbelongs : s.Belongs (k.value p) := .of_none (k.collection?_value p)
  have hcopied : s.Copied (k.value p) s (k.value p') := by
    refine leaf hbelongs (k.collection?_value p')
      ((k.collection?_value p').trans (k.collection?_value p).symm) ?_ ?_
    · cases k <;> rfl
    · rw [snapshot?_eq, snapshot?_eq]
      cases k <;> rfl
  exact hcopied.behind h

/-- All that the copy of a plain value reaches is new. -/
theorem reaches_new (h : s.Copied v t v') (hplain : s.Plain v) (hc : t.Reaches .showing v' c) :
    s.New t c :=
  h.new c ((h.plain hplain).reaches_iff.mp hc)

end Copied

/-- The second entry has the key of the first and a copy of its value. -/
structure CopiedEntry (s : Store) (e : Entry) (t : Store) (e' : Entry) : Prop where
  key : e'.key = e.key
  value : s.Copied e.value t e'.value

theorem CopiedEntry.behind {t₁ : Store} {e e' : Entry} (h : CopiedEntry s e t₁ e')
    (ht : t₁.Grows t) : CopiedEntry s e t e' :=
  ⟨h.key, h.value.behind ht⟩

/-! ## Copying -/

section Copying

variable {inner : Value → Copy Value} {pos p : Pos}

/-- In the store, the copying adds to it and finds a deep copy of the value. -/
def Copies (m : Copy Value) (s : Store) (v : Value) : Prop :=
  ∃ v' t, m.run s = (some v', t) ∧ s.Grows t ∧ s.Copied v t v'

/-- One thing after the other is mapped by a relation that growth respects, in a store that grows
from `s₀` on. -/
theorem exists_mapM {α β : Type} {f : α → Copy β} (P : Store → α → Prop)
    (R : Store → α → Store → β → Prop) (hP : ∀ s t a, P s a → s.Grows t → P t a)
    (hR : ∀ s s₁ t₁ t a b, P s a → s.Grows s₁ → R s₁ a t₁ b → t₁.Grows t → R s a t b)
    (hf : ∀ s a, P s a → ∃ b t, (f a).run s = (some b, t) ∧ s.Grows t ∧ R s a t b)
    {as : List α} {s₀ s : Store} (has : ∀ a ∈ as, P s₀ a) (h₀ : s₀.Grows s) :
    ∃ bs t, (as.mapM f).run s = (some bs, t) ∧ s.Grows t ∧
      List.Forall₂ (fun a b => R s₀ a t b) as bs := by
  induction as generalizing s with
  | nil => exact ⟨[], s, rfl, .refl s, .nil⟩
  | cons a as ih =>
    obtain ⟨ha, has⟩ := List.forall_mem_cons.mp has
    obtain ⟨b, s₁, hb, hgrows, hab⟩ := hf s a (hP s₀ s a ha h₀)
    obtain ⟨bs, t, hbs, hgrows', hall⟩ := ih has (h₀.trans hgrows)
    refine ⟨b :: bs, t, ?_, hgrows.trans hgrows', .cons (hR _ _ _ _ a b ha h₀ hab hgrows') hall⟩
    rw [List.mapM_cons, Copy.run_bind, hb]
    simp only [Copy.run_bind, hbs]
    rfl

variable {P : Store → Value → Prop}

theorem exists_copyEntry (hinner : ∀ s u, P s u → Copies (inner u) s u) {e : Entry}
    (he : P s e.value) : ∃ e' t, (copyEntry inner pos e).run s = (some e', t) ∧ s.Grows t ∧
      CopiedEntry s e t e' := by
  obtain ⟨v', t, hrun, hst, hcopy⟩ := hinner s e.value he
  refine ⟨⟨e.key, pos, v'⟩, t, ?_, hst, rfl, hcopy⟩
  rw [copyEntry, Copy.run_bind, hrun]
  rfl

-- What is known of the inner values, in whatever store their turn comes.
variable (hbelongs : ∀ s u, P s u → s.Belongs u) (hgrows : ∀ s t u, P s u → s.Grows t → P t u)
  (hinner : ∀ s u, P s u → Copies (inner u) s u)
include hbelongs hgrows hinner

theorem copies_array {r : ArrayRef} (hr : ∀ u ∈ s.inner .copying (.array r p), P s u) :
    Copies (copyOf inner pos (.array r p)) s (.array r p) := by
  obtain ⟨us, t, hrun, hst, hall⟩ := exists_mapM P Copied hgrows
    (fun s s₁ t₁ t u u' hu hs hcopy ht => (hcopy.before (hbelongs s u hu) hs).behind ht) hinner hr
    (.refl s)
  change ((s.array r).toList.mapM inner).run s = _ at hrun
  refine ⟨.array ⟨t.arrays.size⟩ pos, (t.newArray us.toArray).2, ?_, hst.trans (.newArray t _), ?_⟩
  · rw [run_copyOf_array, hrun]
    rfl
  have hcopied := hall.imp fun u u' h => h.behind (.newArray t us.toArray)
  have helements : ((t.newArray us.toArray).2.array ⟨t.arrays.size⟩).toList = us := by
    simp [newArray, array]
  refine .of_items (c := .array ⟨t.arrays.size⟩) ⟨?_, ?_⟩ (fun r hr => by cases hr) (fun w => rfl)
    rfl ?_ ?_
  · simp [Has, newArray]
  · exact Nat.not_lt.mpr hst.arrays.length_le
  · have hsnapshots := mapM_eq_of_forall₂ (hcopied.imp fun u u' h => h.snapshot.symm)
    rw [snapshot?_eq, snapshot?_eq, snapshotOf, snapshotOf, helements, ← hsnapshots]
    rfl
  · rw [items, helements]
    exact hcopied

theorem copies_hash {r : TableRef} (hv : s.Belongs (.hash r p))
    (hr : ∀ u ∈ s.inner .copying (.hash r p), P s u) :
    Copies (copyOf inner pos (.hash r p)) s (.hash r p) := by
  have hentries : ∀ e ∈ (s.table r).entries, P s e.value := fun e he =>
    hr e.value (List.mem_flatMap.mpr ⟨e, he, by simp⟩)
  obtain ⟨es, t, hrun, hst, hall⟩ := exists_mapM (fun s (e : Entry) => P s e.value) CopiedEntry
    (fun s t e => hgrows s t e.value)
    (fun s s₁ t₁ t e e' he hs hcopy ht =>
      ⟨hcopy.key, (hcopy.value.before (hbelongs s e.value he) hs).behind ht⟩)
    (fun s e he => exists_copyEntry hinner he) hentries (.refl s)
  -- The keys stand as in a well-formed hash, so the rebuilt one has the entries in their order.
  have hkeys : es.map (·.key) = (s.table r).keys :=
    (map_eq_map_of_forall₂ (hall.imp fun e e' h => h.key.symm)).symm
  have hwf : (s.table r).WellFormed := hv.wellFormed r ⟨_, rfl, .refl⟩
  have hrebuilt : (Table.ofEntries es).entries = es := hwf.entries_ofEntries_eq hkeys
  refine ⟨.hash ⟨t.tables.size⟩ pos, (t.newTable (.ofEntries es)).2, ?_,
    hst.trans (.newTable t _), ?_⟩
  · rw [run_copyOf_hash, hrun]
    rfl
  have htable : (t.newTable (.ofEntries es)).2.table ⟨t.tables.size⟩ = .ofEntries es :=
    table_newTable t _
  have hcopied := hall.imp fun e e' h => h.behind (.newTable t (.ofEntries es))
  have hkey : ∀ {e e'}, CopiedEntry s e (t.newTable (.ofEntries es)).2 e' →
      s.Copied e.keyValue (t.newTable (.ofEntries es)).2 e'.keyValue := fun {e e'} h => by
    rw [Entry.keyValue, Entry.keyValue, h.key]
    exact .key e.key e.pos e'.pos (hst.trans (.newTable t _))
  refine .of_items (c := .hash ⟨t.tables.size⟩) ⟨?_, ?_⟩ (fun r hr => ?_) (fun w => rfl) rfl ?_ ?_
  · simp [Has, newTable]
  · exact Nat.not_lt.mpr hst.tables_size
  · cases hr
    rw [htable]
    exact Table.wellFormed_ofEntries es
  · have hpair : ∀ {e e'}, CopiedEntry s e (t.newTable (.ofEntries es)).2 e' →
        snapshotOf.pairOf s.snapshot? e =
          snapshotOf.pairOf (t.newTable (.ofEntries es)).2.snapshot? e' := fun h => by
      rw [snapshotOf.pairOf, snapshotOf.pairOf, (hkey h).snapshot, h.value.snapshot]
    rw [snapshot?_eq, snapshot?_eq, snapshotOf, snapshotOf, htable, hrebuilt,
      ← mapM_eq_of_forall₂ (hcopied.imp fun e e' h => hpair h)]
  · rw [items, htable, hrebuilt]
    exact List.rel_flatMap hcopied fun e e' h => .cons (hkey h) (.cons h.value .nil)

theorem copies_copyOf (hv : s.Belongs v) (hends : ∀ u ∈ s.inner .copying v, P s u) :
    Copies (copyOf inner pos v) s v := by
  cases v with
  | array r p => exact copies_array hbelongs hgrows hinner hends
  | hash r p => exact copies_hash hbelongs hgrows hinner hv hends
  | int n p =>
    refine ⟨.int n pos, s, rfl, .refl s, .leaf hv rfl rfl rfl ?_⟩
    rw [snapshot?_eq, snapshot?_eq, snapshotOf, snapshotOf]
  | float x p =>
    refine ⟨.float x pos, s, rfl, .refl s, .leaf hv rfl rfl rfl ?_⟩
    rw [snapshot?_eq, snapshot?_eq, snapshotOf, snapshotOf]
  | string text p =>
    refine ⟨.string text pos, s, rfl, .refl s, .leaf hv rfl rfl rfl ?_⟩
    rw [snapshot?_eq, snapshot?_eq, snapshotOf, snapshotOf]
  | _ => exact ⟨_, s, rfl, .refl s, .leaf hv rfl rfl rfl rfl⟩

end Copying

variable {pos : Pos} {depth : Nat}

/-- **Copying finds a deep copy of a value through which a walk of its depth ends.** -/
theorem copies_copyWithin (pos : Pos) (hv : s.Belongs v) (hends : s.Within .copying depth v) :
    Copies (copyWithin pos depth v) s v := by
  induction depth generalizing s v with
  | zero =>
    refine copies_copyOf (P := fun _ _ => False) nofun nofun nofun hv fun u hu => ?_
    rw [Within] at hends
    rw [hends] at hu
    cases hu
  | succ depth ih =>
    refine copies_copyOf (P := fun s u => s.Belongs u ∧ s.Within .copying depth u)
      (fun s u h => h.1) (fun s t u h hgrows => ?_) (fun s u h => ih h.1 h.2) hv fun u hu => ?_
    · exact ⟨h.1.grows hgrows, (h.1.agrees hgrows).within_iff.mpr h.2⟩
    · exact ⟨hv.of_inner hu, hends u hu⟩

/-- If a copy is found, then the inner values were copied, or they are keys, with which something
was copied. -/
theorem of_copyOf_eq_some {inner : Value → Copy Value} {Q : Value → Prop}
    (hgrows : ∀ u, Copy.Grows (inner u))
    (hinner : ∀ {u s₁ u' t₁}, s.Grows s₁ → (inner u).run s₁ = (some u', t₁) → Q u)
    (h : (copyOf inner pos v).run s = (some v', t)) :
    ∀ u ∈ s.inner .copying v, Q u ∨ u.collection? .copying = none ∧ ∃ u₁, Q u₁ := by
  intro u hu
  cases v with
  | array r p =>
    obtain ⟨us, t₁, hus, -, -⟩ := copyOf_array_eq_some h
    obtain ⟨u', -, s₁, t₂, hs₁, hu', -⟩ := Copy.mapM_eq_some hgrows hus u hu
    exact .inl (hinner hs₁ hu')
  | hash r p =>
    obtain ⟨e, he, hu⟩ := List.mem_flatMap.mp hu
    obtain ⟨es, t₁, hes, -, -⟩ := copyOf_hash_eq_some h
    obtain ⟨e', -, s₁, t₂, hs₁, he', -⟩ :=
      Copy.mapM_eq_some (Copy.grows_copyEntry hgrows pos) hes e he
    have hvalue : Q e.value := hinner hs₁ (Copy.copyEntry_eq_some he').2
    rcases List.mem_pair.mp hu with rfl | rfl
    · exact .inr ⟨Key.collection?_value e.key e.pos, e.value, hvalue⟩
    · exact .inl hvalue
  | _ => cases hu

theorem within_of_none (h : v.collection? w = none) : s.Within w depth v := by
  have hinner : s.inner w v = [] := by
    rw [inner, h]
    rfl
  cases depth with
  | zero => exact hinner
  | succ depth =>
    rw [Within, hinner]
    exact fun u hu => absurd hu List.not_mem_nil

/-- **No copy is found of a value through which no walk of the depth ends.** -/
theorem within_of_copyWithin (hv : s.Belongs v)
    (h : (copyWithin pos depth v).run s = (some v', t)) : s.Within .copying depth v := by
  induction depth generalizing s v v' t with
  | zero =>
    have hnothing := of_copyOf_eq_some (Q := fun _ => False) (fun _ => .failure)
      (fun _ hfail => nomatch hfail) h
    refine List.eq_nil_iff_forall_not_mem.mpr fun u hu => ?_
    rcases hnothing u hu with hcopied | ⟨-, u₁, hcopied⟩
    · exact hcopied
    · exact hcopied
  | succ depth ih =>
    have hcopied := of_copyOf_eq_some (Q := fun u => ∃ s₁ u' t₁, s.Grows s₁ ∧
      (copyWithin pos depth u).run s₁ = (some u', t₁)) (Copy.grows_copyWithin pos depth)
      (fun hs₁ hrun => ⟨_, _, _, hs₁, hrun⟩) h
    intro u hu
    rcases hcopied u hu with ⟨s₁, u', t₁, hs₁, hrun⟩ | ⟨hnone, -⟩
    · have hu : s.Belongs u := hv.of_inner hu
      exact (hu.agrees hs₁).within_iff.mp (ih (hu.grows hs₁) hrun)
    · exact within_of_none hnone

/-- **A value has a copy if and only if it is acyclic**, and then it is a deep copy. Whether there
is one or not, the store has only grown. -/
theorem clone_cases (hv : s.Belongs v) (pos : Pos) : s.Grows (s.clone v pos).2 ∧
    (s.Acyclic .copying v ∧ (∃ v', (s.clone v pos).1 = some v' ∧
        s.Copied v (s.clone v pos).2 v') ∨
      ¬ s.Acyclic .copying v ∧ (s.clone v pos).1 = none) := by
  refine ⟨Copy.grows_copyWithin pos s.collections v s, ?_⟩
  by_cases h : s.Acyclic .copying v
  · obtain ⟨v', t, hrun, -, hcopied⟩ :=
      copies_copyWithin pos hv (acyclic_iff_within.mp h)
    refine .inl ⟨h, v', ?_⟩
    rw [clone, hrun]
    exact ⟨rfl, hcopied⟩
  · refine .inr ⟨h, ?_⟩
    cases hrun : (s.clone v pos) with
    | mk o t =>
      cases o with
      | none => rfl
      | some v' => exact absurd (within_of_copyWithin hv hrun).acyclic h

end Vorn.Store
