import Mathlib.Data.List.Forall2
import Mathlib.Data.Set.Card
import Mathlib.Data.Set.Finite.Lattice
import Mathlib.Logic.Relation
import Vorn.Store.Snapshot

/-!
# What a value reaches

The arrays and hashes of a store form a graph: one points to another if it holds it as an element, a
key or a value (`Store.Points`). A value reaches those that lie on a path that starts with it
(`Store.Reaches`), and it is acyclic if none of them is on a path back to itself (`Store.Acyclic`).
Showing a value sees through `return` signals and copying does not, so all of this is said for
either walk.

* `Store.within_of_acyclic`, `Store.acyclic_of_within`: a value is acyclic if and only if a walk
  through it ends, and then it ends at a depth that is at most the number of arrays and hashes that
  it reaches. Each step down leaves one of them behind for good, since another way to it would be a
  cycle; how often they are shared does not matter.
* `Store.isSome_snapshotWithin_iff`, `Store.snapshot?_eq_some_iff`: snapshots find what a walk of
  their depth does, and the bound on their depth leaves nothing out.
* `Store.Agrees`: a change of the store that leaves alone all that a value reaches leaves its
  snapshot alone.
-/

namespace Vorn

/-- An array or a hash. -/
inductive Collection where
  | array (r : ArrayRef)
  | hash (r : TableRef)
deriving DecidableEq

/-- How a walk through a value goes on. -/
inductive Walk where
  /-- As values are shown: `return` signals are seen through. -/
  | showing
  /-- As values are copied: `return` signals are left alone. -/
  | copying

/-- The array or hash that a walk sees in a value. -/
def Value.collection? (w : Walk) : Value → Option Collection
  | .array r _ => some (.array r)
  | .hash r _ => some (.hash r)
  | .returned _ v _ =>
    match w with
    | .showing => v.collection? w
    | .copying => none
  | _ => none

theorem Key.collection?_value {w : Walk} (k : Key) (pos : Pos) :
    (k.value pos).collection? w = none := by
  cases k <;> rfl

namespace Store

variable (s : Store) (w : Walk)

/-- What a collection holds. -/
def items : Collection → List Value
  | .array r => (s.array r).toList
  | .hash r => (s.table r).entries.flatMap fun e => [e.keyValue, e.value]

/-- The values directly in a value. -/
def inner (v : Value) : List Value := ((v.collection? w).map s.items).getD []

/-- The second collection is in the first. -/
def Points (c c' : Collection) : Prop := ∃ v ∈ s.items c, v.collection? w = some c'

/-- There is a path from the value to the collection. -/
def Reaches (v : Value) (c : Collection) : Prop :=
  ∃ c₀, v.collection? w = some c₀ ∧ Relation.ReflTransGen (s.Points w) c₀ c

/-- No array or hash that the value reaches is reached from itself. -/
def Acyclic (v : Value) : Prop :=
  ∀ c, s.Reaches w v c → ¬ Relation.TransGen (s.Points w) c c

/-- At most `depth` collections that hold something lie inside each other. -/
def Within : (depth : Nat) → Value → Prop
  | 0, v => s.inner w v = []
  | depth + 1, v => ∀ u ∈ s.inner w v, Within depth u

variable {s w} {u v : Value} {c c' : Collection}

/-! ## One step down -/

theorem mem_inner : u ∈ s.inner w v ↔ ∃ c, v.collection? w = some c ∧ u ∈ s.items c := by
  unfold inner
  cases v.collection? w <;> simp

/-- A value reaches its own collection and what the values in it reach. -/
theorem reaches_iff :
    s.Reaches w v c ↔ v.collection? w = some c ∨ ∃ u ∈ s.inner w v, s.Reaches w u c := by
  constructor
  · rintro ⟨c₀, hv, hpath⟩
    cases hpath.cases_head with
    | inl heq => exact .inl (heq ▸ hv)
    | inr h =>
      obtain ⟨c₁, ⟨u, hu, hc₁⟩, hrest⟩ := h
      exact .inr ⟨u, mem_inner.mpr ⟨c₀, hv, hu⟩, c₁, hc₁, hrest⟩
  · rintro (hv | ⟨u, hu, c₁, hc₁, hrest⟩)
    · exact ⟨c, hv, .refl⟩
    · obtain ⟨c₀, hv, hu⟩ := mem_inner.mp hu
      exact ⟨c₀, hv, hrest.head ⟨u, hu, hc₁⟩⟩

theorem Reaches.of_inner (hu : u ∈ s.inner w v) (h : s.Reaches w u c) : s.Reaches w v c :=
  reaches_iff.mpr (.inr ⟨u, hu, h⟩)

/-- A value reaches what the items of a collection that it reaches do. -/
theorem Reaches.of_items (hc : s.Reaches w v c) (hu : u ∈ s.items c) (h : s.Reaches w u c') :
    s.Reaches w v c' := by
  obtain ⟨c₀, hv, hfirst⟩ := hc
  obtain ⟨c₁, hc₁, hrest⟩ := h
  exact ⟨c₀, hv, hfirst.trans (hrest.head ⟨u, hu, hc₁⟩)⟩

theorem Reaches.points (h : s.Reaches w v c) (hc : s.Points w c c') : s.Reaches w v c' := by
  obtain ⟨c₀, hv, hpath⟩ := h
  exact ⟨c₀, hv, hpath.tail hc⟩

theorem Acyclic.of_inner (h : s.Acyclic w v) (hu : u ∈ s.inner w v) : s.Acyclic w u :=
  fun c hc => h c (hc.of_inner hu)

/-- A value without a collection reaches nothing. -/
theorem not_reaches_of_none (h : v.collection? w = none) : ¬ s.Reaches w v c := by
  rintro ⟨c₀, hv, -⟩
  rw [h] at hv
  cases hv

/-! ## Walks that end -/

variable (s) in
/-- All numbers of arrays and hashes. -/
def numbers : Finset Collection :=
  (Finset.range s.arrays.size).image (fun i => .array ⟨i⟩) ∪
    (Finset.range s.tables.size).image fun i => .hash ⟨i⟩

theorem card_numbers_le : s.numbers.card ≤ s.collections := by
  refine (Finset.card_union_le _ _).trans (Nat.add_le_add ?_ ?_)
  · exact Finset.card_image_le.trans_eq (Finset.card_range _)
  · exact Finset.card_image_le.trans_eq (Finset.card_range _)

variable (s) in
/-- The store has the collection. -/
def Has : Collection → Prop
  | .array r => r.index < s.arrays.size
  | .hash r => r.index < s.tables.size

theorem mem_numbers : c ∈ s.numbers ↔ s.Has c := by
  rcases c with ⟨⟨i⟩⟩ | ⟨⟨i⟩⟩ <;> simp [numbers, Has]

/-- What is not in the store holds nothing. -/
theorem has_of_mem_items (h : u ∈ s.items c) : s.Has c := by
  by_contra hc
  cases c with
  | array r =>
    have hempty : s.array r = #[] := by simp [array, Nat.not_lt.mp hc]
    simp [items, hempty] at h
  | hash r =>
    have hempty : s.table r = .empty := by simp [table, Nat.not_lt.mp hc]
    simp [items, hempty, Table.entries, Table.empty] at h

variable (s w) in
def reached (v : Value) : Set Collection := {c | s.Reaches w v c}

variable (s w) in
/-- The collections that a value reaches and that hold something. -/
def filled (v : Value) : Set Collection := {c | s.Reaches w v c ∧ s.items c ≠ []}

theorem filled_subset_numbers : s.filled w v ⊆ s.numbers := by
  rintro c ⟨-, hitems⟩
  obtain ⟨u, hu⟩ := List.exists_mem_of_ne_nil _ hitems
  exact mem_numbers.mpr (has_of_mem_items hu)

theorem finite_filled : (s.filled w v).Finite :=
  s.numbers.finite_toSet.subset filled_subset_numbers

theorem ncard_filled_le : (s.filled w v).ncard ≤ s.collections := by
  have hle : (s.filled w v).ncard ≤ (s.numbers : Set Collection).ncard :=
    Set.ncard_le_ncard filled_subset_numbers s.numbers.finite_toSet
  rw [Set.ncard_coe_finset] at hle
  exact hle.trans card_numbers_le

/-- A value reaches its own collection and those in filled ones. -/
theorem finite_reached : (s.reached w v).Finite := by
  have hitems : ∀ c, {c' | s.Points w c c'}.Finite := fun c => by
    refine ((s.items c).filterMap (·.collection? w)).finite_toSet.subset ?_
    rintro c' ⟨u, hu, hc'⟩
    exact List.mem_filterMap.mpr ⟨u, hu, hc'⟩
  have hfilled : (s.filled w v).Finite := finite_filled
  refine ((v.collection? w).toFinset.finite_toSet.union
    (hfilled.biUnion fun c _ => hitems c)).subset ?_
  rintro c ⟨c₀, hv, hpath⟩
  cases hpath.cases_tail with
  | inl heq => exact .inl (by simp [heq, hv])
  | inr h =>
    obtain ⟨c', hc', u, hu, hc⟩ := h
    exact .inr (Set.mem_biUnion ⟨⟨c₀, hv, hc'⟩, List.ne_nil_of_mem hu⟩ ⟨u, hu, hc⟩)

theorem ncard_filled_le_reached : (s.filled w v).ncard ≤ (s.reached w v).ncard :=
  Set.ncard_le_ncard (fun _ hc => hc.1) finite_reached

/-- On a step down from an acyclic value its own collection is left behind. -/
theorem Acyclic.ncard_filled_lt (h : s.Acyclic w v) (hu : u ∈ s.inner w v) :
    (s.filled w u).ncard < (s.filled w v).ncard := by
  obtain ⟨c, hc, hitem⟩ := mem_inner.mp hu
  have hself : s.Reaches w v c := ⟨c, hc, .refl⟩
  refine Set.ncard_lt_ncard ⟨fun c' hc' => ⟨hc'.1.of_inner hu, hc'.2⟩, fun hsub => ?_⟩
    finite_filled
  obtain ⟨⟨c₁, hc₁, hpath⟩, -⟩ := hsub ⟨hself, List.ne_nil_of_mem hitem⟩
  exact h c hself (.head' ⟨u, hitem, hc₁⟩ hpath)

theorem Acyclic.within {depth : Nat} (h : s.Acyclic w v) (hdepth : (s.filled w v).ncard ≤ depth) :
    s.Within w depth v := by
  induction depth generalizing v with
  | zero =>
    refine List.eq_nil_iff_forall_not_mem.mpr fun u hu => ?_
    have hlt := h.ncard_filled_lt hu
    omega
  | succ depth ih =>
    intro u hu
    have hlt := h.ncard_filled_lt hu
    exact ih (h.of_inner hu) (by omega)

/-- From a value through which a walk ends no path comes back to itself. -/
theorem Within.acyclic {depth : Nat} (h : s.Within w depth v) : s.Acyclic w v := by
  intro c hreach hcycle
  induction depth generalizing v with
  | zero =>
    obtain ⟨c', ⟨u, hu, -⟩, -⟩ := Relation.TransGen.head'_iff.mp hcycle
    rcases reaches_iff.mp hreach with hv | ⟨u', hu', -⟩
    · exact List.not_mem_nil (h ▸ mem_inner.mpr ⟨c, hv, hu⟩)
    · exact List.not_mem_nil (h ▸ hu')
  | succ depth ih =>
    rcases reaches_iff.mp hreach with hv | ⟨u, hu, hrest⟩
    · -- A step along the cycle leads to a value that is nested less deeply.
      obtain ⟨c', ⟨u, hu, hc'⟩, hback⟩ := Relation.TransGen.head'_iff.mp hcycle
      exact ih (h u (mem_inner.mpr ⟨c, hv, hu⟩)) ⟨c', hc', hback⟩
    · exact ih (h u hu) hrest

theorem acyclic_iff_within : s.Acyclic w v ↔ s.Within w s.collections v :=
  ⟨fun h => h.within ncard_filled_le, Within.acyclic⟩

instance decidableWithin : ∀ (depth : Nat) (v : Value), Decidable (s.Within w depth v)
  | 0, v => decidable_of_iff ((s.inner w v).isEmpty = true) List.isEmpty_iff
  | depth + 1, v =>
    have := fun u : Value => decidableWithin depth u
    inferInstanceAs (Decidable (∀ u ∈ s.inner w v, s.Within w depth u))

instance : Decidable (s.Acyclic w v) := decidable_of_iff _ acyclic_iff_within.symm

theorem Within.succ : ∀ {depth : Nat} {v : Value}, s.Within w depth v → s.Within w (depth + 1) v
  | 0, v, h => fun u hu => by
    rw [Within] at h
    rw [h] at hu
    cases hu
  | _ + 1, _, h => fun u hu => (h u hu).succ

theorem Within.mono {depth depth' : Nat} (hle : depth ≤ depth') (h : s.Within w depth v) :
    s.Within w depth' v := by
  induction hle with
  | refl => exact h
  | step _ ih => exact ih.succ

/-! ## Snapshots -/

theorem isSome_mapM {α β : Type} {f : α → Option β} : ∀ {xs : List α},
    (xs.mapM f).isSome = true ↔ ∀ x ∈ xs, (f x).isSome = true
  | [] => by simp
  | x :: xs => by
    have ih : (xs.mapM f).isSome = true ↔ ∀ x ∈ xs, (f x).isSome = true := isSome_mapM
    rw [List.mapM_cons, List.forall_mem_cons, ← ih]
    cases f x with
    | none => simp
    | some y => cases xs.mapM f <;> simp

theorem mapM_eq_of_forall₂ {α β γ : Type} {f : α → Option γ} {g : β → Option γ} {as : List α}
    {bs : List β} (h : List.Forall₂ (fun a b => f a = g b) as bs) : as.mapM f = bs.mapM g := by
  induction h with
  | nil => rfl
  | cons hab _ ih => rw [List.mapM_cons, List.mapM_cons, hab, ih]

theorem map_eq_map_of_forall₂ {α β γ : Type} {f : α → γ} {g : β → γ} {as : List α} {bs : List β}
    (h : List.Forall₂ (fun a b => f a = g b) as bs) : as.map f = bs.map g := by
  have hsame : List.Forall₂ Eq (as.map f) (bs.map g) := by
    rw [List.forall₂_map_left_iff, List.forall₂_map_right_iff]
    exact h
  rwa [List.forall₂_eq_eq_eq] at hsame

/-- A snapshot is there if those of the inner values are. -/
theorem isSome_snapshotOf {inner : Value → Option Snapshot} : ∀ v : Value,
    (s.snapshotOf inner v).isSome = true ↔ ∀ u ∈ s.inner .showing v, (inner u).isSome = true
  | .array r _ => by
    rw [snapshotOf, Option.isSome_map, isSome_mapM]
    rfl
  | .hash r _ => by
    have hpair : ∀ e, (snapshotOf.pairOf inner e).isSome = true ↔
        (inner e.keyValue).isSome = true ∧ (inner e.value).isSome = true := by
      intro e
      unfold snapshotOf.pairOf
      cases inner e.keyValue with
      | none => simp
      | some k => cases inner e.value <;> simp
    have hitems : s.inner .showing (.hash r ‹_›) =
      (s.table r).entries.flatMap fun e => [e.keyValue, e.value] := rfl
    rw [snapshotOf, Option.isSome_map, isSome_mapM, hitems]
    simp only [hpair, List.forall_mem_flatMap, List.forall_mem_cons, List.not_mem_nil,
      false_implies, implies_true, and_true]
  | .returned _ v _ => by
    rw [snapshotOf, Option.isSome_map]
    exact isSome_snapshotOf v
  | .null | .bool _ | .int _ _ | .float _ _ | .string _ _ | .function _ | .builtin _
  | .break _ _ | .continue _ _ => by simp [snapshotOf, Store.inner, Value.collection?]

/-- **A snapshot of a depth is there if a walk of that depth ends.** -/
theorem isSome_snapshotWithin_iff {depth : Nat} :
    (s.snapshotWithin depth v).isSome = true ↔ s.Within .showing depth v := by
  induction depth generalizing v with
  | zero =>
    rw [snapshotWithin, isSome_snapshotOf, Within, List.eq_nil_iff_forall_not_mem]
    simp
  | succ depth ih =>
    rw [snapshotWithin, isSome_snapshotOf, Within]
    simp only [ih]

theorem isSome_snapshot?_iff : (s.snapshot? v).isSome = true ↔ s.Acyclic .showing v := by
  rw [snapshot?, isSome_snapshotWithin_iff, acyclic_iff_within]

/-! ## Stores that agree -/

variable (s) in
/-- The other store has the same in the collection. -/
def Same (t : Store) : Collection → Prop
  | .array r => t.array r = s.array r
  | .hash r => t.table r = s.table r

variable (s w) in
/-- The other store has the same in all that the value reaches. -/
def Agrees (t : Store) (v : Value) : Prop := ∀ c, s.Reaches w v c → s.Same t c

variable {t : Store}

theorem Same.items (h : s.Same t c) : t.items c = s.items c := by
  cases c with
  | array r => exact congrArg Array.toList h
  | hash r => exact congrArg (fun t => t.entries.flatMap fun e => [e.keyValue, e.value]) h

theorem Same.points_iff (h : s.Same t c) : t.Points w c c' ↔ s.Points w c c' := by
  rw [Points, Points, h.items]

theorem Same.refl (s : Store) (c : Collection) : s.Same s c := by
  cases c <;> rfl

theorem Same.trans {t' : Store} (h : s.Same t c) (h' : t.Same t' c) : s.Same t' c := by
  cases c with
  | array r => exact Eq.trans h' h
  | hash r => exact Eq.trans h' h

/-- Snapshots of one value agree if its collection is the same and those of the inner values
agree. -/
theorem snapshotOf_congr {inner inner' : Value → Option Snapshot} : ∀ {v : Value},
    (∀ c, v.collection? .showing = some c → s.Same t c) →
      (∀ u ∈ s.inner .showing v, inner' u = inner u) →
        t.snapshotOf inner' v = s.snapshotOf inner v
  | .array r _, hsame, hinner => by
    have harray : t.array r = s.array r := hsame _ rfl
    have helements : ∀ u ∈ (s.array r).toList, inner' u = inner u := hinner
    rw [snapshotOf, snapshotOf, harray, mapM_eq_of_forall₂ (List.forall₂_same.mpr helements)]
  | .hash r _, hsame, hinner => by
    have htable : t.table r = s.table r := hsame _ rfl
    have hpairs : ∀ e ∈ (s.table r).entries,
        snapshotOf.pairOf inner' e = snapshotOf.pairOf inner e := by
      intro e he
      have hmem : ∀ u ∈ [e.keyValue, e.value], inner' u = inner u := fun u hu =>
        hinner u (List.mem_flatMap.mpr ⟨e, he, hu⟩)
      rw [snapshotOf.pairOf, snapshotOf.pairOf, hmem _ (by simp), hmem _ (by simp)]
    rw [snapshotOf, snapshotOf, htable, mapM_eq_of_forall₂ (List.forall₂_same.mpr hpairs)]
  | .returned _ v _, hsame, hinner => by
    rw [snapshotOf, snapshotOf]
    exact congrArg _ (snapshotOf_congr (v := v) hsame hinner)
  | .null, _, _ | .bool _, _, _ | .int _ _, _, _ | .float _ _, _, _ | .string _ _, _, _
  | .function _, _, _ | .builtin _, _, _ | .break _ _, _, _ | .continue _ _, _, _ => rfl

/-- More depth than is needed changes nothing. -/
theorem Within.snapshotWithin_succ {depth : Nat} (h : s.Within .showing depth v) :
    s.snapshotWithin (depth + 1) v = s.snapshotWithin depth v := by
  induction depth generalizing v with
  | zero =>
    refine snapshotOf_congr (fun c _ => .refl s c) fun u hu => ?_
    rw [Within] at h
    rw [h] at hu
    cases hu
  | succ depth ih => exact snapshotOf_congr (fun c _ => .refl s c) fun u hu => ih (h u hu)

theorem Within.snapshotWithin_eq {depth depth' : Nat} (hle : depth ≤ depth')
    (h : s.Within .showing depth v) : s.snapshotWithin depth' v = s.snapshotWithin depth v := by
  induction hle with
  | refl => rfl
  | @step depth' hle ih => rw [(h.mono hle).snapshotWithin_succ, ih]

/-- The bound on the depth of a snapshot leaves nothing out. -/
theorem snapshot?_eq_some_iff {x : Snapshot} :
    s.snapshot? v = some x ↔ ∃ depth, s.snapshotWithin depth v = some x := by
  refine ⟨fun h => ⟨_, h⟩, fun ⟨depth, h⟩ => ?_⟩
  have hwithin : s.Within .showing depth v :=
    isSome_snapshotWithin_iff.mp (by rw [h, Option.isSome_some])
  have hbound : s.Within .showing s.collections v := acyclic_iff_within.mp hwithin.acyclic
  rw [snapshot?, ← hbound.snapshotWithin_eq (Nat.le_max_right depth _),
    hwithin.snapshotWithin_eq (Nat.le_max_left _ _), h]

/-- Enough depth for an acyclic value gives its snapshot. -/
theorem Within.snapshot?_eq {depth : Nat} (h : s.Within .showing depth v) :
    s.snapshot? v = s.snapshotWithin depth v := by
  have hsome := isSome_snapshotWithin_iff.mpr h
  obtain ⟨x, hx⟩ := Option.isSome_iff_exists.mp hsome
  rw [hx]
  exact snapshot?_eq_some_iff.mpr ⟨depth, hx⟩

/-- A greater bound on the depth of a snapshot gives the same. -/
theorem snapshotWithin_of_le {depth : Nat} (hle : s.collections ≤ depth) (v : Value) :
    s.snapshotWithin depth v = s.snapshot? v := by
  by_cases h : s.Acyclic .showing v
  · exact (acyclic_iff_within.mp h).snapshotWithin_eq hle
  · have hdeep : (s.snapshotWithin depth v).isSome ≠ true := fun hsome =>
      h (isSome_snapshotWithin_iff.mp hsome).acyclic
    have hbound : (s.snapshot? v).isSome ≠ true := fun hsome => h (isSome_snapshot?_iff.mp hsome)
    rw [Option.not_isSome_iff_eq_none.mp hdeep, Option.not_isSome_iff_eq_none.mp hbound]

/-- A snapshot is put together from those of the inner values. -/
theorem snapshot?_eq (v : Value) : s.snapshot? v = s.snapshotOf s.snapshot? v :=
  (snapshotWithin_of_le (Nat.le_succ _) v).symm

namespace Agrees

theorem of_inner (h : s.Agrees w t v) (hu : u ∈ s.inner w v) : s.Agrees w t u :=
  fun c hc => h c (hc.of_inner hu)

theorem inner_eq (h : s.Agrees w t v) : t.inner w v = s.inner w v := by
  unfold inner
  cases hv : v.collection? w with
  | none => rfl
  | some c =>
    have hsame := h c ⟨c, hv, .refl⟩
    rw [Option.map_some, Option.map_some, hsame.items]

theorem reaches_iff (h : s.Agrees w t v) : t.Reaches w v c ↔ s.Reaches w v c := by
  constructor
  · rintro ⟨c₀, hv, hpath⟩
    refine ⟨c₀, hv, ?_⟩
    induction hpath with
    | refl => exact .refl
    | tail _ hpoints ih => exact ih.tail ((h _ ⟨c₀, hv, ih⟩).points_iff.mp hpoints)
  · rintro ⟨c₀, hv, hpath⟩
    refine ⟨c₀, hv, ?_⟩
    induction hpath with
    | refl => exact .refl
    | tail hpath hpoints ih => exact ih.tail ((h _ ⟨c₀, hv, hpath⟩).points_iff.mpr hpoints)

theorem trans {t' : Store} (h : s.Agrees w t v) (h' : t.Agrees w t' v) : s.Agrees w t' v :=
  fun c hc => (h c hc).trans (h' c (h.reaches_iff.mpr hc))

theorem within_iff {depth : Nat} (h : s.Agrees w t v) :
    t.Within w depth v ↔ s.Within w depth v := by
  induction depth generalizing v with
  | zero => rw [Within, Within, h.inner_eq]
  | succ depth ih =>
    rw [Within, Within, h.inner_eq]
    exact forall₂_congr fun u hu => ih (h.of_inner hu)

theorem acyclic_iff (h : s.Agrees w t v) : t.Acyclic w v ↔ s.Acyclic w v := by
  have hends : ∀ s : Store, s.Acyclic w v ↔ ∃ depth, s.Within w depth v := fun s =>
    ⟨fun hs => ⟨_, acyclic_iff_within.mp hs⟩, fun ⟨_, hs⟩ => hs.acyclic⟩
  rw [hends, hends]
  exact exists_congr fun depth => h.within_iff

theorem snapshotWithin_eq {depth : Nat} (h : s.Agrees .showing t v) :
    t.snapshotWithin depth v = s.snapshotWithin depth v := by
  have hsame : ∀ {v}, s.Agrees .showing t v → ∀ c, v.collection? .showing = some c → s.Same t c :=
    fun h c hv => h c ⟨c, hv, .refl⟩
  induction depth generalizing v with
  | zero => exact snapshotOf_congr (hsame h) fun _ _ => rfl
  | succ depth ih => exact snapshotOf_congr (hsame h) fun u hu => ih (h.of_inner hu)

/-- **What is not reached does not show.** -/
theorem snapshot?_eq (h : s.Agrees .showing t v) : t.snapshot? v = s.snapshot? v := by
  refine Option.ext fun x => ?_
  simp only [snapshot?_eq_some_iff, h.snapshotWithin_eq]

theorem inspect?_eq (h : s.Agrees .showing t v) : t.inspect? v = s.inspect? v := by
  rw [inspect?, inspect?, h.snapshot?_eq]

end Agrees

end Store

end Vorn
