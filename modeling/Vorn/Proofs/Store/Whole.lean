import Vorn.Proofs.Scopes
import Vorn.Proofs.Store.Apart

/-!
# Whole stores

A store is whole if every reference in it leads into it, those in bindings too, and its hashes are
well-formed (`Store.Whole`). Nothing that a run can do to a whole store makes a reference that leads
out of it, if it puts into the store only what the store owns (`Store.Owns`): the lemmas below go
through the changes one by one. No array and no hash ever vanishes (`Store.Lasts`), so what is
owned once is owned for good.
-/

namespace Vorn

namespace Table

variable {t : Table} {k : Key} {pos : Pos} {v u : Value}

/-- The values of a hash, without its keys. -/
def held (t : Table) : List Value := t.entries.map (·.value)

theorem mem_held_insert (hu : u ∈ (t.insert k pos v).held) : u ∈ t.held ∨ u = v := by
  obtain ⟨e, he, rfl⟩ := List.mem_map.mp hu
  exact forall_mem_insert (P := fun e => e.value ∈ t.held ∨ e.value = v)
    (fun _ he => .inl (List.mem_map_of_mem he)) (.inr rfl) (fun _ _ => .inr rfl) e he

theorem mem_held_foldl_insert {es : List Entry}
    (hu : u ∈ (es.foldl (fun t e => t.insert e.key e.pos e.value) t).held) :
    u ∈ t.held ∨ u ∈ es.map (·.value) := by
  induction es generalizing t with
  | nil => exact .inl hu
  | cons e es ih =>
    rw [List.map_cons, List.mem_cons]
    rcases ih hu with hu | hu
    · rcases mem_held_insert hu with hu | rfl
      · exact .inl hu
      · exact .inr (.inl rfl)
    · exact .inr (.inr hu)

/-- What a look-up finds is in the hash. -/
theorem mem_held_of_get? (hget : t.get? k = some u) : u ∈ t.held := by
  obtain ⟨e, he, -, rfl⟩ := exists_of_get? hget
  exact List.mem_map_of_mem he

end Table

namespace Store

variable {s t u : Store} {v : Value} {c : Collection}

/-- The array or hash that the value is, or that it wraps, is in the store. -/
def Owns (s : Store) (v : Value) : Prop := ∀ c, v.collection? .showing = some c → s.Has c

theorem Owns.of_none (h : v.collection? .showing = none) : s.Owns v := by
  intro c hc
  rw [h] at hc
  cases hc

/-- All arrays and hashes of the first store are in the second. -/
def Lasts (s t : Store) : Prop := ∀ c, s.Has c → t.Has c

theorem Lasts.refl (s : Store) : s.Lasts s := fun _ h => h

theorem Lasts.trans (h : s.Lasts t) (h' : t.Lasts u) : s.Lasts u := fun c hc => h' c (h c hc)

theorem Grows.lasts (h : s.Grows t) : s.Lasts t := fun _ => h.has

theorem lasts_modifyArray (s : Store) (r : ArrayRef) (f : Array Value → Array Value) :
    s.Lasts (s.modifyArray r f) := by
  intro c hc
  cases c with
  | array r' => simpa [Has, modifyArray] using hc
  | hash r' => exact hc

theorem Owns.lasts (h : s.Owns v) (hst : s.Lasts t) : t.Owns v := fun c hc => hst c (h c hc)

/-- Every reference in the store leads into it, and its hashes are well-formed. -/
structure Whole (s : Store) : Prop extends s.Sound where
  bindings : s.scopes.All s.Owns

namespace Whole

theorem belongs (h : s.Whole) (hv : s.Owns v) : s.Belongs v := h.toSound.belongs hv

theorem owns_array (h : s.Whole) (r : ArrayRef) : ∀ v ∈ s.array r, s.Owns v :=
  fun v hv => h.refers (.array r) v (Array.mem_toList_iff.mpr hv)

theorem owns_held (h : s.Whole) (r : TableRef) : ∀ v ∈ (s.table r).held, s.Owns v := by
  intro v hv
  obtain ⟨e, he, rfl⟩ := List.mem_map.mp hv
  exact h.refers (.hash r) e.value (List.mem_flatMap.mpr ⟨e, he, by simp⟩)

theorem newArray (h : s.Whole) {vs : Array Value} (hvs : ∀ v ∈ vs, s.Owns v) :
    (s.newArray vs).2.Whole := by
  have hgrows := Grows.newArray s vs
  refine ⟨⟨fun c u hu => ?_, h.wellFormed⟩,
    h.bindings.imp fun _ hv => hv.lasts hgrows.lasts⟩
  by_cases hc : s.Has c
  · rw [(hgrows.same hc).items] at hu
    exact Owns.lasts (h.refers c u hu) hgrows.lasts
  · cases c with
    | array r =>
      have hnew : r.index < s.arrays.size + 1 := by
        simpa [Has, Store.newArray] using has_of_mem_items hu
      have hr : r.index = s.arrays.size := by
        have hold : ¬ r.index < s.arrays.size := hc
        omega
      have hmem : u ∈ vs := by simpa [items, Store.newArray, Store.array, hr] using hu
      exact (hvs u hmem).lasts hgrows.lasts
    | hash r => exact absurd (has_of_mem_items hu) hc

theorem newTable (h : s.Whole) {t : Table} (ht : t.WellFormed) (hvs : ∀ v ∈ t.held, s.Owns v) :
    (s.newTable t).2.Whole := by
  have hgrows := Grows.newTable s t
  have htable : ∀ r : TableRef, ¬ r.index < s.tables.size →
      (s.newTable t).2.table r = t ∨ (s.newTable t).2.table r = .empty := by
    intro r hr
    rcases Nat.eq_or_lt_of_le (Nat.not_lt.mp hr) with heq | hlt
    · exact .inl (by simp [Store.newTable, Store.table, ← heq])
    · refine .inr ?_
      have hsize : (s.tables.push t).size ≤ r.index := by simpa using hlt
      simp [Store.newTable, Store.table, Array.getD_eq_getD_getElem?,
        Array.getElem?_eq_none hsize]
  refine ⟨⟨fun c u hu => ?_, fun r => ?_⟩,
    h.bindings.imp fun _ hv => hv.lasts hgrows.lasts⟩
  · by_cases hc : s.Has c
    · rw [(hgrows.same hc).items] at hu
      exact Owns.lasts (h.refers c u hu) hgrows.lasts
    · cases c with
      | array r => exact absurd (has_of_mem_items hu) hc
      | hash r =>
        obtain ⟨e, he, hue⟩ := List.mem_flatMap.mp hu
        rcases htable r hc with heq | heq
        · rw [heq] at he
          obtain rfl | rfl := List.mem_pair.mp hue
          · exact Owns.of_none (e.key.collection?_value e.pos)
          · exact (hvs e.value (List.mem_map_of_mem he)).lasts hgrows.lasts
        · rw [heq] at he
          cases he
  · by_cases hr : r.index < s.tables.size
    · rw [hgrows.table_eq hr]
      exact h.wellFormed r
    · rcases htable r hr with heq | heq
      · rw [heq]
        exact ht
      · rw [heq]
        exact Table.wellFormed_empty

theorem modifyArray (h : s.Whole) (r : ArrayRef) {f : Array Value → Array Value}
    (hf : ∀ v ∈ f (s.array r), s.Owns v) : (s.modifyArray r f).Whole := by
  have hlasts := lasts_modifyArray s r f
  refine ⟨⟨fun c u hu => ?_, h.wellFormed⟩,
    h.bindings.imp fun _ hv => hv.lasts hlasts⟩
  by_cases hc : c = .array r
  · subst hc
    have hr : r.index < s.arrays.size := by simpa [Has, Store.modifyArray] using has_of_mem_items hu
    have hmem : u ∈ f (s.array r) := by
      simpa [items, Store.modifyArray, Store.array, hr, Array.getElem_modify] using hu
    exact (hf u hmem).lasts hlasts
  · rw [(same_modifyArray f hc).items] at hu
    exact Owns.lasts (h.refers c u hu) hlasts

theorem newId (h : s.Whole) : s.newId.2.Whole := ⟨⟨h.refers, h.wellFormed⟩, h.bindings⟩

theorem enclose (h : s.Whole) (r : ScopeRef) : (s.enclose r).2.Whole :=
  ⟨⟨h.refers, h.wellFormed⟩, Scopes.All.enclose h.bindings r⟩

theorem bind (h : s.Whole) (r : ScopeRef) (name : String) (hv : s.Owns v) :
    (s.bind r name v).Whole :=
  ⟨⟨h.refers, h.wellFormed⟩, Scopes.All.set h.bindings r name hv⟩

/-- The store before anything ran. -/
theorem start : Whole {} := by
  refine ⟨⟨fun c u hu => ?_, fun r => Table.wellFormed_empty⟩, Scopes.All.initial⟩
  cases c <;> exact absurd (has_of_mem_items hu) (Nat.not_lt_zero _)

end Whole

end Store

end Vorn
