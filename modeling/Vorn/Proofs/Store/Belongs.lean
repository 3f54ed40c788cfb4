import Vorn.Proofs.Store.Growth
import Vorn.Proofs.Store.Reach
import Vorn.Proofs.Store.Table

/-!
# The values of a store

The values of a store belong to it: all that they reach is there (`Store.Belongs`), as it is if all
references in the store lead into it (`Store.Sound`). What belongs to a store neither sees nor loses
anything when the store grows (`Store.Belongs.agrees`), or when a change leaves alone all that it
reaches (`Store.Preserves`). A value is plain if no `return` signal is in
it; then showing and copying walk through the same (`Store.Plain.reaches_iff`).
-/

namespace Vorn.Store

variable {s t : Store} {w : Walk} {u v : Value} {c : Collection}

/-- All that the value reaches is in the store, and the hashes among it are well-formed. -/
structure Belongs (s : Store) (v : Value) : Prop where
  has : ∀ c, s.Reaches .showing v c → s.Has c
  wellFormed : ∀ r, s.Reaches .showing v (.hash r) → (s.table r).WellFormed

theorem collection?_showing : ∀ {v : Value}, v.collection? w = some c →
    v.collection? .showing = some c
  | .array _ _, h | .hash _ _, h => h
  | .returned _ _ _, h => by
    cases w with
    | showing => exact h
    | copying => cases h

theorem Reaches.showing (h : s.Reaches w v c) : s.Reaches .showing v c := by
  obtain ⟨c₀, hv, hpath⟩ := h
  have hpoints : ∀ c c', s.Points w c c' → s.Points .showing c c' := by
    rintro c c' ⟨u, hu, hc'⟩
    exact ⟨u, hu, collection?_showing hc'⟩
  exact ⟨c₀, collection?_showing hv, Relation.ReflTransGen.mono hpoints _ _ hpath⟩

theorem Grows.has (h : s.Grows t) (hc : s.Has c) : t.Has c := by
  cases c with
  | array r => exact Nat.lt_of_lt_of_le hc h.arrays.length_le
  | hash r => exact Nat.lt_of_lt_of_le hc h.tables_size

theorem Grows.same (h : s.Grows t) (hc : s.Has c) : s.Same t c := by
  cases c with
  | array r => exact h.array_eq hc
  | hash r => exact h.table_eq hc

/-- The other store has all that the store has, and the same in all that the value reaches. -/
structure Preserves (s : Store) (v : Value) (t : Store) : Prop where
  has : ∀ c, s.Has c → t.Has c
  agrees : s.Agrees .showing t v

theorem Agrees.of_showing (h : s.Agrees .showing t v) : s.Agrees w t v :=
  fun c hc => h c hc.showing

theorem Preserves.belongs (h : s.Preserves v t) (hv : s.Belongs v) : t.Belongs v := by
  refine ⟨fun c hc => h.has c (hv.has c (h.agrees.reaches_iff.mp hc)), fun r hr => ?_⟩
  have hreach := h.agrees.reaches_iff.mp hr
  rw [h.agrees _ hreach]
  exact hv.wellFormed r hreach

namespace Belongs

theorem of_items (h : s.Belongs v) (hc : s.Reaches .showing v c) (hu : u ∈ s.items c) :
    s.Belongs u :=
  ⟨fun c' hc' => h.has c' (hc.of_items hu hc'), fun r hr => h.wellFormed r (hc.of_items hu hr)⟩

theorem of_inner (h : s.Belongs v) (hu : u ∈ s.inner w v) : s.Belongs u := by
  obtain ⟨c, hv, hu⟩ := mem_inner.mp hu
  exact h.of_items ⟨c, collection?_showing hv, .refl⟩ hu

/-- What belongs to a store sees no growth. -/
theorem agrees (h : s.Belongs v) (hgrows : s.Grows t) : s.Agrees w t v :=
  fun c hc => hgrows.same (h.has c hc.showing)

theorem preserved (h : s.Belongs v) (hgrows : s.Grows t) : s.Preserves v t :=
  ⟨fun _ => hgrows.has, h.agrees hgrows⟩

theorem grows (h : s.Belongs v) (hgrows : s.Grows t) : t.Belongs v :=
  (h.preserved hgrows).belongs h

theorem of_none (h : v.collection? .showing = none) : s.Belongs v :=
  ⟨fun _ hc => absurd hc (not_reaches_of_none h), fun _ hr => absurd hr (not_reaches_of_none h)⟩

end Belongs

/-- All references in the store lead into it, and its hashes are well-formed. -/
structure Sound (s : Store) : Prop where
  refers : ∀ c, ∀ u ∈ s.items c, ∀ c', u.collection? .showing = some c' → s.Has c'
  wellFormed : ∀ r, (s.table r).WellFormed

theorem Sound.belongs (h : s.Sound) (hv : ∀ c, v.collection? .showing = some c → s.Has c) :
    s.Belongs v := by
  refine ⟨?_, fun r _ => h.wellFormed r⟩
  rintro c ⟨c₀, hc₀, hpath⟩
  cases hpath.cases_tail with
  | inl heq => exact heq ▸ hv c₀ hc₀
  | inr hlast =>
    obtain ⟨c', -, u, hu, hc⟩ := hlast
    exact h.refers c' u hu c hc

/-- No `return` signal is in the value. -/
structure Plain (s : Store) (v : Value) : Prop where
  self : v.ty ≠ .returnValue
  items : ∀ c, s.Reaches .copying v c → ∀ u ∈ s.items c, u.ty ≠ .returnValue

namespace Plain

theorem collection?_eq : ∀ {v : Value}, v.ty ≠ .returnValue →
    v.collection? .showing = v.collection? .copying
  | .returned _ _ _, h => absurd rfl h
  | .null, _ | .bool _, _ | .int _ _, _ | .float _ _, _ | .string _ _, _ | .array _ _, _
  | .hash _ _, _ | .function _, _ | .builtin _, _ | .break _ _, _ | .continue _ _, _ => rfl

/-- Where there is no `return` signal, both walks reach the same. -/
theorem reaches_iff (h : s.Plain v) : s.Reaches .showing v c ↔ s.Reaches .copying v c := by
  refine ⟨?_, Reaches.showing⟩
  rintro ⟨c₀, hv, hpath⟩
  rw [collection?_eq h.self] at hv
  refine ⟨c₀, hv, ?_⟩
  induction hpath with
  | refl => exact .refl
  | tail _ hpoints ih =>
    obtain ⟨u, hu, hc⟩ := hpoints
    refine ih.tail ⟨u, hu, ?_⟩
    rw [← collection?_eq (h.items _ ⟨c₀, hv, ih⟩ u hu), hc]

theorem of_inner (h : s.Plain v) (hu : u ∈ s.inner .copying v) : s.Plain u := by
  obtain ⟨c, hv, hitem⟩ := mem_inner.mp hu
  exact ⟨h.items c ⟨c, hv, .refl⟩ u hitem, fun c' hc' => h.items c' (hc'.of_inner hu)⟩

theorem inner_eq (h : s.Plain v) : s.inner .showing v = s.inner .copying v := by
  rw [inner, inner, collection?_eq h.self]

theorem within {depth : Nat} (h : s.Plain v) (hends : s.Within .copying depth v) :
    s.Within .showing depth v := by
  induction depth generalizing v with
  | zero => exact h.inner_eq.trans hends
  | succ depth ih =>
    intro u hu
    rw [h.inner_eq] at hu
    exact ih (h.of_inner hu) (hends u hu)

/-- What can be copied can be shown. -/
theorem acyclic (h : s.Plain v) (hacyclic : s.Acyclic .copying v) : s.Acyclic .showing v :=
  (h.within (acyclic_iff_within.mp hacyclic)).acyclic

theorem of_agrees (h : s.Plain v) (hagrees : s.Agrees .copying t v) : t.Plain v := by
  refine ⟨h.self, fun c hc u hu => ?_⟩
  have hreach := hagrees.reaches_iff.mp hc
  rw [(hagrees c hreach).items] at hu
  exact h.items c hreach u hu

end Plain

end Vorn.Store
