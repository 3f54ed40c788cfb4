import Vorn.Proofs.Store.Reach

/-!
# Values that contain themselves

The parts of a value are the elements of its array or the keys and values of its hash, and a value
is inside another if it is a part of it, or a part of a part, and so on (`Store.Inside`). A value is
clear if nothing about it contains itself: neither the value nor anything inside it.

A value that contains itself is one on a path of arrays and hashes back to itself
(`Store.clear_iff`), so the clear values are those that can be shown (`Store.inspect?_isSome_iff`).
-/

namespace Vorn.Store

variable (s : Store)

/-- The values directly in a value. A `return` signal is seen through. -/
def parts : Value → List Value
  | .array r _ => (s.array r).toList
  | .hash r _ => (s.table r).entries.flatMap fun e => [e.keyValue, e.value]
  | .returned _ v _ => parts v
  | _ => []

/-- `w` is inside the value: a part of it, or inside a part of it. -/
inductive Inside (w : Value) : Value → Prop
  | part {v : Value} (h : w ∈ s.parts v) : Inside w v
  | deeper {u v : Value} (h : u ∈ s.parts v) (hu : Inside w u) : Inside w v

/-- Neither the value nor any value inside it contains itself. -/
def Clear (v : Value) : Prop := ∀ w, w = v ∨ s.Inside w v → ¬ s.Inside w w

variable {s}

theorem parts_eq_inner : ∀ v : Value, s.parts v = s.inner .showing v
  | .array _ _ | .hash _ _ => rfl
  | .returned _ v _ => parts_eq_inner v
  | .null | .bool _ | .int _ _ | .float _ _ | .string _ _ | .function _ | .builtin _ | .break _ _
  | .continue _ _ => rfl

/-- What is inside a value is held by a collection that it reaches. -/
theorem inside_iff {v w : Value} :
    s.Inside w v ↔ ∃ c, s.Reaches .showing v c ∧ w ∈ s.items c := by
  constructor
  · intro h
    induction h with
    | part h =>
      rw [parts_eq_inner] at h
      obtain ⟨c, hv, hw⟩ := mem_inner.mp h
      exact ⟨c, ⟨c, hv, .refl⟩, hw⟩
    | deeper h _ ih =>
      rw [parts_eq_inner] at h
      obtain ⟨c, hu, hw⟩ := ih
      exact ⟨c, hu.of_inner h, hw⟩
  · rintro ⟨c, ⟨c₀, hv, hpath⟩, hw⟩
    induction hpath using Relation.ReflTransGen.head_induction_on generalizing v with
    | refl => exact .part (parts_eq_inner v ▸ mem_inner.mpr ⟨c, hv, hw⟩)
    | head hpoints _ ih =>
      obtain ⟨u, hu, hc⟩ := hpoints
      exact .deeper (parts_eq_inner v ▸ mem_inner.mpr ⟨_, hv, hu⟩) (ih hc)

/-- Nothing about a value contains itself if no path from it comes back. -/
theorem clear_iff {v : Value} : s.Clear v ↔ s.Acyclic .showing v := by
  constructor
  · intro h c hc hcycle
    -- The value through which the cycle comes back contains itself.
    obtain ⟨c', hpath, u, hu, hback⟩ := Relation.TransGen.tail'_iff.mp hcycle
    obtain ⟨c₀, hv, hc⟩ := hc
    exact h u (.inr (inside_iff.mpr ⟨c', ⟨c₀, hv, hc.trans hpath⟩, hu⟩))
      (inside_iff.mpr ⟨c', ⟨c, hback, hpath⟩, hu⟩)
  · intro h w hw hself
    obtain ⟨c, ⟨c₀, hc₀, hpath⟩, hmem⟩ := inside_iff.mp hself
    have hreach : s.Reaches .showing v c₀ := by
      rcases hw with rfl | hw
      · exact ⟨c₀, hc₀, .refl⟩
      · obtain ⟨c', hc', hw⟩ := inside_iff.mp hw
        exact hc'.points ⟨w, hw, hc₀⟩
    exact h c₀ hreach (.tail' hpath ⟨w, hmem, hc₀⟩)

/-- A binding changes no array and no hash. -/
theorem Clear.bind {v : Value} (h : s.Clear v) (r : ScopeRef) (name : String) (u : Value) :
    (s.bind r name u).Clear v := by
  have hagrees : s.Agrees .showing (s.bind r name u) v := fun c _ => by cases c <;> rfl
  exact clear_iff.mpr (hagrees.acyclic_iff.mpr (clear_iff.mp h))

/-- **The clear values are those that can be shown.** -/
theorem inspect?_isSome_iff {v : Value} : (s.inspect? v).isSome = true ↔ s.Clear v := by
  rw [inspect?, Option.isSome_map, isSome_snapshot?_iff, clear_iff]

instance (v : Value) : Decidable (s.Clear v) :=
  decidable_of_iff ((s.inspect? v).isSome = true) inspect?_isSome_iff

end Vorn.Store
