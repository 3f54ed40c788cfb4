import Vorn.Proofs.Store.Growth
import Vorn.Proofs.Store.Table

/-!
# Copying, one part after the other

What follows from a copy that is found: its parts were found (`Store.Copy.bind_eq_some`,
`Store.Copy.mapM_eq_some`), and a copied array or hash is made of them, once they are all there
(`Store.copyOf_array_eq_some`, `Store.copyOf_hash_eq_some`).
-/

namespace Vorn

namespace Store

namespace Copy

variable {α β : Type}

theorem bind_eq_some {m : Copy α} {f : α → Copy β} {s s' : Store} {b : β}
    (h : (m >>= f).run s = (some b, s')) :
    ∃ a t, m.run s = (some a, t) ∧ (f a).run t = (some b, s') := by
  rw [run_bind] at h
  cases hrun : m.run s with
  | mk o t =>
    rw [hrun] at h
    cases o with
    | none => cases h
    | some a => exact ⟨a, t, rfl, h⟩

theorem mapM_cons_eq_some {f : α → Copy β} {a : α} {as : List α} {bs : List β} {s s' : Store}
    (h : ((a :: as).mapM f).run s = (some bs, s')) :
    ∃ b t bs', bs = b :: bs' ∧ (f a).run s = (some b, t) ∧ (as.mapM f).run t = (some bs', s') := by
  rw [List.mapM_cons] at h
  obtain ⟨b, t, hb, h⟩ := bind_eq_some h
  obtain ⟨bs', t', hbs, h⟩ := bind_eq_some h
  cases h
  exact ⟨b, t, bs', rfl, hb, hbs⟩

/-- Every element is mapped, in a store that has grown from the first and grows into the last. -/
theorem mapM_eq_some {f : α → Copy β} (hf : ∀ a, Copy.Grows (f a)) {as : List α} {bs : List β}
    {s s' : Store} (h : (as.mapM f).run s = (some bs, s')) :
    ∀ a ∈ as, ∃ b ∈ bs, ∃ t t', s.Grows t ∧ (f a).run t = (some b, t') ∧ t'.Grows s' := by
  induction as generalizing bs s with
  | nil => simp
  | cons a as ih =>
    obtain ⟨b, t, bs', rfl, hb, hbs⟩ := mapM_cons_eq_some h
    have hhead : s.Grows t := by simpa [hb] using hf a s
    have htail : t.Grows s' := by simpa [hbs] using Grows.mapM hf as t
    rw [List.forall_mem_cons]
    refine ⟨⟨b, by simp, s, t, .refl s, hb, htail⟩, fun a' ha' => ?_⟩
    obtain ⟨b', hb', u, u', hu, hrun, hu'⟩ := ih hbs a' ha'
    exact ⟨b', by simp [hb'], u, u', hhead.trans hu, hrun, hu'⟩

/-- What each mapping keeps of an element, mapping the list keeps of the list. -/
theorem map_eq_of_mapM {γ : Type} {f : α → Copy β} {g : β → γ} {g' : α → γ}
    (hg : ∀ a t b t', (f a).run t = (some b, t') → g b = g' a) {as : List α} {bs : List β}
    {s s' : Store} (h : (as.mapM f).run s = (some bs, s')) : bs.map g = as.map g' := by
  induction as generalizing bs s with
  | nil =>
    cases h
    rfl
  | cons a as ih =>
    obtain ⟨b, t, bs', rfl, hb, hbs⟩ := mapM_cons_eq_some h
    rw [List.map_cons, List.map_cons, hg a s b t hb, ih hbs]

theorem copyEntry_eq_some {inner : Value → Copy Value} {pos : Pos} {e e' : Entry} {t t' : Store}
    (h : (copyEntry inner pos e).run t = (some e', t')) :
    e'.key = e.key ∧ (inner e.value).run t = (some e'.value, t') := by
  obtain ⟨v, u, hv, h⟩ := bind_eq_some h
  cases h
  exact ⟨rfl, hv⟩

end Copy

/-! ## Arrays and hashes -/

section

variable {inner : Value → Copy Value} {pos p : Pos} {s s' : Store} {v : Value}

theorem run_copyOf_array (r : ArrayRef) : (copyOf inner pos (.array r p)).run s =
    match ((s.array r).toList.mapM inner).run s with
    | (some us, t) => (some (.array (t.newArray us.toArray).1 pos), (t.newArray us.toArray).2)
    | (none, t) => (none, t) := by
  change ((do
    let us ← (s.array r).toList.mapM inner
    return .array (← modifyGet (·.newArray us.toArray)) pos : Copy Value)).run s = _
  rw [Copy.run_bind]
  cases (((s.array r).toList.mapM inner).run s : Option (List Value) × Store) with
  | mk o t => cases o <;> rfl

theorem run_copyOf_hash (r : TableRef) : (copyOf inner pos (.hash r p)).run s =
    match ((s.table r).entries.mapM (copyEntry inner pos)).run s with
    | (some es, t) => (some (.hash (t.newTable (.ofEntries es)).1 pos),
        (t.newTable (.ofEntries es)).2)
    | (none, t) => (none, t) := by
  change ((do
    let entries ← (s.table r).entries.mapM (copyEntry inner pos)
    let t := entries.foldl (fun t e => t.insert e.key e.pos e.value) Table.empty
    return .hash (← modifyGet (·.newTable t)) pos : Copy Value)).run s = _
  rw [Copy.run_bind]
  cases (((s.table r).entries.mapM (copyEntry inner pos)).run s : Option (List Entry) × Store) with
  | mk o t => cases o <;> rfl

theorem copyOf_array_eq_some {r : ArrayRef}
    (h : (copyOf inner pos (.array r p)).run s = (some v, s')) :
    ∃ us t, ((s.array r).toList.mapM inner).run s = (some us, t) ∧
      v = .array (t.newArray us.toArray).1 pos ∧ s' = (t.newArray us.toArray).2 := by
  rw [run_copyOf_array] at h
  split at h
  · rename_i us t hus
    cases h
    exact ⟨us, t, hus, rfl, rfl⟩
  · cases h

theorem copyOf_hash_eq_some {r : TableRef}
    (h : (copyOf inner pos (.hash r p)).run s = (some v, s')) :
    ∃ es t, ((s.table r).entries.mapM (copyEntry inner pos)).run s = (some es, t) ∧
      v = .hash (t.newTable (.ofEntries es)).1 pos ∧ s' = (t.newTable (.ofEntries es)).2 := by
  rw [run_copyOf_hash] at h
  split at h
  · rename_i es t hes
    cases h
    exact ⟨es, t, hes, rfl, rfl⟩
  · cases h

end

end Store

end Vorn
