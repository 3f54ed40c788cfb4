import Vorn.Proofs.Eval.Run

/-!
# The store grows

A store that has grown holds the arrays and hashes that it held, with others behind them
(`Store.Grows`). Copying a value does no more than that to the store, whether it finds a copy or not
(`Store.Copy.Grows`).
-/

namespace Vorn

namespace Store

/-- A new array holds its elements. -/
theorem array_newArray (s : Store) (vs : Array Value) :
    (s.newArray vs).2.array (s.newArray vs).1 = vs := by
  simp [newArray, array]

/-- The arrays and hashes of the store are still there, with others behind them. -/
structure Grows (s t : Store) : Prop where
  arrays : s.arrays.toList <+: t.arrays.toList
  tables : s.tables.toList <+: t.tables.toList

namespace Grows

theorem refl (s : Store) : s.Grows s := ⟨List.prefix_rfl, List.prefix_rfl⟩

theorem trans {s t u : Store} (h : s.Grows t) (h' : t.Grows u) : s.Grows u :=
  ⟨h.arrays.trans h'.arrays, h.tables.trans h'.tables⟩

theorem tables_size {s t : Store} (h : s.Grows t) : s.tables.size ≤ t.tables.size :=
  h.tables.length_le

/-- A hash that is there keeps its entries. -/
theorem table_eq {s t : Store} (h : s.Grows t) {r : TableRef} (hr : r.index < s.tables.size) :
    t.table r = s.table r := by
  obtain ⟨more, hmore⟩ := h.tables
  have hget : t.tables.toList[r.index]? = s.tables.toList[r.index]? := by
    rw [← hmore, List.getElem?_append_left (by simpa using hr)]
  rw [Array.getElem?_toList, Array.getElem?_toList] at hget
  simp [table, Array.getD_eq_getD_getElem?, hget]

theorem array_eq {s t : Store} (h : s.Grows t) {r : ArrayRef} (hr : r.index < s.arrays.size) :
    t.array r = s.array r := by
  obtain ⟨more, hmore⟩ := h.arrays
  have hget : t.arrays.toList[r.index]? = s.arrays.toList[r.index]? := by
    rw [← hmore, List.getElem?_append_left (by simpa using hr)]
  rw [Array.getElem?_toList, Array.getElem?_toList] at hget
  simp [array, Array.getD_eq_getD_getElem?, hget]

theorem newArray (s : Store) (elements : Array Value) : s.Grows (s.newArray elements).2 :=
  ⟨by simp [Store.newArray], List.prefix_rfl⟩

theorem newTable (s : Store) (t : Table) : s.Grows (s.newTable t).2 :=
  ⟨List.prefix_rfl, by simp [Store.newTable]⟩

end Grows

theorem table_newTable (s : Store) (t : Table) : (s.newTable t).2.table (s.newTable t).1 = t := by
  simp [newTable, table]

/-! ## Copying only adds -/

namespace Copy

variable {α β : Type}

/-- The computation adds to the store, whether it finds a result or not. -/
def Grows (m : Copy α) : Prop := ∀ s : Store, s.Grows (m.run s).2

namespace Grows

theorem pure (a : α) : Copy.Grows (Pure.pure a : Copy α) := Store.Grows.refl

theorem failure : Copy.Grows (failure : Copy α) := Store.Grows.refl

theorem bind {m : Copy α} {f : α → Copy β} (hm : Copy.Grows m) (hf : ∀ a, Copy.Grows (f a)) :
    Copy.Grows (m >>= f) := by
  intro s
  have hs := hm s
  rw [run_bind]
  cases hrun : m.run s with
  | mk o t =>
    rw [hrun] at hs
    cases o with
    | none => exact hs
    | some a => exact hs.trans (hf a t)

theorem get : Copy.Grows (get : Copy Store) := Store.Grows.refl

theorem modifyGet {f : Store → α × Store} (hf : ∀ s : Store, s.Grows (f s).2) :
    Copy.Grows (modifyGet f : Copy α) := hf

theorem mapM {f : α → Copy β} (hf : ∀ a, Copy.Grows (f a)) : ∀ as : List α,
    Copy.Grows (as.mapM f)
  | [] => pure _
  | a :: as => by
    rw [List.mapM_cons]
    exact bind (hf a) fun b => bind (mapM hf as) fun bs => pure (b :: bs)

end Grows

theorem grows_copyEntry {inner : Value → Copy Value} (hinner : ∀ v, Copy.Grows (inner v)) (pos : Pos)
    (e : Entry) : Copy.Grows (copyEntry inner pos e) :=
  .bind (hinner e.value) fun _ => .pure _

theorem grows_copyOf {inner : Value → Copy Value} (hinner : ∀ v, Copy.Grows (inner v)) (pos : Pos)
    (v : Value) : Copy.Grows (copyOf inner pos v) := by
  cases v with
  | array r p =>
    exact .bind .get fun s => .bind (.mapM hinner _) fun vs =>
      .bind (.modifyGet fun s => .newArray s _) fun r => .pure _
  | hash r p =>
    exact .bind .get fun s => .bind (.mapM (grows_copyEntry hinner pos) _) fun es =>
      .bind (.modifyGet fun s => .newTable s _) fun r => .pure _
  | _ => exact .pure _

theorem grows_copyWithin (pos : Pos) : ∀ depth v, Copy.Grows (copyWithin pos depth v)
  | 0, v => grows_copyOf (fun _ => .failure) pos v
  | depth + 1, v => grows_copyOf (grows_copyWithin pos depth) pos v

end Copy

end Store

end Vorn
