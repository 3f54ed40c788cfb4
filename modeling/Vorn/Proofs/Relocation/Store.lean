import Vorn.Eval.Basic
import Vorn.Proofs.Tree.Marks

/-!
# Values and stores at other places

Every value remembers where it came from, and so do the bodies of functions and the keys of hashes.
A `Relocation` sends all these places somewhere else; `move` applies it to a value or to all that a
store holds. No operation of the store looks at a place: each does the same to a store that was
moved, and a value is shown the same way before and after (`Store.inspect?_move`).
-/

namespace Vorn

/-- A change of places. The place of the shared values stays where it is. -/
structure Relocation where
  place : Pos → Pos
  shared : place .shared = .shared

variable (f : Relocation)

/-! ## Values -/

def Closure.move (c : Closure) : Closure :=
  { c with body := c.body.mark (.moved f.place), pos := f.place c.pos }

def Value.move : Value → Value
  | .null => .null
  | .bool b => .bool b
  | .int n pos => .int n (f.place pos)
  | .float x pos => .float x (f.place pos)
  | .string s pos => .string s (f.place pos)
  | .array r pos => .array r (f.place pos)
  | .hash r pos => .hash r (f.place pos)
  | .function c => .function (c.move f)
  | .builtin b => .builtin b
  | .returned id v pos => .returned id (v.move) (f.place pos)
  | .break id pos => .break id (f.place pos)
  | .continue id pos => .continue id (f.place pos)

@[simp] theorem Closure.move_params (c : Closure) : (c.move f).params = c.params := rfl

@[simp] theorem Closure.text_move (c : Closure) : (c.move f).text = c.text := by
  simp [Closure.text, Closure.move, Block.text_mark]

namespace Value

@[simp] theorem ty_move (v : Value) : (v.move f).ty = v.ty := by cases v <;> rfl

@[simp] theorem isTruthy_move (v : Value) : (v.move f).isTruthy = v.isTruthy := by cases v <;> rfl

@[simp] theorem isSignal_move (v : Value) : (v.move f).isSignal = v.isSignal := by cases v <;> rfl

@[simp] theorem isCallable_move (v : Value) : (v.move f).isCallable = v.isCallable := by
  cases v <;> rfl

@[simp] theorem number?_move (v : Value) : (v.move f).number? = v.number? := by cases v <;> rfl

@[simp] theorem key?_move (v : Value) : (v.move f).key? = v.key? := by cases v <;> rfl

/-- A value moves to the new place, unless it is a built-in function, which has none of its own. -/
theorem pos_move {v : Value} (h : v.ty ≠ .builtin) : (v.move f).pos = f.place v.pos := by
  cases v with
  | null | bool => exact f.shared.symm
  | builtin => exact absurd rfl h
  | _ => rfl

theorem ty_ne_builtin_of_key? {v : Value} {k : Key} (h : v.key? = some k) : v.ty ≠ .builtin := by
  rintro hty
  cases v <;> cases hty
  cases h

@[simp] theorem equal_move (v w : Value) : (v.move f).equal (w.move f) = v.equal w := by
  cases v <;> cases w <;> rfl

end Value

theorem Key.ty_value_ne_builtin (k : Key) (pos : Pos) : (k.value pos).ty ≠ .builtin := by
  cases k <;> exact nofun

@[simp] theorem Key.value_move (k : Key) (pos : Pos) :
    (k.value pos).move f = k.value (f.place pos) := by
  cases k <;> rfl

/-! ## Hashes -/

def Entry.move (e : Entry) : Entry := ⟨e.key, f.place e.pos, e.value.move f⟩

def Bucket.move (b : Bucket) : Bucket := ⟨b.digest, b.entries.map (Entry.move f)⟩

def Table.move (t : Table) : Table := ⟨t.buckets.map (Bucket.move f)⟩

@[simp] theorem Entry.keyValue_move (e : Entry) : (e.move f).keyValue = e.keyValue.move f :=
  (Key.value_move f e.key e.pos).symm

namespace Table

variable (k : Key) (pos : Pos) (v : Value)

@[simp] theorem move_empty : empty.move f = empty := rfl

@[simp] theorem entries_move (t : Table) : (t.move f).entries = t.entries.map (Entry.move f) := by
  simp [entries, move, Bucket.move, List.flatMap_map, List.map_flatMap]

@[simp] theorem size_move (t : Table) : (t.move f).size = t.size := by simp [size]

theorem putEntry_move (es : List Entry) :
    putEntry k (f.place pos) (v.move f) (es.map (Entry.move f)) =
      (putEntry k pos v es).map (Entry.move f) := by
  induction es with
  | nil => rfl
  | cons e es ih =>
    simp only [List.map_cons, putEntry, ih]
    change (if e.key = k then _ else _) = _
    split <;> rfl

theorem putBucket_move (d : Digest) (bs : List Bucket) :
    putBucket d k (f.place pos) (v.move f) (bs.map (Bucket.move f)) =
      (putBucket d k pos v bs).map (Bucket.move f) := by
  induction bs with
  | nil => rfl
  | cons b bs ih =>
    simp only [List.map_cons, putBucket, ih]
    change (if b.digest = d then _ else _) = _
    split
    · simp [Bucket.move, putEntry_move]
    · rfl

theorem insert_move (t : Table) :
    (t.move f).insert k (f.place pos) (v.move f) = (t.insert k pos v).move f := by
  simp [insert, move, putBucket_move]

theorem get?_move (t : Table) : (t.move f).get? k = (t.get? k).map (Value.move f) := by
  have hbucket : ∀ d, (t.buckets.map (Bucket.move f)).find? (·.digest = d) =
      (t.buckets.find? (·.digest = d)).map (Bucket.move f) := fun d => by
    rw [List.find?_map]
    rfl
  have hentry : ∀ es : List Entry, (es.map (Entry.move f)).find? (·.key = k) =
      (es.find? (·.key = k)).map (Entry.move f) := fun es => by
    rw [List.find?_map]
    rfl
  simp only [get?, move, hbucket]
  cases t.buckets.find? (·.digest = k.digest) with
  | none => rfl
  | some b =>
    change ((b.entries.map (Entry.move f)).find? (·.key = k)).bind (some ·.value) =
      ((b.entries.find? (·.key = k)).bind (some ·.value)).map (Value.move f)
    rw [hentry]
    cases b.entries.find? (·.key = k) <;> rfl

end Table

/-! ## Scopes -/

section Scopes

variable {α β : Type} (g : α → β)

def Scope.map (s : Scope α) : Scope β := ⟨s.outer, s.bindings.map fun b => (b.1, g b.2)⟩

def Scopes.map (s : Scopes α) : Scopes β := ⟨s.cells.map (Scope.map g)⟩

@[simp] theorem Scope.outer_map (s : Scope α) : (s.map g).outer = s.outer := rfl

@[simp] theorem Scope.find?_map (s : Scope α) (name : String) :
    (s.map g).find? name = (s.find? name).map g := by
  obtain ⟨outer, bindings⟩ := s
  simp only [Scope.find?, Scope.map]
  induction bindings with
  | nil => rfl
  | cons b bindings ih =>
    obtain ⟨n, a⟩ := b
    simp only [List.map_cons, List.lookup_cons, ih]
    split <;> rfl

theorem Scope.set_map (s : Scope α) (name : String) (a : α) :
    (s.map g).set name (g a) = (s.set name a).map g := by
  obtain ⟨outer, bindings⟩ := s
  simp only [Scope.set, Scope.map, Scope.mk.injEq, true_and]
  induction bindings with
  | nil => rfl
  | cons b bindings ih =>
    simp only [List.map_cons, Scope.bind, ih]
    split <;> rfl

namespace Scopes

variable (s : Scopes α) (r : ScopeRef) (name : String)

theorem enclose_map : (s.map g).enclose r = ((s.enclose r).1, (s.enclose r).2.map g) := by
  simp [enclose, Scopes.map, Scope.map]

theorem set_map (a : α) : (s.map g).set r name (g a) = (s.set r name a).map g := by
  simp only [set, Scopes.map, mk.injEq]
  refine Array.ext (by simp) fun i h₁ h₂ => ?_
  simp only [Array.getElem_modify, Array.getElem_map]
  split
  · exact Scope.set_map g _ name a
  · rfl

theorem getLocal?_map : (s.map g).getLocal? r name = (s.getLocal? r name).map g := by
  simp only [getLocal?, Scopes.map, Array.getElem?_map]
  cases s.cells[r.index]? with
  | none => rfl
  | some cell => simp

theorem contains_map : (s.map g).contains r name = s.contains r name := by
  rw [contains, getLocal?_map, contains, Option.isSome_map]

theorem names_map : (s.map g).names r = s.names r := by
  simp only [names, Scopes.map, Array.getElem?_map]
  cases s.cells[r.index]? with
  | none => rfl
  | some cell => simp [Scope.map]

theorem findFrom_map (i : Nat) :
    (s.map g).findFrom name i = (s.findFrom name i).map fun b => (g b.1, b.2) := by
  fun_induction findFrom s name i with
  | case1 i hcell =>
    rw [findFrom]
    simp [Scopes.map, hcell]
  | case2 i cell hcell value hfind =>
    rw [findFrom]
    simp [Scopes.map, hcell, hfind]
  | case3 i cell hcell hfind houter =>
    rw [findFrom]
    simp [Scopes.map, hcell, hfind, houter]
  | case4 i cell hcell hfind outer houter hlt ih =>
    rw [Scopes.map] at ih
    rw [findFrom]
    simp [Scopes.map, hcell, hfind, houter, hlt, ih]
  | case5 i cell hcell hfind outer houter hlt =>
    rw [findFrom]
    simp [Scopes.map, hcell, hfind, houter, hlt]

theorem get?_map : (s.map g).get? r name = (s.get? r name).map fun b => (g b.1, b.2) :=
  findFrom_map g s name r.index

end Scopes

end Scopes

/-! ## Stores -/

def Store.move (s : Store) : Store where
  arrays := s.arrays.map (Array.map (Value.move f))
  tables := s.tables.map (Table.move f)
  scopes := s.scopes.map (Value.move f)
  fresh := s.fresh

namespace Store

variable (s : Store)

theorem array_move (r : ArrayRef) : (s.move f).array r = (s.array r).map (Value.move f) := by
  simp only [array, move, Array.getD_eq_getD_getElem?, Array.getElem?_map]
  cases s.arrays[r.index]? <;> simp

theorem table_move (r : TableRef) : (s.move f).table r = (s.table r).move f := by
  simp only [table, move, Array.getD_eq_getD_getElem?, Array.getElem?_map]
  cases s.tables[r.index]? <;> simp

theorem newArray_move (vs : Array Value) :
    (s.move f).newArray (vs.map (Value.move f)) =
      ((s.newArray vs).1, (s.newArray vs).2.move f) := by
  simp [newArray, move]

theorem newTable_move (t : Table) :
    (s.move f).newTable (t.move f) = ((s.newTable t).1, (s.newTable t).2.move f) := by
  simp [newTable, move]

theorem modifyArray_move (r : ArrayRef) {g g' : Array Value → Array Value}
    (hg : ∀ vs, g' (vs.map (Value.move f)) = (g vs).map (Value.move f)) :
    (s.move f).modifyArray r g' = (s.modifyArray r g).move f := by
  simp only [modifyArray, move, mk.injEq, and_self, and_true]
  refine Array.ext (by simp) fun i h₁ h₂ => ?_
  simp only [Array.getElem_modify, Array.getElem_map]
  split
  · exact hg _
  · rfl

theorem enclose_move (r : ScopeRef) :
    (s.move f).enclose r = ((s.enclose r).1, (s.enclose r).2.move f) := by
  simp [enclose, move, Scopes.enclose_map]

theorem bind_move (r : ScopeRef) (name : String) (v : Value) :
    (s.move f).bind r name (v.move f) = (s.bind r name v).move f := by
  simp [bind, move, Scopes.set_map]

@[simp] theorem collections_move : (s.move f).collections = s.collections := by
  simp [collections, move]

/-! ## How values are shown -/

theorem mapM_map_option {α β γ : Type} (g : α → β) {h : α → Option γ} {h' : β → Option γ}
    (hh : ∀ a, h' (g a) = h a) : ∀ as : List α, (as.map g).mapM h' = as.mapM h
  | [] => rfl
  | a :: as => by simp only [List.map_cons, List.mapM_cons, hh, mapM_map_option g hh as]

theorem snapshotOf_move {inner inner' : Value → Option Snapshot}
    (hinner : ∀ v, inner' (v.move f) = inner v) :
    ∀ v, (s.move f).snapshotOf inner' (v.move f) = s.snapshotOf inner v
  | .array r _ => by
    simp only [Value.move, snapshotOf, array_move, Array.toList_map]
    rw [mapM_map_option _ hinner]
  | .hash r _ => by
    have hpair : ∀ e : Entry, snapshotOf.pairOf inner' (e.move f) = snapshotOf.pairOf inner e := by
      intro e
      simp only [snapshotOf.pairOf, Entry.keyValue_move, hinner]
      rw [Entry.move, hinner]
    simp only [Value.move, snapshotOf, table_move, Table.entries_move]
    rw [mapM_map_option _ hpair]
  | .returned _ v _ => by
    simp only [Value.move, snapshotOf, snapshotOf_move hinner v]
  | .function c => by simp only [Value.move, snapshotOf, Closure.text_move]
  | .null | .bool _ | .int _ _ | .float _ _ | .string _ _ | .builtin _ | .break _ _
  | .continue _ _ => rfl

theorem snapshotWithin_move : ∀ depth v,
    (s.move f).snapshotWithin depth (v.move f) = s.snapshotWithin depth v
  | 0, v => snapshotOf_move f s (fun _ => rfl) v
  | depth + 1, v => snapshotOf_move f s (snapshotWithin_move depth) v

/-- **A value is shown the same way wherever it comes from.** -/
theorem inspect?_move (v : Value) : (s.move f).inspect? (v.move f) = s.inspect? v := by
  simp only [inspect?, snapshot?, collections_move, snapshotWithin_move]

end Store

end Vorn
