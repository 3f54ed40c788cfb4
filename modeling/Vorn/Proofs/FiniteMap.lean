import Vorn.Proofs.Store.DeepCopy

/-!
# Hashes are finite maps

A hash that starts empty is set and copied in any order (`HashOp`). However keys collide in the
buckets, a look-up gives what was set last for the key, there are as many entries as different keys
were set, and the three views of a hash list its entries in one order: `hash_is_map`.

A set is one insertion. A copy is rebuilt by insertions of copied entries, so after it a key has a
copy of the value that it had (`Store.IsCopy`). If the value belongs to the store and the hash is
not in it, then this is a deep copy, and it stays one through all sets and copies that follow
(`KeptHash.Retains`): a set changes only what the hash is reached from, and a copied hash is newer
than the values that were copied for it.
-/

namespace Vorn

namespace Store

variable {pos p : Pos} {s s' t : Store} {v v' : Value}

/-- In `s'`, which has grown from `s`, the value `v'` is what copying `v` to `pos` gave. -/
def IsCopy (pos : Pos) (s : Store) (v : Value) (s' : Store) (v' : Value) : Prop :=
  ∃ depth t t', s.Grows t ∧ (copyWithin pos depth v).run t = (some v', t') ∧ t'.Grows s'

theorem IsCopy.behind (h : s.IsCopy pos v t v') (ht : t.Grows s') : s.IsCopy pos v s' v' := by
  obtain ⟨depth, u, u', hu, hrun, hu'⟩ := h
  exact ⟨depth, u, u', hu, hrun, hu'.trans ht⟩

/-- What copying makes of a value of the store is a deep copy. -/
theorem IsCopy.copied (h : s.IsCopy pos v s' v') (hv : s.Belongs v) : s.Copied v s' v' := by
  obtain ⟨depth, t, t', ht, hrun, ht'⟩ := h
  have hv' : t.Belongs v := hv.grows ht
  obtain ⟨w, u, hw, -, hcopied⟩ := copies_copyWithin pos hv' (within_of_copyWithin hv' hrun)
  obtain ⟨hvalue, rfl⟩ := Prod.mk.inj (hrun.symm.trans hw)
  obtain rfl := Option.some.inj hvalue
  exact (hcopied.before hv ht).behind ht'

/-- A copied hash is rebuilt from copied entries, each with its key, once they are all there. -/
theorem copyWithin_hash {depth : Nat} {r : TableRef}
    (h : (copyWithin pos depth (.hash r p)).run s = (some v, s')) :
    ∃ es t, s.Grows t ∧ v = .hash (t.newTable (.ofEntries es)).1 pos ∧
      s' = (t.newTable (.ofEntries es)).2 ∧ es.map (·.key) = (s.table r).keys ∧
      ∀ e ∈ (s.table r).entries, ∃ e' ∈ es, e'.key = e.key ∧
        IsCopy pos s e.value t e'.value := by
  -- The entries are copied with one depth less, if there is one.
  obtain ⟨inner, hdepth, hinner, hwithin⟩ : ∃ inner : Value → Copy Value,
      copyWithin pos depth = copyOf inner pos ∧ (∀ v, Copy.Grows (inner v)) ∧
        ∀ v t v' t', (inner v).run t = (some v', t') →
          ∃ depth', (copyWithin pos depth' v).run t = (some v', t') := by
    cases depth with
    | zero => exact ⟨_, rfl, fun _ => .failure, fun v t v' t' h => nomatch h⟩
    | succ depth => exact ⟨_, rfl, Copy.grows_copyWithin pos depth, fun v t v' t' h => ⟨depth, h⟩⟩
  rw [hdepth] at h
  obtain ⟨es, t, hes, rfl, rfl⟩ := copyOf_hash_eq_some h
  have hentries := Copy.grows_copyEntry hinner pos
  have hst : s.Grows t := by simpa [hes] using Copy.Grows.mapM hentries (s.table r).entries s
  refine ⟨es, t, hst, rfl, rfl,
    Copy.map_eq_of_mapM (fun e u e' u' he => (Copy.copyEntry_eq_some he).1) hes, fun e he => ?_⟩
  obtain ⟨e', he', u, u', hu, hrun, hu'⟩ := Copy.mapM_eq_some hentries hes e he
  obtain ⟨hkey, hvalue⟩ := Copy.copyEntry_eq_some hrun
  obtain ⟨depth', hcopy⟩ := hwithin _ _ _ _ hvalue
  exact ⟨e', he', hkey, depth', u, u', hu, hcopy, hu'⟩

/-- What does not reach the hash does not see it change. -/
theorem preserves_modifyTable {r : TableRef} (f : Table → Table)
    (hv : ¬ s.Reaches .showing v (.hash r)) :
    s.Preserves v { s with tables := s.tables.modify r.index f } := by
  refine ⟨fun c hc => ?_, fun c hc => ?_⟩
  · cases c with
    | array r' => exact hc
    | hash r' => simpa [Has] using hc
  · cases c with
    | array r' => rfl
    | hash r' =>
      have hindex : r.index ≠ r'.index := by
        intro heq
        obtain rfl : r = r' := by
          cases r
          cases r'
          exact congrArg _ heq
        exact hv hc
      simp only [Same, table, Array.getD_eq_getD_getElem?, Array.getElem?_modify, if_neg hindex]

end Store

/-! ## Operations on a hash -/

/-- A hash in the store that it is kept in. -/
structure KeptHash where
  store : Store
  ref : TableRef

def KeptHash.table (h : KeptHash) : Table := h.store.table h.ref

/-- A new hash without entries. -/
def KeptHash.new (s : Store) : KeptHash := ⟨(s.newTable .empty).2, (s.newTable .empty).1⟩

inductive HashOp where
  /-- Maps a key, which came from `pos`, to a value. -/
  | set (key : Key) (pos : Pos) (value : Value)
  /-- Goes on with a copy of the hash. -/
  | clone (pos : Pos)

namespace HashOp

/-- The key that is set. -/
def key? : HashOp → Option Key
  | set k _ _ => some k
  | clone _ => none

/-- The hash after an operation. If there is no copy, because the hash contains itself, the hash
stays the one it was. -/
def run (h : KeptHash) : HashOp → KeptHash
  | set k pos v =>
    ⟨{ h.store with tables := h.store.tables.modify h.ref.index (·.insert k pos v) }, h.ref⟩
  | clone pos =>
    match h.store.clone (.hash h.ref .unknown) pos with
    | (some (.hash r _), s) => ⟨s, r⟩
    | (_, s) => ⟨s, h.ref⟩

def runAll (h : KeptHash) (ops : List HashOp) : KeptHash := ops.foldl run h

/-- What an operation on `h` makes of a value of another key: a copy, if it copies the hash. -/
def Carries (h : KeptHash) (v v' : Value) : HashOp → Prop
  | set _ _ _ => v' = v
  | clone pos =>
    match h.store.clone (.hash h.ref .unknown) pos with
    | (some _, s) => h.store.IsCopy pos v s v'
    | (none, _) => v' = v

/-- What operations that start with `h` make of a value: a copy of a copy, and so on, for every copy
of the hash. -/
def CarriesAll (h : KeptHash) (v v' : Value) : List HashOp → Prop
  | [] => v' = v
  | op :: ops => ∃ w, op.Carries h v w ∧ CarriesAll (op.run h) w v' ops

end HashOp

namespace KeptHash

/-- The value belongs to the store, and the hash is not in it. -/
structure Outside (h : KeptHash) (v : Value) : Prop where
  belongs : h.store.Belongs v
  apart : ¬ h.store.Reaches .showing v (.hash h.ref)

/-- What `v` was beside the hash `h`, the value `v'` is beside `h'`. If the hash is still the one
that it was, then `v'` is `v`, and all in it is unchanged; if it is a newer one, then `v'` is a deep
copy of what `v` was. -/
structure Retains (h : KeptHash) (v : Value) (h' : KeptHash) (v' : Value) : Prop where
  outside : h'.Outside v'
  has : ∀ c, h.store.Has c → h'.store.Has c
  value : h'.ref = h.ref ∧ v' = v ∧ h.store.Agrees .showing h'.store v ∨
    ¬ h.store.Has (.hash h'.ref) ∧ h.store.Copied v h'.store v'

namespace Retains

variable {h h' h₁ : KeptHash} {v v' v₁ : Value} {pos : Pos}

theorem of_preserves (hv : h.Outside v) (href : h'.ref = h.ref)
    (hpreserves : h.store.Preserves v h'.store) : h.Retains v h' v := by
  refine ⟨⟨hpreserves.belongs hv.belongs, ?_⟩, hpreserves.has, .inl ⟨href, rfl, hpreserves.agrees⟩⟩
  rw [href, hpreserves.agrees.reaches_iff]
  exact hv.apart

/-- The hash goes on as a new one, after the value was copied. -/
theorem of_isCopy {s : Store} {t : Table} (hv : h.Outside v) (hs : h.store.Grows s)
    (hcopy : h.store.IsCopy pos v s v') :
    h.Retains v ⟨(s.newTable t).2, (s.newTable t).1⟩ v' := by
  have hgrows : s.Grows (s.newTable t).2 := .newTable s t
  have hcopied : h.store.Copied v s v' := hcopy.copied hv.belongs
  have hnew : ¬ s.Has (.hash (s.newTable t).1) := Nat.lt_irrefl _
  refine ⟨⟨hcopied.belongs.grows hgrows, fun hr => ?_⟩, fun c hc => hgrows.has (hs.has hc),
    .inr ⟨fun hold => hnew (hs.has hold), hcopied.behind hgrows⟩⟩
  exact hnew (hcopied.belongs.has _ ((hcopied.belongs.agrees hgrows).reaches_iff.mp hr))

theorem refl (hv : h.Outside v) : h.Retains v h v :=
  .of_preserves hv rfl ⟨fun _ hc => hc, fun c _ => .refl h.store c⟩

theorem trans (hfirst : h.Retains v h₁ v₁) (hlast : h₁.Retains v₁ h' v') : h.Retains v h' v' := by
  refine ⟨hlast.outside, fun c hc => hlast.has c (hfirst.has c hc), ?_⟩
  rcases hfirst.value with ⟨href, rfl, hagrees⟩ | ⟨hnew, hcopied⟩
  · have hpreserves : h.store.Preserves v₁ h₁.store := ⟨hfirst.has, hagrees⟩
    rcases hlast.value with ⟨href', rfl, hagrees'⟩ | ⟨hnew', hcopied'⟩
    · exact .inl ⟨href'.trans href, rfl, hagrees.trans hagrees'⟩
    · exact .inr ⟨fun hold => hnew' (hfirst.has _ hold), hcopied'.of_preserves hpreserves⟩
  · rcases hlast.value with ⟨href', rfl, hagrees'⟩ | ⟨hnew', hcopied'⟩
    · exact .inr ⟨href' ▸ hnew, hcopied.preserved ⟨hlast.has, hagrees'⟩⟩
    · exact .inr ⟨fun hold => hnew' (hfirst.has _ hold), hcopied.trans hcopied' hfirst.has⟩

end Retains

/-- An operation on `h` makes `v'` of a value `v` of another key. -/
structure Brings (h : KeptHash) (v : Value) (op : HashOp) (v' : Value) : Prop where
  carries : op.Carries h v v'
  retains : h.Outside v → h.Retains v (op.run h) v'

theorem brings_set (h : KeptHash) (v : Value) (k : Key) (pos : Pos) (u : Value) :
    h.Brings v (.set k pos u) v :=
  ⟨rfl, fun hv => .of_preserves hv rfl (Store.preserves_modifyTable _ hv.apart)⟩

/-- The hash is in the store, and it is well-formed. -/
structure Sound (h : KeptHash) : Prop where
  inside : h.ref.index < h.store.tables.size
  wellFormed : h.table.WellFormed

theorem table_new (s : Store) : (KeptHash.new s).table = .empty := Store.table_newTable s _

theorem sound_new (s : Store) : (KeptHash.new s).Sound := by
  refine ⟨by simp [KeptHash.new, Store.newTable], ?_⟩
  rw [table_new]
  exact Table.wellFormed_empty

/-- What an operation can do: insert, go on with a rebuilt copy, or leave the hash. -/
theorem Sound.run_cases {h : KeptHash} (hs : h.Sound) (op : HashOp) :
    (op.run h).ref.index < (op.run h).store.tables.size ∧
    ((∃ k pos v, op = .set k pos v ∧ (op.run h).table = h.table.insert k pos v) ∨
      op.key? = none ∧ (∃ es, (op.run h).table = .ofEntries es ∧
        es.map (·.key) = h.table.keys ∧
        ∀ e ∈ h.table.entries, ∃ e' ∈ es, e'.key = e.key ∧ h.Brings e.value op e'.value) ∨
      op.key? = none ∧ (op.run h).table = h.table ∧ ∀ v, h.Brings v op v) := by
  cases op with
  | set k pos v =>
    have hinside : (HashOp.run h (.set k pos v)).ref.index <
        (HashOp.run h (.set k pos v)).store.tables.size := by simpa [HashOp.run] using hs.inside
    refine ⟨hinside, .inl ⟨k, pos, v, rfl, ?_⟩⟩
    simp [HashOp.run, table, Store.table, Array.getElem_modify, hs.inside]
  | clone pos =>
    have hgrows := Store.Copy.grows_copyWithin pos h.store.collections (.hash h.ref .unknown)
      h.store
    cases hclone : h.store.clone (.hash h.ref .unknown) pos with
    | mk o s =>
      rw [Store.clone] at hclone
      rw [hclone] at hgrows
      cases o with
      | none =>
        have hrun : HashOp.run h (.clone pos) = ⟨s, h.ref⟩ := by
          simp [HashOp.run, Store.clone, hclone]
        rw [hrun]
        refine ⟨Nat.lt_of_lt_of_le hs.inside hgrows.tables_size,
          .inr (.inr ⟨rfl, hgrows.table_eq hs.inside, fun v => ⟨?_, fun hv => ?_⟩⟩)⟩
        · simp [HashOp.Carries, Store.clone, hclone]
        · rw [hrun]
          exact .of_preserves hv rfl (hv.belongs.preserved hgrows)
      | some v =>
        obtain ⟨es, t, ht, rfl, rfl, hkeys, hes⟩ := Store.copyWithin_hash hclone
        have hrun : HashOp.run h (.clone pos) =
            ⟨(t.newTable (.ofEntries es)).2, (t.newTable (.ofEntries es)).1⟩ := by
          simp [HashOp.run, Store.clone, hclone]
        rw [hrun]
        refine ⟨by simp [Store.newTable],
          .inr (.inl ⟨rfl, es, Store.table_newTable t _, hkeys, fun e he => ?_⟩)⟩
        obtain ⟨e', he', hkey, hcopy⟩ := hes e he
        refine ⟨e', he', hkey, ?_, fun hv => ?_⟩
        · simpa [HashOp.Carries, Store.clone, hclone] using hcopy.behind (.newTable t _)
        · rw [hrun]
          exact .of_isCopy hv ht hcopy

/-- Operations keep the hash sound. -/
theorem Sound.run {h : KeptHash} (hs : h.Sound) (op : HashOp) : (op.run h).Sound := by
  obtain ⟨hinside, hcases⟩ := hs.run_cases op
  refine ⟨hinside, ?_⟩
  rcases hcases with ⟨k, pos, v, -, ht⟩ | ⟨-, es, ht, -⟩ | ⟨-, ht, -⟩ <;> rw [ht]
  · exact hs.wellFormed.insert k pos v
  · exact Table.wellFormed_ofEntries es
  · exact hs.wellFormed

/-- An operation adds the key that it sets. -/
theorem Sound.mem_keys_run {h : KeptHash} (hs : h.Sound) (op : HashOp) (k : Key) :
    k ∈ (op.run h).table.keys ↔ k ∈ op.key? ∨ k ∈ h.table.keys := by
  obtain ⟨-, ⟨k', pos, v, rfl, ht⟩ | ⟨hkey, es, ht, hkeys, -⟩ | ⟨hkey, ht, -⟩⟩ := hs.run_cases op
  · rw [ht, hs.wellFormed.mem_keys_insert]
    simp [HashOp.key?, eq_comm]
  · rw [ht, Table.mem_keys_ofEntries, hkeys, hkey]
    simp
  · rw [ht, hkey]
    simp

/-- The key that is set has its value. -/
theorem Sound.get?_set {h : KeptHash} (hs : h.Sound) (k : Key) (pos : Pos) (v : Value) :
    (HashOp.run h (.set k pos v)).table.get? k = some v := by
  obtain ⟨-, ⟨k', pos', v', heq, ht⟩ | ⟨hkey, -⟩ | ⟨hkey, -⟩⟩ := hs.run_cases (.set k pos v)
  · cases heq
    rw [ht, hs.wellFormed.get?_insert, if_pos rfl]
  · cases hkey
  · cases hkey

/-- Every other key has the value it had, or a copy of it. -/
theorem Sound.get?_run {h : KeptHash} (hs : h.Sound) {op : HashOp} {k : Key} {v : Value}
    (hk : k ∉ op.key?) (hget : h.table.get? k = some v) :
    ∃ v', (op.run h).table.get? k = some v' ∧ h.Brings v op v' := by
  obtain ⟨-, ⟨k', pos, v', rfl, ht⟩ | ⟨-, es, ht, hkeys, hes⟩ | ⟨-, ht, hbrings⟩⟩ :=
    hs.run_cases op
  · have hne : k ≠ k' := fun heq => hk (by simp [HashOp.key?, heq])
    refine ⟨v, ?_, h.brings_set v k' pos v'⟩
    rw [ht, hs.wellFormed.get?_insert, if_neg hne, hget]
  · obtain ⟨e, he, rfl, rfl⟩ := hs.wellFormed.get?_eq_some_iff.mp hget
    obtain ⟨e', he', hkey, hbrings⟩ := hes e he
    refine ⟨e'.value, ?_, hbrings⟩
    have hnodup : (es.map (·.key)).Nodup := hkeys ▸ hs.wellFormed.nodup
    rw [ht, ← hkey]
    exact Table.get?_ofEntries hnodup he'
  · exact ⟨v, by rw [ht, hget], hbrings v⟩

/-! ## Runs of operations -/

theorem Sound.runAll {h : KeptHash} (hs : h.Sound) (ops : List HashOp) :
    (HashOp.runAll h ops).Sound := by
  induction ops generalizing h with
  | nil => exact hs
  | cons op ops ih => exact ih (hs.run op)

theorem Sound.mem_keys_runAll {h : KeptHash} (hs : h.Sound) (ops : List HashOp) (k : Key) :
    k ∈ (HashOp.runAll h ops).table.keys ↔ k ∈ ops.filterMap HashOp.key? ∨ k ∈ h.table.keys := by
  induction ops generalizing h with
  | nil => simp [HashOp.runAll]
  | cons op ops ih =>
    rw [HashOp.runAll, List.foldl_cons, ← HashOp.runAll, ih (hs.run op), hs.mem_keys_run op k]
    cases hkey : op.key? with
    | none => simp [hkey]
    | some k' =>
      simp only [hkey, Option.mem_def, Option.some.injEq, List.filterMap_cons, List.mem_cons]
      constructor
      · rintro (hk | rfl | hk)
        · exact .inl (.inr hk)
        · exact .inl (.inl rfl)
        · exact .inr hk
      · rintro ((rfl | hk) | hk)
        · exact .inr (.inl rfl)
        · exact .inl hk
        · exact .inr (.inr hk)

/-- A key that is not set again keeps its value through all copies. -/
theorem Sound.get?_runAll {h : KeptHash} (hs : h.Sound) {ops : List HashOp} {k : Key} {v : Value}
    (hk : k ∉ ops.filterMap HashOp.key?) (hget : h.table.get? k = some v) :
    ∃ v', (HashOp.runAll h ops).table.get? k = some v' ∧ HashOp.CarriesAll h v v' ops ∧
      (h.Outside v → h.Retains v (HashOp.runAll h ops) v') := by
  induction ops generalizing h v with
  | nil => exact ⟨v, hget, rfl, .refl⟩
  | cons op ops ih =>
    have hop : k ∉ op.key? := by
      intro hmem
      exact hk (List.mem_filterMap.mpr ⟨op, by simp, hmem⟩)
    have hops : k ∉ ops.filterMap HashOp.key? := by
      intro hmem
      obtain ⟨op', hop', hkey⟩ := List.mem_filterMap.mp hmem
      exact hk (List.mem_filterMap.mpr ⟨op', by simp [hop'], hkey⟩)
    obtain ⟨w, hw, hbrings⟩ := hs.get?_run hop hget
    obtain ⟨v', hv', hrest, hretains⟩ := ih (hs.run op) hops hw
    refine ⟨v', hv', ⟨w, hbrings.carries, hrest⟩, fun hv => ?_⟩
    have hfirst := hbrings.retains hv
    exact hfirst.trans (hretains hfirst.outside)

end KeptHash

/-! ## Views -/

/-- The elements of an array. -/
def Store.contents (s : Store) : Value → List Value
  | .array r _ => (s.array r).toList
  | _ => []

/-- In the state, the methods of the hash list these keys and values, in this order, and indexing
the hash with one of the keys gives its value. -/
structure Views (r : TableRef) (pos : Pos) (s : State) (pairs : List (Value × Value)) : Prop where
  keys : ∃ v s', HashMethod.keys.run r pos [] s = .ok v s' ∧
    s'.store.contents v = pairs.map fun p => p.1
  values : ∃ v s', HashMethod.values.run r pos [] s = .ok v s' ∧
    s'.store.contents v = pairs.map fun p => p.2
  items : ∃ v s', HashMethod.items.run r pos [] s = .ok v s' ∧
    (s'.store.contents v).map s'.store.contents = pairs.map fun p => [p.1, p.2]
  index : ∀ (i : Nat) k v, (pairs.map fun p => p.1)[i]? = some k →
    (pairs.map fun p => p.2)[i]? = some v → Eval.evalIndex (.hash r pos) k s = .ok v s

theorem Run.newArray_eq (vs : Array Value) (pos : Pos) (s : State) :
    ∃ r s', Run.newArray vs pos s = .ok (.array r pos) s' ∧ s.store.Grows s'.store ∧
      r.index < s'.store.arrays.size ∧ s'.store.array r = vs := by
  refine ⟨_, _, rfl, .newArray s.store vs, ?_, ?_⟩
  · simp
  · simp [Store.array]

/-- New arrays, one for each element of a list. -/
theorem Run.mapM_newArray {α : Type} (f : α → Array Value) (p : α → Pos) (as : List α) (s : State) :
    ∃ vs s', as.mapM (fun a => Run.newArray (f a) (p a)) s = .ok vs s' ∧ s.store.Grows s'.store ∧
      (∀ v ∈ vs, ∃ r q, v = .array r q ∧ r.index < s'.store.arrays.size) ∧
      vs.map s'.store.contents = as.map fun a => (f a).toList := by
  induction as generalizing s with
  | nil => exact ⟨[], s, rfl, .refl _, by simp, rfl⟩
  | cons a as ih =>
    obtain ⟨r, t, hnew, hgrows, hr, helements⟩ := Run.newArray_eq (f a) (p a) s
    obtain ⟨vs, s', hrest, hgrows', hvs, hcontents⟩ := ih t
    refine ⟨.array r (p a) :: vs, s', ?_, hgrows.trans hgrows', ?_, ?_⟩
    · rw [List.mapM_cons, Run.run_bind, hnew]
      simp only [Run.run_bind, hrest, Run.run_pure]
    · rw [List.forall_mem_cons]
      exact ⟨⟨r, p a, rfl, Nat.lt_of_lt_of_le hr hgrows'.arrays.length_le⟩, hvs⟩
    · rw [List.map_cons, List.map_cons, hcontents, Store.contents, hgrows'.array_eq hr, helements]

theorem Key.key?_value (k : Key) (pos : Pos) : (k.value pos).key? = some k := by
  cases k <;> rfl

theorem Table.WellFormed.views {t : Table} (h : t.WellFormed) {r : TableRef} {s : State}
    (ht : s.store.table r = t) (pos : Pos) :
    Views r pos s (t.entries.map fun e => (e.keyValue, e.value)) := by
  subst ht
  have hitems := Run.mapM_newArray (fun e : Entry => #[e.keyValue, e.value])
    (fun e => e.keyValue.pos) (s.store.table r).entries s
  obtain ⟨vs, t, hvs, -, hrefs, hcontents⟩ := hitems
  refine ⟨?_, ?_, ?_, ?_⟩
  · obtain ⟨a, s', hnew, -, -, helements⟩ :=
      Run.newArray_eq ((s.store.table r).entries.map (·.keyValue)).toArray pos s
    exact ⟨_, s', hnew, by simp [Store.contents, helements]⟩
  · obtain ⟨a, s', hnew, -, -, helements⟩ :=
      Run.newArray_eq ((s.store.table r).entries.map (·.value)).toArray pos s
    exact ⟨_, s', hnew, by simp [Store.contents, helements]⟩
  · obtain ⟨a, s', hnew, hgrows, -, helements⟩ := Run.newArray_eq vs.toArray pos t
    refine ⟨.array a pos, s', ?_, ?_⟩
    · have hrun : HashMethod.items.run r pos [] s =
          ((s.store.table r).entries.mapM (fun e => Run.newArray #[e.keyValue, e.value]
            e.keyValue.pos) >>= fun items => Run.newArray items.toArray pos) s := rfl
      rw [hrun, Run.run_bind, hvs]
      exact hnew
    · have hkept : vs.map s'.store.contents = vs.map t.store.contents := by
        refine List.map_congr_left fun v hv => ?_
        obtain ⟨b, q, rfl, hb⟩ := hrefs v hv
        rw [Store.contents, Store.contents, hgrows.array_eq hb]
      simp [Store.contents, helements, hkept, hcontents]
  · intro i k v hk hv
    rw [List.map_map, List.getElem?_map, Option.map_eq_some_iff] at hk hv
    obtain ⟨e, he, rfl⟩ := hk
    obtain ⟨e', he', rfl⟩ := hv
    obtain rfl : e = e' := Option.some.inj (he.symm.trans he')
    have hget := h.get?_eq_some_iff.mpr ⟨e, List.mem_of_getElem? he, rfl, rfl⟩
    have hindex : Eval.evalIndex (.hash r pos) e.keyValue s =
        .ok (((s.store.table r).get? e.key).getD .null) s := by
      simp only [Eval.evalIndex, Entry.keyValue, Key.key?_value]
      rfl
    simpa [hget] using hindex

/-! ## The map -/

/-- **A hash is a finite map.** However often and in whatever order a hash is set and copied, its
buckets are in order; it has as many entries as different keys were set; a look-up gives the value
that was set last for the key, or what the copies since then made of it, and nothing for a key that
was never set; and keys, values and pairs are listed in one order, so that the hash maps each key it
lists to the value it lists there. What the copies make of a value of the store that the hash is not
in is a deep copy of what the value was when it was set. -/
theorem hash_is_map (s₀ : Store) (ops : List HashOp) :
    let h := HashOp.runAll (.new s₀) ops
    h.table.WellFormed ∧
      h.table.size = (ops.filterMap HashOp.key?).eraseDups.length ∧
      (∀ k, k ∉ ops.filterMap HashOp.key? → h.table.get? k = none) ∧
      (∀ before k pos v after, ops = before ++ .set k pos v :: after →
        k ∉ after.filterMap HashOp.key? →
        let h₁ := HashOp.runAll (.new s₀) (before ++ [.set k pos v])
        ∃ v', h.table.get? k = some v' ∧ HashOp.CarriesAll h₁ v v' after ∧
          (h₁.Outside v → h₁.Retains v h v')) ∧
      ∀ s pos, s.store.table h.ref = h.table →
        Views h.ref pos s (h.table.entries.map fun e => (e.keyValue, e.value)) := by
  intro h
  have hsound : h.Sound := (KeptHash.sound_new s₀).runAll ops
  have hkeys : ∀ k, k ∈ h.table.keys ↔ k ∈ ops.filterMap HashOp.key? := by
    intro k
    rw [(KeptHash.sound_new s₀).mem_keys_runAll ops k, KeptHash.table_new]
    simp [Table.keys, Table.entries, Table.empty]
  refine ⟨hsound.wellFormed, ?_, fun k hk => ?_, ?_, fun s pos ht => hsound.wellFormed.views ht pos⟩
  · refine hsound.wellFormed.size_eq (nodup_eraseDups _) fun k => ?_
    rw [hkeys, List.mem_eraseDups]
  · rw [hsound.wellFormed.get?_eq_none_iff, hkeys]
    exact hk
  · rintro before k pos v after rfl hafter
    have hbefore := (KeptHash.sound_new s₀).runAll before
    have hset := hbefore.get?_set k pos v
    have hsplit : HashOp.runAll (.new s₀) (before ++ [.set k pos v]) =
        HashOp.run (HashOp.runAll (.new s₀) before) (.set k pos v) := by
      simp [HashOp.runAll]
    have hall : h = HashOp.runAll (HashOp.run (HashOp.runAll (.new s₀) before) (.set k pos v))
        after := by
      simp [h, HashOp.runAll]
    rw [hsplit, hall]
    exact (hbefore.run (.set k pos v)).get?_runAll hafter hset

-- Two texts of one digest share a bucket, with an entry each.
example :
    let one := Table.empty.insert (.string "8yn0iYCKYHlIj4-BwPqk") .start (.int 1 .start)
    let both := one.insert (.string "GReLUrM4wMqfg9yzV3KQ") .start (.int 2 .start)
    both.buckets.length = 1 ∧ both.size = 2 := by
  decide +kernel

end Vorn
