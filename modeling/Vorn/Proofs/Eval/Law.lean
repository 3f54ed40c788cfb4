import Mathlib
import Vorn.Proofs.Eval.Run
import Vorn.Proofs.Scopes
import Vorn.Proofs.Store.Table

/-!
# Laws on values

A law says which integers and which functions may occur, and whether signals may be data.
`Law.Admits` extends it to values and `Law.AdmitsStore` to all that a store holds: the elements of
arrays, the keys and values of hashes and the bindings of scopes. The integers of a law are closed
under the arithmetic of the language (`Ints`), so whatever an operator makes of admitted values is
admitted. A statement or a block may give a signal under every law (`Law.AdmitsResult`).

`Ints.Sizes` is about lengths: those of the arrays at a moment, and those of the texts in it.
-/

namespace Vorn

namespace Word

theorem inRange_toInt (b : BitVec 64) : InRange b.toInt := by
  have h1 := b.le_toInt
  have h2 := b.toInt_lt
  simp only [InRange, min, max]
  omega

theorem inRange_shiftLeft (a : Int) (count : Nat) : InRange (shiftLeft a count) := by
  unfold shiftLeft
  split
  · exact inRange_wrap _
  · decide

theorem inRange_powFrom {acc : Int} (h : InRange acc) (base : Int) (e : Nat) :
    InRange (powFrom acc base e) := by
  fun_induction powFrom acc base e with
  | case1 => exact h
  | case2 acc base e _ ih =>
    refine ih ?_
    split
    · exact inRange_wrap _
    · exact h

end Word

/-- A property of integers that arithmetic cannot leave. -/
structure Ints where
  Holds : Int → Prop
  inRange : ∀ n, Word.InRange n → Holds n
  complement : ∀ n, Holds n → Holds (Word.complement n)
  between : ∀ a b n, Holds a → Holds b → a ≤ n → n ≤ b → Holds n

namespace Word.InRange

theorem complement {n : Int} (h : InRange n) : InRange (Word.complement n) := by
  simp only [InRange, min, max, Word.complement] at *
  omega

theorem between {a b n : Int} (ha : InRange a) (hb : InRange b) (h1 : a ≤ n) (h2 : n ≤ b) :
    InRange n :=
  ⟨ha.1.trans h1, h2.trans hb.2⟩

end Word.InRange

namespace Ints

/-- All integers. -/
def all : Ints where
  Holds _ := True
  inRange _ _ := trivial
  complement _ _ := trivial
  between _ _ _ _ _ _ _ := trivial

/-- The integers of 64 bits. -/
def word : Ints where
  Holds := Word.InRange
  inRange _ h := h
  complement _ := Word.InRange.complement
  between _ _ _ := Word.InRange.between

variable (I : Ints)

theorem wrap (n : Int) : I.Holds (Word.wrap n) := I.inRange _ (Word.inRange_wrap n)

theorem shiftRight {a : Int} (h : I.Holds a) (count : Nat) : I.Holds (Word.shiftRight a count) := by
  have hzero := I.inRange 0 (by decide)
  by_cases ha : 0 ≤ a
  · exact I.between 0 a _ hzero h (Int.le_shiftRight_of_nonneg ha) (Int.shiftRight_le_of_nonneg ha)
  · have ha : a ≤ 0 := by omega
    exact I.between a 0 _ h hzero (Int.le_shiftRight_of_nonpos ha) (Int.shiftRight_le_of_nonpos ha)

theorem pow (base : Int) (e : Nat) : I.Holds (Word.pow base e) :=
  I.inRange _ (Word.inRange_powFrom (by decide) _ e)

end Ints

/-- Which integers and which functions may occur, and whether signals may be data. -/
structure Law where
  ints : Ints
  Function : Closure → Prop
  Signals : Prop

namespace Law

/-- The values that a law admits. -/
def Admits (L : Law) : Value → Prop
  | .int n _ => L.ints.Holds n
  | .function c => L.Function c
  | .returned _ v _ => L.Signals ∧ L.Admits v
  | .break _ _ | .continue _ _ => L.Signals
  | _ => True

/-- What a statement or a block may give: an admitted value, or a signal. -/
def AdmitsResult (L : Law) : Value → Prop
  | .returned _ v _ => L.Admits v
  | .break _ _ | .continue _ _ => True
  | v => L.Admits v

/-- What a task may give. -/
def Yields (L : Law) : Task → Value → Prop
  | .expr _ _ | .apply _ _ _ => L.Admits
  | .stmt _ _ | .block _ _ => L.AdmitsResult

/-- The hashes that a law admits. -/
def AdmitsTable (L : Law) (t : Table) : Prop :=
  ∀ e ∈ t.entries, L.Admits e.keyValue ∧ L.Admits e.value

/-- A law admits all that the store holds. -/
structure AdmitsStore (L : Law) (s : Store) : Prop where
  arrays : ∀ vs ∈ s.arrays, ∀ v ∈ vs, L.Admits v
  tables : ∀ t ∈ s.tables, L.AdmitsTable t
  scopes : ∀ cell ∈ s.scopes.cells, ∀ b ∈ cell.bindings, L.Admits b.2

variable {L : Law}

/-- The second law allows all that the first one does. -/
structure Le (L L' : Law) : Prop where
  ints : L'.ints = L.ints
  function : ∀ c, L.Function c → L'.Function c
  signals : L.Signals → L'.Signals

theorem Admits.mono {L' : Law} (hle : L.Le L') : ∀ {v : Value}, L.Admits v → L'.Admits v
  | .int n _, h => by rw [Admits, hle.ints]; exact h
  | .function c, h => hle.function c h
  | .returned _ v _, h => ⟨hle.signals h.1, Admits.mono (v := v) hle h.2⟩
  | .break _ _, h | .continue _ _, h => hle.signals h
  | .null, _ | .bool _, _ | .float _ _, _ | .string _ _, _ | .array _ _, _ | .hash _ _, _
  | .builtin _, _ => trivial

theorem AdmitsStore.mono {L' : Law} (hle : L.Le L') {s : Store} (h : L.AdmitsStore s) :
    L'.AdmitsStore s where
  arrays vs hvs v hv := (h.arrays vs hvs v hv).mono hle
  tables t ht e he := ⟨(h.tables t ht e he).1.mono hle, (h.tables t ht e he).2.mono hle⟩
  scopes cell hcell b hb := (h.scopes cell hcell b hb).mono hle

theorem Admits.result : ∀ {v : Value}, L.Admits v → L.AdmitsResult v
  | .returned _ _ _, h => h.2
  | .break _ _, _ | .continue _ _, _ => trivial
  | .int _ _, h | .function _, h | .null, h | .bool _, h | .float _ _, h | .string _ _, h
  | .array _ _, h | .hash _ _, h | .builtin _, h => h

/-- What is no signal is data. -/
theorem AdmitsResult.admits : ∀ {v : Value}, L.AdmitsResult v → v.isSignal = false → L.Admits v
  | .returned _ _ _, _, hv | .break _ _, _, hv | .continue _ _, _, hv => nomatch hv
  | .int _ _, h, _ | .function _, h, _ | .null, h, _ | .bool _, h, _ | .float _ _, h, _
  | .string _ _, h, _ | .array _ _, h, _ | .hash _ _, h, _ | .builtin _, h, _ => h

/-- Where signals may be data, results are data. -/
theorem AdmitsResult.of_signals (hsignals : L.Signals) : ∀ {v : Value}, L.AdmitsResult v → L.Admits v
  | .returned _ _ _, h => ⟨hsignals, h⟩
  | .break _ _, _ | .continue _ _, _ => hsignals
  | .int _ _, h | .function _, h | .null, h | .bool _, h | .float _ _, h | .string _ _, h
  | .array _ _, h | .hash _ _, h | .builtin _, h => h

/-- Where signals may not be data, no admitted value is one. -/
theorem Admits.isSignal (hsignals : ¬ L.Signals) : ∀ {v : Value}, L.Admits v → v.isSignal = false
  | .returned _ _ _, h => absurd h.1 hsignals
  | .break _ _, h | .continue _ _, h => absurd h hsignals
  | .int _ _, _ | .function _, _ | .null, _ | .bool _, _ | .float _ _, _ | .string _ _, _
  | .array _ _, _ | .hash _ _, _ | .builtin _, _ => rfl

/-- The law that admits everything. -/
def free : Law := ⟨.all, fun _ => True, True⟩

theorem admits_free : ∀ v : Value, free.Admits v
  | .returned _ v _ => ⟨trivial, admits_free v⟩
  | .int _ _ | .function _ | .null | .bool _ | .float _ _ | .string _ _ | .array _ _ | .hash _ _
  | .builtin _ | .break _ _ | .continue _ _ => trivial

theorem admitsStore_free (s : Store) : free.AdmitsStore s where
  arrays _ _ _ _ := admits_free _
  tables _ _ _ _ := ⟨admits_free _, admits_free _⟩
  scopes _ _ _ _ := admits_free _

/-! ## Operators -/

section Operators

variable {pos : Pos} {v w u : Value}

theorem admits_unary {op : UnaryOp} (hv : L.Admits v) (h : Operator.unary pos op v = .ok u) :
    L.Admits u := by
  unfold Operator.unary at h
  split at h <;> cases h
  · trivial
  · exact L.ints.wrap _
  · trivial
  · exact L.ints.complement _ hv

theorem admits_integers {op : BinaryOp} {a b : Int} (ha : L.ints.Holds a)
    (h : Operator.integers pos op a b = .ok u) : L.Admits u := by
  have hbits := fun b : BitVec 64 => L.ints.inRange _ (Word.inRange_toInt b)
  unfold Operator.integers at h
  cases op <;> simp only at h
  case mod =>
    split at h <;> cases h
    exact L.ints.wrap _
  case shiftLeft =>
    split at h <;> cases h
    exact L.ints.inRange _ (Word.inRange_shiftLeft _ _)
  case shiftRight =>
    split at h <;> cases h
    exact L.ints.shiftRight ha _
  all_goals cases h
  case add | sub | mul => exact L.ints.wrap _
  case bitAnd | bitOr | bitXor => exact hbits _
  all_goals trivial

theorem admits_floats {op : BinaryOp} {l r : Ty} {a b : Float}
    (h : Operator.floats pos op l r a b = .ok u) : L.Admits u := by
  unfold Operator.floats at h
  split at h <;> cases h <;> trivial

theorem admits_strings {op : BinaryOp} {a b : String} (h : Operator.strings pos op a b = .ok u) :
    L.Admits u := by
  unfold Operator.strings at h
  split at h <;> cases h <;> trivial

theorem admits_others {op : BinaryOp} (h : Operator.others pos op v w = .ok u) : L.Admits u := by
  unfold Operator.others at h
  split at h
  · cases h
    trivial
  · cases h
    trivial
  · split at h <;> cases h

theorem admits_binary {op : BinaryOp} (hv : L.Admits v) (h : Operator.binary pos op v w = .ok u) :
    L.Admits u := by
  unfold Operator.binary at h
  split at h
  · exact admits_integers hv h
  · exact admits_floats h
  · exact admits_floats h
  · exact admits_floats h
  · exact admits_strings h
  · exact admits_others h

theorem admits_step {op : StepOp} {before : Bool} (h : Operator.step pos op before v = .ok u) :
    L.Admits u := by
  unfold Operator.step at h
  split at h <;> cases h
  · exact L.ints.wrap _
  · trivial

end Operators

/-! ## Hashes -/

section Tables

variable {k : Key} {pos : Pos} {v : Value}

theorem admitsTable_empty : L.AdmitsTable .empty := by simp [AdmitsTable, Table.empty, Table.entries]

/-- The law admits a key wherever it comes from. -/
theorem admits_key {pos' : Pos} (h : L.Admits (k.value pos)) : L.Admits (k.value pos') := by
  cases k <;> exact h

theorem admits_key_of_key? {u : Value} (hu : L.Admits u) (h : u.key? = some k) (pos : Pos) :
    L.Admits (k.value pos) := by
  cases u <;> cases h <;> exact hu

theorem AdmitsTable.insert {t : Table} (h : L.AdmitsTable t) (hk : L.Admits (k.value pos))
    (hv : L.Admits v) : L.AdmitsTable (t.insert k pos v) :=
  Table.forall_mem_insert h ⟨hk, hv⟩ fun _ he => ⟨he.1, hv⟩

theorem AdmitsTable.get? {t : Table} (h : L.AdmitsTable t) {u : Value} (hget : t.get? k = some u) :
    L.Admits u := by
  obtain ⟨e, he, -, rfl⟩ := Table.exists_of_get? hget
  exact (h e he).2

end Tables

/-! ## Stores -/

section Stores

variable {s : Store}

theorem AdmitsStore.array (h : L.AdmitsStore s) (r : ArrayRef) : ∀ v ∈ s.array r, L.Admits v := by
  unfold Store.array
  rw [Array.getD_eq_getD_getElem?]
  cases hr : s.arrays[r.index]? with
  | none => simp
  | some vs => exact h.arrays vs (Array.mem_of_getElem? hr)

theorem AdmitsStore.table (h : L.AdmitsStore s) (r : TableRef) : L.AdmitsTable (s.table r) := by
  unfold Store.table
  rw [Array.getD_eq_getD_getElem?]
  cases hr : s.tables[r.index]? with
  | none => simp [AdmitsTable, Table.empty, Table.entries]
  | some t => exact h.tables t (Array.mem_of_getElem? hr)

theorem AdmitsStore.newArray (h : L.AdmitsStore s) {vs : Array Value}
    (hvs : ∀ v ∈ vs, L.Admits v) : L.AdmitsStore (s.newArray vs).2 where
  arrays ws hws := by
    rcases Array.mem_push.mp hws with hws | rfl
    · exact h.arrays ws hws
    · exact hvs
  tables := h.tables
  scopes := h.scopes

theorem AdmitsStore.newTable (h : L.AdmitsStore s) {t : Table} (ht : L.AdmitsTable t) :
    L.AdmitsStore (s.newTable t).2 where
  arrays := h.arrays
  tables u hu := by
    rcases Array.mem_push.mp hu with hu | rfl
    · exact h.tables u hu
    · exact ht
  scopes := h.scopes

theorem AdmitsStore.modifyArray (h : L.AdmitsStore s) (r : ArrayRef)
    {f : Array Value → Array Value} (hf : ∀ v ∈ f (s.array r), L.Admits v) :
    L.AdmitsStore (s.modifyArray r f) where
  arrays ws hws := by
    obtain ⟨i, hi, rfl⟩ := Array.mem_iff_getElem.mp hws
    simp only [Store.modifyArray, Array.size_modify] at hi
    simp only [Store.modifyArray, Array.getElem_modify]
    split
    · rename_i hr
      subst hr
      simpa [Store.array, hi] using hf
    · exact h.arrays _ (Array.getElem_mem hi)
  tables := h.tables
  scopes := h.scopes

/-- The store before anything ran. -/
theorem admitsStore_start : L.AdmitsStore {} :=
  ⟨by simp, by simp, Scopes.All.initial⟩

theorem AdmitsStore.newId (h : L.AdmitsStore s) : L.AdmitsStore s.newId.2 :=
  ⟨h.arrays, h.tables, h.scopes⟩

theorem AdmitsStore.enclose (h : L.AdmitsStore s) (r : ScopeRef) : L.AdmitsStore (s.enclose r).2 :=
  ⟨h.arrays, h.tables, Scopes.All.enclose h.scopes r⟩

theorem AdmitsStore.bind (h : L.AdmitsStore s) (r : ScopeRef) (name : String) {v : Value}
    (hv : L.Admits v) : L.AdmitsStore (s.bind r name v) :=
  ⟨h.arrays, h.tables, Scopes.All.set h.scopes r name hv⟩

/-- Whatever a name is bound to is admitted. -/
theorem AdmitsStore.get? (h : L.AdmitsStore s) {e target : ScopeRef} {name : String} {v : Value}
    (hget : s.scopes.get? e name = some (v, target)) : L.Admits v :=
  Scopes.All.get? h.scopes hget

end Stores

end Law

end Vorn
