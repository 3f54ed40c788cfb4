import Vorn.Scopes

/-!
# Scopes

What binding a name and making a scope do to the bindings of each scope and to the scopes around it.
What holds of all bindings (`Scopes.All`) holds of what a look-up finds.
-/

namespace Vorn

variable {α : Type}

theorem Scope.lookup_cons (n x : String) (v : α) (bs : List (String × α)) :
    ((n, v) :: bs).lookup x = if x = n then some v else bs.lookup x := by
  rw [List.lookup_cons]
  by_cases h : x = n
  · rw [if_pos h, beq_iff_eq.mpr h]
  · rw [if_neg h, beq_eq_false_iff_ne.mpr h]

theorem Scope.lookup_bind (name x : String) (v : α) : ∀ bs : List (String × α),
    (bind name v bs).lookup x = if x = name then some v else bs.lookup x
  | [] => lookup_cons name x v []
  | (n, u) :: bs => by
    rw [bind]
    by_cases hn : n = name
    · subst hn
      rw [if_pos rfl, lookup_cons, lookup_cons]
      split <;> rfl
    · rw [if_neg hn, lookup_cons, lookup_cons, lookup_bind name x v bs]
      by_cases h : x = n
      · subst h
        simp [hn]
      · simp [h]

namespace Scopes

variable (sc : Scopes α) (r : ScopeRef)

/-- The number of scopes. -/
abbrev size : Nat := sc.cells.size

/-- The scope around a scope. -/
def outer? : Option ScopeRef := sc.cells[r.index]?.bind (·.outer)

@[simp] theorem size_set (name : String) (v : α) : (sc.set r name v).size = sc.size := by
  simp [size, set]

@[simp] theorem size_enclose : (sc.enclose r).2.size = sc.size + 1 := by
  simp [size, enclose]

@[simp] theorem index_enclose : (sc.enclose r).1.index = sc.size := rfl

theorem getLocal?_set (name : String) (v : α) (r' : ScopeRef) (x : String) :
    (sc.set r name v).getLocal? r' x =
      if r' = r ∧ x = name ∧ r.index < sc.size then some v else sc.getLocal? r' x := by
  obtain ⟨i⟩ := r
  obtain ⟨j⟩ := r'
  simp only [getLocal?, set, size, ScopeRef.mk.injEq, Array.getElem?_modify]
  by_cases hij : i = j
  · subst hij
    cases hcell : sc.cells[i]? with
    | none =>
      have hsize := Array.getElem?_eq_none_iff.mp hcell
      simp [Nat.not_lt.mpr hsize]
    | some cell =>
      obtain ⟨hsize, -⟩ := Array.getElem?_eq_some_iff.mp hcell
      simp [Scope.find?, Scope.set, Scope.lookup_bind, hsize]
  · simp [hij, Ne.symm hij]

theorem getLocal?_enclose (r' : ScopeRef) (x : String) :
    (sc.enclose r).2.getLocal? r' x = sc.getLocal? r' x := by
  simp only [getLocal?, enclose, Array.getElem?_push]
  split
  · rename_i h
    rw [h]
    simp [Scope.find?]
  · rfl

theorem contains_set (name : String) (v : α) (r' : ScopeRef) (x : String) :
    (sc.set r name v).contains r' x = true ↔
      sc.contains r' x = true ∨ r' = r ∧ x = name ∧ r.index < sc.size := by
  rw [contains, getLocal?_set]
  split
  · simp [*]
  · simp [contains, *]

theorem contains_enclose (r' : ScopeRef) (x : String) :
    (sc.enclose r).2.contains r' x = sc.contains r' x := by
  rw [contains, getLocal?_enclose, contains]

theorem getLocal?_eq_none {x : String} (h : sc.size ≤ r.index) : sc.getLocal? r x = none := by
  simp [getLocal?, h]

variable {sc r} in
theorem lt_size_of_contains {x : String} (h : sc.contains r x = true) : r.index < sc.size := by
  refine Nat.lt_of_not_le fun hr => ?_
  rw [contains, getLocal?_eq_none sc r hr] at h
  cases h

@[simp] theorem outer?_set (name : String) (v : α) (r' : ScopeRef) :
    (sc.set r name v).outer? r' = sc.outer? r' := by
  simp only [outer?, set, Array.getElem?_modify]
  split
  · cases sc.cells[r'.index]? <;> rfl
  · rfl

theorem outer?_enclose (r' : ScopeRef) :
    (sc.enclose r).2.outer? r' = if r'.index = sc.size then some r else sc.outer? r' := by
  simp only [outer?, enclose, size, Array.getElem?_push]
  split <;> rfl

/-- A look-up either finds the name in the scope itself or goes on in the scope around it. -/
theorem get?_eq (x : String) :
    sc.get? r x =
      match sc.getLocal? r x with
      | some v => some (v, r)
      | none =>
        match sc.outer? r with
        | none => none
        | some o => if o.index < r.index then sc.get? o x else none := by
  obtain ⟨i⟩ := r
  rw [get?, findFrom, getLocal?, outer?]
  cases sc.cells[i]? with
  | none => rfl
  | some cell =>
    simp only [Option.bind_some]
    cases cell.find? x with
    | some v => rfl
    | none => cases cell.outer <;> rfl

/-- A look-up finds a binding. -/
theorem contains_of_get? {r : ScopeRef} {x : String} {v : α} {target : ScopeRef}
    (h : sc.get? r x = some (v, target)) : sc.contains target x = true := by
  obtain ⟨i⟩ := r
  induction i using Nat.strongRecOn with
  | ind i ih =>
    rw [get?_eq] at h
    split at h
    · rename_i hlocal
      cases h
      simp [contains, hlocal]
    · split at h
      · cases h
      · rename_i o _
        split at h
        · exact ih o.index ‹_› h
        · cases h

/-! ## What holds of all bindings -/

/-- The property holds of every value that a name is bound to. -/
def All (sc : Scopes α) (P : α → Prop) : Prop := ∀ cell ∈ sc.cells, ∀ b ∈ cell.bindings, P b.2

namespace All

variable {sc} {P : α → Prop} {v : α}

theorem imp {Q : α → Prop} (h : sc.All P) (hPQ : ∀ v, P v → Q v) : sc.All Q :=
  fun cell hcell b hb => hPQ b.2 (h cell hcell b hb)

theorem initial : (initial : Scopes α).All P := by simp [All, Scopes.initial]

theorem enclose (h : sc.All P) (r : ScopeRef) : (sc.enclose r).2.All P := by
  intro cell hcell
  rcases Array.mem_push.mp hcell with hcell | rfl
  · exact h cell hcell
  · simp

theorem of_mem_bind {name : String} (hv : P v) : ∀ {bs : List (String × α)}, (∀ b ∈ bs, P b.2) →
    ∀ b ∈ Scope.bind name v bs, P b.2
  | [], _ => by simpa [Scope.bind] using hv
  | (n, u) :: bs, h => by
    obtain ⟨hu, hbs⟩ := List.forall_mem_cons.mp h
    unfold Scope.bind
    split
    · exact List.forall_mem_cons.mpr ⟨hv, hbs⟩
    · exact List.forall_mem_cons.mpr ⟨hu, of_mem_bind hv hbs⟩

theorem set (h : sc.All P) (r : ScopeRef) (name : String) (hv : P v) : (sc.set r name v).All P := by
  intro cell hcell
  obtain ⟨i, hi, rfl⟩ := Array.mem_iff_getElem.mp hcell
  simp only [Scopes.set, Array.size_modify] at hi
  simp only [Scopes.set, Array.getElem_modify]
  split
  · exact of_mem_bind hv (h _ (Array.getElem_mem hi))
  · exact h _ (Array.getElem_mem hi)

/-- Whatever a look-up finds is bound somewhere. -/
theorem get? (h : sc.All P) {e target : ScopeRef} {name : String}
    (hget : sc.get? e name = some (v, target)) : P v := by
  unfold Scopes.get? at hget
  generalize e.index = i at hget
  fun_induction Scopes.findFrom sc name i with
  | case1 => cases hget
  | case2 i cell hcell value hfind =>
    cases hget
    obtain ⟨_, _, hbindings, -⟩ := List.lookup_eq_some_iff.mp hfind
    exact h cell (Array.mem_of_getElem? hcell) (name, v) (by simp [hbindings])
  | case3 => cases hget
  | case4 i cell hcell hfind outer houter hlt ih => exact ih hget
  | case5 => cases hget

end All

/-! ## Parameters -/

variable {sc r}

/-- Binds parameters to arguments. -/
def bindAll (sc : Scopes α) (r : ScopeRef) : List String → List α → Scopes α
  | p :: ps, v :: vs => (sc.set r p v).bindAll r ps vs
  | _, _ => sc

/-- Binding parameters preserves what each single binding preserves. -/
theorem bindAll_induction {P : Scopes α → Prop} (hset : ∀ sc x v, P sc → P (sc.set r x v)) :
    ∀ (ps : List String) (vs : List α) (sc : Scopes α), P sc → P (sc.bindAll r ps vs)
  | [], _, _, h => by simpa only [bindAll] using h
  | _ :: _, [], _, h => by simpa only [bindAll] using h
  | p :: ps, v :: vs, sc, h => bindAll_induction hset ps vs (sc.set r p v) (hset sc p v h)

@[simp] theorem size_bindAll (ps : List String) (vs : List α) :
    (sc.bindAll r ps vs).size = sc.size :=
  bindAll_induction (P := fun sc' => sc'.size = sc.size) (fun _ _ _ h => by simpa using h) ps vs sc
    rfl

@[simp] theorem outer?_bindAll (ps : List String) (vs : List α) (r' : ScopeRef) :
    (sc.bindAll r ps vs).outer? r' = sc.outer? r' :=
  bindAll_induction (P := fun sc' => sc'.outer? r' = sc.outer? r') (fun _ _ _ h => by simpa using h)
    ps vs sc rfl

theorem getLocal?_bindAll_of_ne {r' : ScopeRef} (h : r' ≠ r) (ps : List String) (vs : List α)
    (x : String) : (sc.bindAll r ps vs).getLocal? r' x = sc.getLocal? r' x :=
  bindAll_induction (P := fun sc' => sc'.getLocal? r' x = sc.getLocal? r' x)
    (fun sc' y v h' => by simpa [getLocal?_set, h] using h') ps vs sc rfl

theorem contains_bindAll_self : ∀ {ps : List String} {vs : List α} {sc : Scopes α},
    ps.length = vs.length → r.index < sc.size → ∀ x,
    (sc.bindAll r ps vs).contains r x = true ↔ sc.contains r x = true ∨ x ∈ ps
  | [], [], _, _, _, x => by simp [bindAll]
  | p :: ps, v :: vs, sc, hlength, hr, x => by
    have hr' : r.index < (sc.set r p v).size := by simpa using hr
    rw [bindAll, contains_bindAll_self (by simpa using hlength) hr', contains_set, List.mem_cons]
    simp [hr, or_assoc]

end Scopes

end Vorn
