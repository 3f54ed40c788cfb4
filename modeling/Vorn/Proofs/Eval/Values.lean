import Vorn.Proofs.Eval.Contract

/-!
# The values of a store, of a task and at a moment

All that a store holds and all that a call is about, as lists, and what a contract says of them.
-/

namespace Vorn

def Table.values (t : Table) : List Value := t.entries.flatMap fun e => [e.keyValue, e.value]

/-- All values in arrays, hashes and bindings. -/
def Store.values (s : Store) : List Value :=
  s.arrays.toList.flatMap Array.toList ++
    (s.tables.toList.flatMap Table.values ++
      s.scopes.cells.toList.flatMap fun cell => cell.bindings.map (·.2))

/-- What a call is about. -/
def Task.values : Task → List Value
  | .apply _ f args => f :: args
  | _ => []

/-- All values at the moment: what a call is about, a result, and what the store holds. -/
def Moment.values : Moment → List Value
  | started t s => t.values ++ s.store.values
  | finished _ (.ok v s) => v :: s.store.values
  | finished _ (.error _ s) => s.store.values

theorem Law.AdmitsStore.values {L : Law} {s : Store} (h : L.AdmitsStore s) :
    ∀ v ∈ s.values, L.Admits v := by
  intro v hv
  simp only [Store.values, Table.values, List.mem_append, List.mem_flatMap, List.mem_map,
    Array.mem_toList_iff] at hv
  rcases hv with ⟨vs, hvs, hv⟩ | ⟨t, ht, e, he, hv⟩ | ⟨cell, hcell, b, hb, rfl⟩
  · exact h.arrays vs hvs v hv
  · obtain ⟨hkey, hvalue⟩ := h.tables t ht e he
    simp only [List.mem_cons, List.not_mem_nil, or_false] at hv
    rcases hv with rfl | rfl
    · exact hkey
    · exact hvalue
  · exact h.scopes cell hcell b hb

theorem Contract.Needs.values {C : Contract} {w : C.World} {t : Task} (h : C.Needs w t) :
    ∀ v ∈ t.values, (C.law w).Admits v := by
  cases t with
  | apply pos f args => exact List.forall_mem_cons.mpr h
  | _ => simp [Task.values]

/-- Where signals may be data, whatever a task gives is data. -/
theorem Law.Yields.of_signals {L : Law} (hsignals : L.Signals) {t : Task} {v : Value}
    (h : L.Yields t v) : L.Admits v := by
  cases t with
  | expr | apply => exact h
  | stmt | block => exact Law.AdmitsResult.of_signals hsignals h

end Vorn
