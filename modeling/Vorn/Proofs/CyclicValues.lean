import Vorn.Proofs.Eval.Library
import Vorn.Proofs.References
import Vorn.Proofs.Store.DeepCopy

/-!
# Only cycles cannot be shown or copied

Showing a value and copying it go down as far as its arrays and hashes lie inside each other. They
end with a result exactly if no array or hash on the way is reached from itself
(`fails_only_on_cycles`); how often one is shared does not matter. A depth of as many arrays and
hashes as the value reaches is enough, and for a value with a cycle no depth is. Copying asks for a
value of the store, which every value of a session is (`Session.belongs_of_mem_values`).
-/

namespace Vorn

open Run

namespace Run

variable {s : State} {v : Value}

theorem inspect_cases (s : State) (v : Value) :
    s.store.Acyclic .showing v ∧ (∃ text, inspect v s = .ok text s) ∨
      ¬ s.store.Acyclic .showing v ∧ inspect v s = .error .exhausted s := by
  have hrun : inspect v s = orExhausted (s.store.inspect? v) s := rfl
  rw [← Store.isSome_snapshot?_iff, hrun, Store.inspect?]
  cases s.store.snapshot? v with
  | none => exact .inr ⟨Bool.false_ne_true, rfl⟩
  | some x => exact .inl ⟨rfl, x.text, rfl⟩

/-- What copying does to the state, and what it finds. -/
theorem clone_cases (hv : s.store.Belongs v) (pos : Pos) :
    ∃ s', s.Adds s' ∧
      (s.store.Acyclic .copying v ∧
          (∃ v', clone v pos s = .ok v' s' ∧ s.store.Copied v s'.store v') ∨
        ¬ s.store.Acyclic .copying v ∧ clone v pos s = .error .exhausted s') := by
  have hadds : s.Adds (Ending.state (clone v pos s)) := (basic_clone v pos).adds s
  have hrun : clone v pos s = orExhausted (s.store.clone v pos).1
      { s with store := (s.store.clone v pos).2 } := rfl
  refine ⟨{ s with store := (s.store.clone v pos).2 }, ?_, ?_⟩
  · rw [hrun] at hadds
    cases hfound : (s.store.clone v pos).1 with
    | none =>
      rw [hfound] at hadds
      exact hadds
    | some v' =>
      rw [hfound] at hadds
      exact hadds
  · obtain ⟨-, ⟨hacyclic, v', hv', hcopied⟩ | ⟨hcyclic, hnone⟩⟩ := Store.clone_cases hv pos
    · exact .inl ⟨hacyclic, v', by rw [hrun, hv']; rfl, hcopied⟩
    · exact .inr ⟨hcyclic, by rw [hrun, hnone]; rfl⟩

end Run

/-- **Only cycles cannot be shown or copied.** Showing a value ends with a text if no array or hash
that it reaches is reached from itself, `return` signals seen through; otherwise it ends in
exhaustion and nothing has changed. Copying a value of the store ends with a value if no array or
hash that it reaches through elements and pairs is reached from itself; otherwise it ends in
exhaustion, and either way nothing that was there has changed. The bound on the depth is no part of
this: with any depth that is at least the number of arrays and hashes that an acyclic value reaches,
showing and copying find what they find without a bound, and for a value with a cycle they find
nothing with any depth. At every moment of a session all values are values of its store. -/
theorem fails_only_on_cycles (s : State) (v : Value) :
    (s.store.Acyclic .showing v ∧ (∃ text, inspect v s = .ok text s) ∨
        ¬ s.store.Acyclic .showing v ∧ inspect v s = .error .exhausted s) ∧
      (∀ depth, (s.store.Acyclic .showing v → (s.store.reached .showing v).ncard ≤ depth →
          (s.store.snapshotWithin depth v).isSome ∧
            s.store.snapshotWithin depth v = s.store.snapshot? v) ∧
        (¬ s.store.Acyclic .showing v → s.store.snapshotWithin depth v = none)) ∧
      (s.store.Belongs v → ∀ pos,
        (∃ s', s.Adds s' ∧
          (s.store.Acyclic .copying v ∧ (∃ v', clone v pos s = .ok v' s') ∨
            ¬ s.store.Acyclic .copying v ∧ clone v pos s = .error .exhausted s')) ∧
        ∀ depth, (s.store.Acyclic .copying v → (s.store.reached .copying v).ncard ≤ depth →
            ∃ v' t, (Store.copyWithin pos depth v).run s.store = (some v', t) ∧
              s.store.Copied v t v') ∧
          (¬ s.store.Acyclic .copying v →
            ∃ t, (Store.copyWithin pos depth v).run s.store = (none, t) ∧ s.store.Grows t)) ∧
      ∀ settings sources, ∀ m ∈ Session.history settings sources Session.start, ∀ u ∈ m.values,
        m.state.store.Belongs u := by
  refine ⟨inspect_cases s v, fun depth => ⟨fun h hdepth => ?_, fun h => ?_⟩, fun hv pos =>
    ⟨?_, fun depth => ⟨fun h hdepth => ?_, fun h => ?_⟩⟩,
    fun settings sources m hm u hu => Session.belongs_of_mem_values hm hu⟩
  · have hwithin := h.within (Store.ncard_filled_le_reached.trans hdepth)
    exact ⟨Store.isSome_snapshotWithin_iff.mpr hwithin, hwithin.snapshot?_eq.symm⟩
  · refine Option.not_isSome_iff_eq_none.mp fun hsome => h ?_
    exact (Store.isSome_snapshotWithin_iff.mp hsome).acyclic
  · obtain ⟨s', hadds, ⟨hacyclic, v', hclone, -⟩ | hexhausted⟩ := clone_cases hv pos
    · exact ⟨s', hadds, .inl ⟨hacyclic, v', hclone⟩⟩
    · exact ⟨s', hadds, .inr hexhausted⟩
  · have hwithin := h.within (Store.ncard_filled_le_reached.trans hdepth)
    obtain ⟨v', t, hrun, -, hcopied⟩ := Store.copies_copyWithin pos hv hwithin
    exact ⟨v', t, hrun, hcopied⟩
  · have hgrows := Store.Copy.grows_copyWithin pos depth v s.store
    cases hrun : ((Store.copyWithin pos depth v).run s.store : Option Value × Store) with
    | mk o t =>
      rw [hrun] at hgrows
      cases o with
      | none => exact ⟨t, rfl, hgrows⟩
      | some v' => exact absurd (Store.within_of_copyWithin hv hrun).acyclic h

/-- An array that is in another one twice, and an array that contains itself. -/
def sharedAndCyclic : State :=
  { store := { arrays := #[#[.int 1 .start], #[.array ⟨0⟩ .start, .array ⟨0⟩ .start],
      #[.array ⟨2⟩ .start]] } }

theorem sound_sharedAndCyclic : sharedAndCyclic.store.Sound := by
  refine ⟨?_, fun r => Table.wellFormed_empty⟩
  rintro (⟨⟨i⟩⟩ | ⟨⟨i⟩⟩) u hu c hc
  · have hi : i < 3 := Store.has_of_mem_items hu
    obtain rfl | rfl | rfl : i = 0 ∨ i = 1 ∨ i = 2 := by omega
    · obtain rfl := List.mem_singleton.mp hu
      cases hc
    · obtain rfl | rfl := List.mem_pair.mp hu <;> cases hc <;> exact Nat.zero_lt_succ 2
    · obtain rfl := List.mem_singleton.mp hu
      cases hc
      exact Nat.lt_add_one 2
  · exact absurd (Store.has_of_mem_items hu) (Nat.not_lt_zero i)

theorem fails_only_on_cycles_shared :
    let s := sharedAndCyclic
    let shared : Value := .array ⟨1⟩ .start
    let cyclic : Value := .array ⟨2⟩ .start
    (∀ w, s.store.Acyclic w shared ∧ ¬ s.store.Acyclic w cyclic) ∧
      (s.store.Belongs shared ∧ s.store.Belongs cyclic) ∧
      (s.store.snapshotWithin (s.store.reached .showing shared).ncard shared).isSome ∧
      s.store.snapshotWithin 7 cyclic = none ∧
      (∃ s', s.Adds s' ∧ ∃ v', clone shared .start s = .ok v' s') ∧
      (∃ t, (Store.copyWithin .start 7 cyclic).run s.store = (none, t) ∧ s.store.Grows t) ∧
      ∃ m ∈ Session.history {} ["[[1]]"] Session.start, ∃ u ∈ m.values,
        u.ty = .array ∧ m.state.store.Belongs u := by
  intro s shared cyclic
  have hacyclic : ∀ w, s.store.Acyclic w shared ∧ ¬ s.store.Acyclic w cyclic := fun w => by
    cases w <;> decide
  have hshared : s.store.Belongs shared := sound_sharedAndCyclic.belongs fun c hc => by
    cases hc
    exact Nat.lt_of_lt_of_le Nat.one_lt_two (Nat.le_succ 2)
  have hcyclic : s.store.Belongs cyclic := sound_sharedAndCyclic.belongs fun c hc => by
    cases hc
    exact Nat.lt_add_one 2
  obtain ⟨-, hdepth, hcopy, hsession⟩ := fails_only_on_cycles s shared
  obtain ⟨-, hnoDepth, hnoCopy, -⟩ := fails_only_on_cycles s cyclic
  have hmoment : (Session.history {} ["[[1]]"] Session.start).any
      (fun m => m.values.any fun u => u.ty = .array) = true := by
    decide +kernel
  simp only [List.any_eq_true, decide_eq_true_eq] at hmoment
  obtain ⟨m, hm, u, hu, harray⟩ := hmoment
  obtain ⟨s', hadds, ⟨-, hclone⟩ | ⟨hnot, -⟩⟩ := (hcopy hshared .start).1
  · exact ⟨hacyclic, ⟨hshared, hcyclic⟩,
      ((hdepth _).1 (hacyclic .showing).1 (Nat.le_refl _)).1, (hnoDepth 7).2 (hacyclic .showing).2,
      ⟨s', hadds, hclone⟩, ((hnoCopy hcyclic .start).2 7).2 (hacyclic .copying).2,
      m, hm, u, hu, harray, hsession {} _ m hm u hu⟩
  · exact absurd (hacyclic .copying).1 hnot

end Vorn
