import Vorn.Proofs.Store.Belongs

/-!
# Values that share nothing

Two values are apart if no array and no hash is reached from both (`Store.Apart`). A change of an
array is seen only by what reaches the array (`Store.agrees_modifyArray`), and behind the change a
value reaches no more than what it and the new contents reached before
(`Store.reaches_of_modifyArray`). So a change of an array of one value leaves the other as it is,
and both are still apart if the new contents are apart from the other.

Two values are split if they belong to the store and are apart (`Store.Split`). They stay split
while the store grows, and when an array anywhere gets other contents, as long as nothing of the one
value comes into the other (`Store.Split.modifyArray`).
-/

namespace Vorn.Store

variable {s : Store} {w : Walk} {u v v' : Value} {c : Collection} {r : ArrayRef}

/-- No array and no hash is reached from both values. -/
def Apart (s : Store) (v v' : Value) : Prop :=
  ∀ c, s.Reaches .showing v c → ¬ s.Reaches .showing v' c

theorem Apart.symm (h : s.Apart v v') : s.Apart v' v := fun c hc hc' => h c hc' hc

theorem same_modifyArray (f : Array Value → Array Value) (hc : c ≠ .array r) :
    s.Same (s.modifyArray r f) c := by
  cases c with
  | array r' =>
    have hindex : r.index ≠ r'.index := by
      intro heq
      obtain rfl : r = r' := by
        cases r
        cases r'
        exact congrArg _ heq
      exact hc rfl
    simp only [Same, modifyArray, array, Array.getD_eq_getD_getElem?,
      Array.getElem?_modify, if_neg hindex]
  | hash r' => rfl

/-- What does not reach the array does not see it change. -/
theorem agrees_modifyArray (f : Array Value → Array Value) (hv : ¬ s.Reaches w v (.array r)) :
    s.Agrees w (s.modifyArray r f) v := by
  intro c hc
  refine same_modifyArray f ?_
  rintro rfl
  exact hv hc

theorem mem_items_modifyArray {vs : Array Value}
    (hu : u ∈ (s.modifyArray r fun _ => vs).items c) : u ∈ s.items c ∨ c = .array r ∧ u ∈ vs := by
  by_cases hc : c = .array r
  · subst hc
    have hr : r.index < s.arrays.size := by simpa [Has, modifyArray] using has_of_mem_items hu
    have hitems : (s.modifyArray r fun _ => vs).items (.array r) = vs.toList := by
      simp [items, modifyArray, array, hr, Array.getElem_modify]
    rw [hitems] at hu
    exact .inr ⟨rfl, Array.mem_toList_iff.mp hu⟩
  · rw [(same_modifyArray _ hc).items] at hu
    exact .inl hu

/-- What is reached behind a change was reached before, from the value or from the new contents. -/
theorem reaches_of_modifyArray {vs : Array Value}
    (h : (s.modifyArray r fun _ => vs).Reaches w v c) :
    s.Reaches w v c ∨ s.Reaches w v (.array r) ∧ ∃ u ∈ vs, s.Reaches w u c := by
  obtain ⟨c₀, hv, hpath⟩ := h
  induction hpath with
  | refl => exact .inl ⟨c₀, hv, .refl⟩
  | tail _ hpoints ih =>
    obtain ⟨u, hu, hc⟩ := hpoints
    rcases ih with ih | ⟨hr, u', hu', ih⟩
    · rcases mem_items_modifyArray hu with hold | ⟨rfl, hnew⟩
      · exact .inl (ih.points ⟨u, hold, hc⟩)
      · exact .inr ⟨ih, u, hnew, _, hc, .refl⟩
    · rcases mem_items_modifyArray hu with hold | ⟨rfl, hnew⟩
      · exact .inr ⟨hr, u', hu', ih.points ⟨u, hold, hc⟩⟩
      · exact .inr ⟨hr, u, hnew, _, hc, .refl⟩

/-- Values stay apart if an array of one of them gets contents that are apart from the other. -/
theorem Apart.modifyArray (h : s.Apart v v') {vs : Array Value}
    (hr : s.Reaches .showing v (.array r)) (hvs : ∀ u ∈ vs, s.Apart u v') :
    (s.modifyArray r fun _ => vs).Apart v v' := by
  intro c hc hc'
  have hagrees : s.Agrees .showing (s.modifyArray r fun _ => vs) v' :=
    agrees_modifyArray _ (h _ hr)
  have hother := hagrees.reaches_iff.mp hc'
  rcases reaches_of_modifyArray hc with hold | ⟨-, u, hu, hnew⟩
  · exact h c hold hother
  · exact hvs u hu c hnew hother

theorem Apart.of_agrees {t : Store} (h : s.Apart v v') (hv : s.Agrees .showing t v)
    (hv' : s.Agrees .showing t v') : t.Apart v v' :=
  fun c hc hc' => h c (hv.reaches_iff.mp hc) (hv'.reaches_iff.mp hc')

/-- A value of the store stays one if an array gets contents that belong to the store. -/
theorem Belongs.modifyArray {vs : Array Value} (h : s.Belongs v)
    (hvs : ∀ u ∈ vs, u ∈ s.array r ∨ s.Belongs u) :
    (s.modifyArray r fun _ => vs).Belongs v := by
  have hcases : ∀ {c}, (s.modifyArray r fun _ => vs).Reaches .showing v c →
      ∃ u, s.Belongs u ∧ s.Reaches .showing u c := by
    intro c hc
    rcases reaches_of_modifyArray hc with hold | ⟨hr, u, hu, hnew⟩
    · exact ⟨v, h, hold⟩
    · rcases hvs u hu with hmem | hbelongs
      · exact ⟨u, h.of_items hr (Array.mem_toList_iff.mpr hmem), hnew⟩
      · exact ⟨u, hbelongs, hnew⟩
  refine ⟨fun c hc => ?_, fun r' hr' => ?_⟩
  · obtain ⟨u, hu, hreach⟩ := hcases hc
    have hhas : s.Has c := hu.has c hreach
    cases c with
    | array r' => simpa [Has, Store.modifyArray] using hhas
    | hash r' => exact hhas
  · obtain ⟨u, hu, hreach⟩ := hcases hr'
    exact hu.wellFormed r' hreach

/-- Two values of the store that share nothing. -/
structure Split (s : Store) (v v' : Value) : Prop where
  left : s.Belongs v
  right : s.Belongs v'
  apart : s.Apart v v'

namespace Split

theorem grows {t : Store} (h : s.Split v v') (hst : s.Grows t) : t.Split v v' :=
  ⟨h.left.grows hst, h.right.grows hst, h.apart.of_agrees (h.left.agrees hst) (h.right.agrees hst)⟩

/-- An array gets contents from its own elements and from `args`. If it is an array of one of the
two values, the arguments are apart from the other. -/
theorem modifyArray {vs : Array Value} {args : List Value} (h : s.Split v v')
    (hvs : ∀ u ∈ vs, u ∈ s.array r ∨ u ∈ args) (hargs : ∀ a ∈ args, s.Belongs a)
    (hleft : s.Reaches .showing v (.array r) → ∀ a ∈ args, s.Apart a v')
    (hright : s.Reaches .showing v' (.array r) → ∀ a ∈ args, s.Apart a v) :
    (s.modifyArray r fun _ => vs).Split v v' := by
  have hbelongs : ∀ u ∈ vs, u ∈ s.array r ∨ s.Belongs u :=
    fun u hu => (hvs u hu).imp_right (hargs u)
  have hnew : ∀ {v v'}, s.Apart v v' → s.Reaches .showing v (.array r) →
      (∀ a ∈ args, s.Apart a v') → (s.modifyArray r fun _ => vs).Apart v v' := by
    intro v v' hapart hr hother
    refine hapart.modifyArray hr fun u hu => ?_
    rcases hvs u hu with hold | harg
    · exact fun c hc => hapart c (hr.of_items (Array.mem_toList_iff.mpr hold) hc)
    · exact hother u harg
  refine ⟨h.left.modifyArray hbelongs, h.right.modifyArray hbelongs, ?_⟩
  by_cases hr : s.Reaches .showing v (.array r)
  · exact hnew h.apart hr (hleft hr)
  · by_cases hr' : s.Reaches .showing v' (.array r)
    · exact (hnew h.apart.symm hr' (hright hr')).symm
    · exact h.apart.of_agrees (agrees_modifyArray _ hr) (agrees_modifyArray _ hr')

end Split

end Vorn.Store
