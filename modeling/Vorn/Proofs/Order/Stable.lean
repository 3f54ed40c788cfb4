import Vorn.Proofs.Eval.Perform

/-!
# What sorting does

A comparison with effects is described on the elements of a list only (`Order.Compares`): it keeps
an invariant of the state, it may stop, and as far as it is consistent its answers are those of a
relation. One lemma for each part of the sort then says what the part does under any such
comparison: the elements of the result are those of the list, whatever the answers are, and if they
are those of a total preorder then the result is sorted and stable (`Order.ensures_sort`,
`Order.ensures_sortDescending`).
-/

namespace Vorn.Order

variable {α : Type}

/-! ## Preorders and stable sorts -/

/-- The relation is total and transitive on the elements of the list. -/
structure TotalPreorderOn (le : α → α → Bool) (vs : List α) : Prop where
  total : ∀ x ∈ vs, ∀ y ∈ vs, le x y = true ∨ le y x = true
  trans : ∀ x ∈ vs, ∀ y ∈ vs, ∀ z ∈ vs, le x y = true → le y z = true → le x z = true

instance (le : α → α → Bool) (vs : List α) : Decidable (TotalPreorderOn le vs) :=
  decidable_of_iff
    ((∀ x ∈ vs, ∀ y ∈ vs, le x y = true ∨ le y x = true) ∧
      ∀ x ∈ vs, ∀ y ∈ vs, ∀ z ∈ vs, le x y = true → le y z = true → le x z = true)
    ⟨fun h => ⟨h.1, h.2⟩, fun h => ⟨h.total, h.trans⟩⟩

/-- The elements that are equal to `z` in the order, as they stand in the list. -/
def equals (le : α → α → Bool) (z : α) (xs : List α) : List α :=
  xs.filter fun y => le z y && le y z

/-- The elements are in order, and those that are equal to one of `vs` stand as they stood
before. -/
structure Arranged (le : α → α → Bool) (vs before after : List α) : Prop where
  sorted : after.Pairwise fun x y => le x y = true
  stable : ∀ z ∈ vs, equals le z after = equals le z before

/-- The list is in order, and equal elements stand as they stood before. -/
def StablySorted (le : α → α → Bool) (before after : List α) : Prop :=
  Arranged le before before after

/-- The order, or its converse. -/
def directed (descending : Bool) (le : α → α → Bool) (x y : α) : Bool :=
  if descending then le y x else le x y

section

variable {le : α → α → Bool} {vs before after : List α} {x y z : α}

theorem mem_equals : y ∈ equals le z before ↔ y ∈ before ∧ le z y = true ∧ le y z = true := by
  simp [equals]

theorem equals_append (xs ys : List α) :
    equals le z (xs ++ ys) = equals le z xs ++ equals le z ys :=
  List.filter_append xs ys

theorem equals_reverse (xs : List α) : equals le z xs.reverse = (equals le z xs).reverse :=
  List.filter_reverse

theorem equals_flip (le : α → α → Bool) (z : α) (xs : List α) :
    equals (fun x y => le y x) z xs = equals le z xs := by
  simp only [equals, Bool.and_comm]

namespace TotalPreorderOn

variable (h : TotalPreorderOn le vs)
include h

theorem of_subset {ws : List α} (hsub : ∀ x ∈ ws, x ∈ vs) : TotalPreorderOn le ws where
  total x hx y hy := h.total x (hsub x hx) y (hsub y hy)
  trans x hx y hy z hz := h.trans x (hsub x hx) y (hsub y hy) z (hsub z hz)

theorem of_not (hx : x ∈ vs) (hy : y ∈ vs) (hxy : le x y = false) : le y x = true := by
  rcases h.total x hx y hy with hle | hle
  · rw [hxy] at hle
    cases hle
  · exact hle

/-- Behind something greater there is nothing smaller. -/
theorem not_trans (hx : x ∈ vs) (hy : y ∈ vs) (hz : z ∈ vs) (hyx : le y x = false)
    (hyz : le y z = true) : le z x = false := by
  cases hzx : le z x with
  | false => rfl
  | true =>
    rw [h.trans y hy z hz x hx hyz hzx] at hyx
    cases hyx

theorem strict_trans (hx : x ∈ vs) (hy : y ∈ vs) (hz : z ∈ vs) (hyx : le y x = false)
    (hzy : le z y = false) : le z x = false :=
  h.not_trans hx hy hz hyx (h.of_not hz hy hzy)

/-- In a list that goes up strictly no two elements are equal, so equal ones stand in any order. -/
theorem equals_reverse_of_strict {xs : List α} (hz : z ∈ vs) (hxs : ∀ x ∈ xs, x ∈ vs)
    (hstrict : xs.Pairwise fun x y => le y x = false) :
    equals le z xs.reverse = equals le z xs := by
  have hone : (equals le z xs).length ≤ 1 := by
    have hpair : (equals le z xs).Pairwise fun x y => le y x = false :=
      hstrict.sublist List.filter_sublist
    match heq : equals le z xs with
    | [] => simp
    | [_] => simp
    | a :: b :: rest =>
      rw [heq] at hpair
      have ha : a ∈ equals le z xs := by simp [heq]
      have hb : b ∈ equals le z xs := by simp [heq]
      obtain ⟨haxs, hza, -⟩ := mem_equals.mp ha
      obtain ⟨hbxs, -, hbz⟩ := mem_equals.mp hb
      have hba := h.trans b (hxs b hbxs) z hz a (hxs a haxs) hbz hza
      rw [List.rel_of_pairwise_cons hpair List.mem_cons_self] at hba
      cases hba
  rw [equals_reverse]
  match heq : equals le z xs with
  | [] => rfl
  | [_] => rfl
  | a :: b :: rest => simp [heq] at hone

/-- An element is put behind all that are not greater, and in front of all that are. -/
theorem arranged_insert (harr : Arranged le vs before after) {front back : List α}
    (hsplit : after = front ++ back) (hafter : ∀ y ∈ after, y ∈ vs) (hx : x ∈ vs)
    (hfront : ∀ y ∈ front, le y x = true) (hback : ∀ y ∈ back, le y x = false) :
    Arranged le vs (before ++ [x]) (front ++ x :: back) := by
  subst hsplit
  obtain ⟨hpfront, hpback, hcross⟩ := List.pairwise_append.mp harr.sorted
  refine ⟨List.pairwise_append.mpr ⟨hpfront, List.pairwise_cons.mpr ⟨fun y hy => ?_, hpback⟩, ?_⟩,
    fun z hz => ?_⟩
  · exact h.of_not (hafter y (by simp [hy])) hx (hback y hy)
  · intro y hy w hw
    rcases List.mem_cons.mp hw with rfl | hw
    · exact hfront y hy
    · exact hcross y hy w hw
  · have hold := harr.stable z hz
    rw [equals_append] at hold ⊢
    rw [equals_append, ← hold]
    by_cases hzx : le z x = true ∧ le x z = true
    · -- behind the place there is nothing that is equal to the new element
      have hnone : equals le z back = [] := by
        refine List.eq_nil_iff_forall_not_mem.mpr fun y hy => ?_
        obtain ⟨hyback, -, hyz⟩ := mem_equals.mp hy
        have hyx := h.trans y (hafter y (by simp [hyback])) z hz x hx hyz hzx.1
        rw [hback y hyback] at hyx
        cases hyx
      have hcons : equals le z (x :: back) = [x] := by
        rw [equals, List.filter_cons_of_pos (by simp [hzx]), ← equals, hnone]
      have hsingle : equals le z [x] = [x] := by simp [equals, hzx]
      rw [hcons, hsingle, hnone, List.append_nil]
    · have hcons : equals le z (x :: back) = equals le z back :=
        List.filter_cons_of_neg (by simpa using hzx)
      have hsingle : equals le z [x] = [] := by simpa [equals] using hzx
      rw [hcons, hsingle, List.append_nil]

end TotalPreorderOn

end

/-! ## The parts of the sort -/

section

variable {less joins : α → α → Run Bool} {vs : List α} {I : State → Prop}
  {stopped : Stop → State → Prop} {A : Prop} {le : α → α → Bool} {s : State}

/-- On the elements of the list the comparison keeps `I`, stops as `stopped` says, and answers by
`le` as far as `A` holds. -/
def Compares (less : α → α → Run Bool) (vs : List α) (I : State → Prop)
    (stopped : Stop → State → Prop) (A : Prop) (le : α → α → Bool) : Prop :=
  ∀ x ∈ vs, ∀ y ∈ vs, ∀ s, I s →
    (less x y).Ensures s (fun b t => I t ∧ (A → b = !le y x)) stopped

/-- The run at the head of a list: two neighbours in it, and so any two elements, are related as
those that may join. -/
theorem ensures_run {R : α → α → Prop}
    (hjoins : ∀ x ∈ vs, ∀ y ∈ vs, ∀ s, I s →
      (joins x y).Ensures s (fun b t => I t ∧ (b = true → R x y)) stopped)
    (htrans : ∀ x ∈ vs, ∀ y ∈ vs, ∀ z ∈ vs, R x y → R y z → R x z) {done : List α} {last : α}
    {rest : List α} (hrun : ∀ x ∈ last :: done, x ∈ vs) (hrest : ∀ x ∈ rest, x ∈ vs)
    (hpair : (last :: done).Pairwise R) (hs : I s) :
    (run joins done last rest).Ensures s
      (fun p t => I t ∧ p.1.Pairwise R ∧ p.1.reverse ++ p.2 = (last :: done).reverse ++ rest)
      stopped := by
  induction rest generalizing done last s with
  | nil => exact .pure ⟨hs, hpair, rfl⟩
  | cons x rest ih =>
    obtain ⟨hx, hrest⟩ := List.forall_mem_cons.mp hrest
    have hlast : last ∈ vs := hrun last List.mem_cons_self
    rw [run]
    refine (hjoins x hx last hlast s hs).bind ?_
    rintro b t ⟨ht, hb⟩
    refine .ite (fun hjoin => ?_) fun _ => ?_
    · have hxlast : R x last := hb hjoin
      have hnext : (x :: last :: done).Pairwise R := by
        refine List.pairwise_cons.mpr ⟨fun y hy => ?_, hpair⟩
        rcases List.mem_cons.mp hy with rfl | hdone
        · exact hxlast
        · exact htrans x hx last hlast y (hrun y hy) hxlast (List.rel_of_pairwise_cons hpair hdone)
      refine (ih (List.forall_mem_cons.mpr ⟨hx, hrun⟩) hrest hnext ht).mono ?_
      rintro p u ⟨hu, hp, heq⟩
      exact ⟨hu, hp, by simpa using heq⟩
    · exact .pure ⟨ht, hpair, rfl⟩

/-- The place of an element: what is in front of it is not greater, and what is behind it is. -/
theorem ensures_place (hless : Compares less vs I stopped A le)
    (hA : A → TotalPreorderOn le vs) {sorted : Array α} {x : α} {low high : Nat}
    {s : State} (hmem : ∀ y ∈ sorted.toList, y ∈ vs) (hx : x ∈ vs)
    (hsorted : A → sorted.toList.Pairwise fun x y => le x y = true)
    (hlow : low ≤ high) (hhigh : high ≤ sorted.size)
    (hfront : A → ∀ y ∈ sorted.toList.take low, le y x = true)
    (hback : A → ∀ y ∈ sorted.toList.drop high, le y x = false) (hs : I s) :
    (place less sorted x low high).Ensures s
      (fun i t => I t ∧ i ≤ sorted.size ∧ (A → ∀ y ∈ sorted.toList.take i, le y x = true) ∧
        (A → ∀ y ∈ sorted.toList.drop i, le y x = false)) stopped := by
  by_cases h : low < high
  · have hmiddle : (low + high) / 2 < sorted.toList.length := by simp; omega
    generalize hy : sorted.toList[(low + high) / 2] = y
    have hsome : sorted[(low + high) / 2]? = some y := by
      rw [← hy, ← Array.getElem?_toList, List.getElem?_eq_getElem hmiddle]
    have hdrop : sorted.toList.drop ((low + high) / 2) =
        y :: sorted.toList.drop ((low + high) / 2 + 1) := by
      rw [List.drop_eq_getElem_cons hmiddle, hy]
    have htake : sorted.toList.take ((low + high) / 2 + 1) =
        sorted.toList.take ((low + high) / 2) ++ [y] := by
      rw [← hy, List.take_append_getElem]
    have hyvs : y ∈ vs := hmem y (hy ▸ List.getElem_mem hmiddle)
    rw [place_step h hsome]
    refine (hless x hx y hyvs s hs).bind ?_
    rintro b t ⟨ht, hb⟩
    refine .ite (fun htrue => ?_) fun hfalse => ?_
    · -- all from the middle on are greater
      refine ensures_place hless hA hmem hx hsorted (by omega) (by omega) hfront
        (fun ha z hz => ?_) ht
      have hyx : le y x = false := by simpa [htrue] using hb ha
      have hzvs : z ∈ vs := hmem z (List.mem_of_mem_drop hz)
      have hpair := (hsorted ha).sublist (List.drop_sublist ((low + high) / 2) _)
      rw [hdrop] at hz hpair
      rcases List.mem_cons.mp hz with rfl | hz
      · exact hyx
      · exact (hA ha).not_trans hx hyvs hzvs hyx (List.rel_of_pairwise_cons hpair hz)
    · -- none up to the middle is
      refine ensures_place hless hA hmem hx hsorted (by omega) hhigh (fun ha z hz => ?_) hback ht
      have hyx : le y x = true := by simpa [hfalse] using hb ha
      have hzvs : z ∈ vs := hmem z (List.mem_of_mem_take hz)
      have hpair := (hsorted ha).sublist (List.take_sublist ((low + high) / 2 + 1) _)
      rw [htake] at hz hpair
      rcases List.mem_append.mp hz with hz | hz
      · have hzy := (List.pairwise_append.mp hpair).2.2 z hz y (by simp)
        exact (hA ha).trans z hzvs y hyvs x hx hzy hyx
      · rw [List.mem_singleton.mp hz]
        exact hyx
  · have heq : low = high := by omega
    subst heq
    rw [place_done h]
    exact .pure ⟨hs, hhigh, hfront, hback⟩
termination_by high - low

theorem insertIdx_eq_take_append_drop (x : α) {xs : List α} {i : Nat} (h : i ≤ xs.length) :
    xs.insertIdx i x = xs.take i ++ x :: xs.drop i := by
  induction xs generalizing i with
  | nil =>
    obtain rfl : i = 0 := by simpa using h
    rfl
  | cons y xs ih =>
    cases i with
    | zero => rfl
    | succ i =>
      rw [List.insertIdx_succ_cons, ih (by simpa using h)]
      rfl

/-- Further elements are put into their places. -/
theorem ensures_insertAll (hless : Compares less vs I stopped A le)
    (hA : A → TotalPreorderOn le vs) (sorted : Array α) (rest : List α) {before : List α}
    (hmem : ∀ y ∈ before ++ rest, y ∈ vs) (hperm : sorted.toList.Perm before)
    (harr : A → Arranged le vs before sorted.toList) (hs : I s) :
    (insertAll less sorted rest).Ensures s
      (fun r t => I t ∧ r.toList.Perm (before ++ rest) ∧
        (A → Arranged le vs (before ++ rest) r.toList)) stopped := by
  induction rest generalizing before sorted s with
  | nil =>
    rw [insertAll, List.append_nil]
    exact .pure ⟨hs, hperm, harr⟩
  | cons x rest ih =>
    have hsorted : ∀ y ∈ sorted.toList, y ∈ vs := fun y hy =>
      hmem y (List.mem_append_left _ (hperm.mem_iff.mp hy))
    have hx : x ∈ vs := hmem x (by simp)
    have hstart : A → ∀ y ∈ sorted.toList.take 0, le y x = true := by simp
    have hnone : sorted.toList.drop sorted.size = [] := by simp
    have hend : A → ∀ y ∈ sorted.toList.drop sorted.size, le y x = false := by simp [hnone]
    rw [insertAll]
    refine (ensures_place hless hA hsorted hx (fun ha => (harr ha).sorted) (Nat.zero_le _)
      (Nat.le_refl _) hstart hend hs).bind ?_
    rintro i t ⟨ht, hi, hfront, hback⟩
    have hinsert : (sorted.insertIdxIfInBounds i x).toList =
        sorted.toList.take i ++ x :: sorted.toList.drop i := by
      rw [Array.insertIdxIfInBounds, dif_pos hi, Array.toList_insertIdx,
        insertIdx_eq_take_append_drop x (by simpa using hi)]
    have hnext : (before ++ [x]) ++ rest = before ++ x :: rest := by simp
    rw [← hnext] at hmem ⊢
    refine ih _ hmem ?_ (fun ha => ?_) ht
    · rw [hinsert]
      refine List.perm_middle.trans ?_
      rw [List.take_append_drop]
      exact (hperm.cons x).trans (List.perm_append_singleton x before).symm
    · rw [hinsert]
      exact (hA ha).arranged_insert (harr ha) (List.take_append_drop i _).symm hsorted hx
        (hfront ha) (hback ha)

theorem Compares.of_subset (hless : Compares less vs I stopped A le) {ws : List α}
    (hsub : ∀ x ∈ ws, x ∈ vs) : Compares less ws I stopped A le :=
  fun x hx y hy => hless x (hsub x hx) y (hsub y hy)

/-- What a comparison says of two elements of a run that goes down. -/
theorem Compares.strict (hless : Compares less vs I stopped A le) :
    ∀ x ∈ vs, ∀ y ∈ vs, ∀ s, I s →
      (less x y).Ensures s (fun b t => I t ∧ (b = true → A → le y x = false)) stopped := by
  intro x hx y hy s hs
  refine (hless x hx y hy s hs).mono ?_
  rintro b t ⟨ht, hb⟩
  refine ⟨ht, fun htrue ha => ?_⟩
  simpa [htrue] using hb ha

/-- What it says of two elements of a run that does not. -/
theorem Compares.weak (hless : Compares less vs I stopped A le) :
    ∀ x ∈ vs, ∀ y ∈ vs, ∀ s, I s →
      (do return !(← less x y) : Run Bool).Ensures s
        (fun b t => I t ∧ (b = true → A → le y x = true)) stopped := by
  intro x hx y hy s hs
  refine (hless x hx y hy s hs).bind ?_
  rintro b t ⟨ht, hb⟩
  refine .pure ⟨ht, fun hnot ha => ?_⟩
  simpa [hb ha] using hnot

/-- **A sort gives the elements of the list, whatever the comparison answers**; if it answers by a
total preorder, they are in order, and equal ones stand as they stood before. -/
theorem ensures_sort (hless : Compares less vs I stopped A le) (hA : A → TotalPreorderOn le vs)
    (hs : I s) :
    (sort less vs).Ensures s
      (fun r t => I t ∧ r.toList.Perm vs ∧ (A → StablySorted le vs r.toList)) stopped := by
  rcases vs with _ | ⟨x, _ | ⟨y, rest⟩⟩
  · exact .pure ⟨hs, .refl _, fun _ => ⟨.nil, fun _ _ => rfl⟩⟩
  · exact .pure ⟨hs, .refl _, fun _ => ⟨List.pairwise_singleton _ _, fun _ _ => rfl⟩⟩
  · generalize hvs : x :: y :: rest = vs at hless hA ⊢
    have hx : x ∈ vs := by simp [← hvs]
    have hy : y ∈ vs := by simp [← hvs]
    have hhead : ∀ z ∈ [y, x], z ∈ vs := by simp [hx, hy]
    have hrest : ∀ z ∈ rest, z ∈ vs := fun z hz => by simp [← hvs, hz]
    rw [← hvs, sort, hvs]
    refine (hless y hy x hx s hs).bind ?_
    rintro b t ⟨ht, hb⟩
    refine .ite (fun htrue => ?_) fun hfalse => ?_
    · -- the run goes down strictly, and gathering it turns it around
      have hpair : [y, x].Pairwise fun a b => A → le b a = false :=
        List.pairwise_pair.mpr fun ha => by simpa [htrue] using hb ha
      have htrans : ∀ a ∈ vs, ∀ b ∈ vs, ∀ c ∈ vs, (A → le b a = false) → (A → le c b = false) →
          A → le c a = false := fun a ha b hb c hc hab hbc h =>
        (hA h).strict_trans ha hb hc (hab h) (hbc h)
      refine (ensures_run hless.strict htrans hhead hrest hpair ht).bind ?_
      rintro p u ⟨hu, hstrict, hall⟩
      have hall : p.1.reverse ++ p.2 = vs := hall.trans (by simp [hvs])
      have hmem : ∀ z ∈ p.1, z ∈ vs := fun z hz => by simp [← hall, hz]
      have harr : A → Arranged le vs p.1.reverse p.1 := fun ha => by
        have hdown : p.1.Pairwise fun a b => le b a = false := hstrict.imp fun h => h ha
        refine ⟨hdown.imp_of_mem fun hz hw h => (hA ha).of_not (hmem _ hw) (hmem _ hz) h,
          fun z hz => ?_⟩
        exact ((hA ha).equals_reverse_of_strict hz hmem hdown).symm
      have hinsert := ensures_insertAll hless hA p.1.toArray p.2 (fun z hz => hall ▸ hz)
        (List.reverse_perm p.1).symm harr hu
      rw [hall] at hinsert
      exact hinsert
    · have hpair : [y, x].Pairwise fun a b => A → le b a = true :=
        List.pairwise_pair.mpr fun ha => by simpa [hfalse] using hb ha
      have htrans : ∀ a ∈ vs, ∀ b ∈ vs, ∀ c ∈ vs, (A → le b a = true) → (A → le c b = true) →
          A → le c a = true := fun a ha b hb c hc hab hbc h =>
        (hA h).trans c hc b hb a ha (hbc h) (hab h)
      refine (ensures_run hless.weak htrans hhead hrest hpair ht).bind ?_
      rintro p u ⟨hu, hweak, hall⟩
      have hall : p.1.reverse ++ p.2 = vs := hall.trans (by simp [hvs])
      have harr : A → Arranged le vs p.1.reverse p.1.reverse := fun ha =>
        ⟨List.pairwise_reverse.mpr (hweak.imp fun h => h ha), fun _ _ => rfl⟩
      have hinsert := ensures_insertAll hless hA p.1.reverse.toArray p.2 (fun z hz => hall ▸ hz)
        (.refl _) harr hu
      rw [hall] at hinsert
      exact hinsert

/-- The same from the greatest element to the least; equal ones stand as they stood before, too. -/
theorem ensures_sortDescending (hless : Compares less vs I stopped A le)
    (hA : A → TotalPreorderOn le vs) (hs : I s) :
    (sortDescending less vs).Ensures s
      (fun r t => I t ∧ r.toList.Perm vs ∧
        (A → StablySorted (fun x y => le y x) vs r.toList)) stopped := by
  have hsub : ∀ x ∈ vs.reverse, x ∈ vs := fun x => List.mem_reverse.mp
  rw [sortDescending]
  refine (ensures_sort (hless.of_subset hsub) (fun ha => (hA ha).of_subset hsub) hs).bind ?_
  rintro r t ⟨ht, hperm, hsorted⟩
  refine .pure ⟨ht, ?_, fun ha => ?_⟩
  · rw [Array.toList_reverse]
    exact (List.reverse_perm _).trans (hperm.trans (List.reverse_perm vs))
  · obtain ⟨hup, hstable⟩ := hsorted ha
    rw [Array.toList_reverse]
    refine ⟨List.pairwise_reverse.mpr hup, fun z hz => ?_⟩
    have heq := hstable z (List.mem_reverse.mpr hz)
    rw [equals_flip le z, equals_flip le z, equals_reverse, heq, equals_reverse,
      List.reverse_reverse]

end

end Vorn.Order
