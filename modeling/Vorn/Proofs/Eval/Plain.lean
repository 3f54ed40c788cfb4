import Vorn.Proofs.Eval.Keeps

/-!
# Built-in functions and methods that call nothing back

Each of them keeps a law and gives a value that the law admits, if it admits the arguments. For the
few that give a length or an index, the lengths of arrays and texts must be integers of the law as
well (`Run.KeepsSized`, `Ints.Fits`).
-/

namespace Vorn

namespace Ints

/-- The length of each array, and each index in it, is one of the integers. -/
def Sized (I : Ints) (s : Store) : Prop := ∀ vs ∈ s.arrays, ∀ i ≤ vs.size, I.Holds i

/-- The length of a text is one of the integers. -/
def Fits (I : Ints) : Value → Prop
  | .string s _ => I.Holds s.length
  | _ => True

theorem Sized.array {I : Ints} {s : Store} (h : I.Sized s) (r : ArrayRef) {i : Nat}
    (hi : i ≤ (s.array r).size) : I.Holds i := by
  unfold Store.array at hi
  rw [Array.getD_eq_getD_getElem?] at hi
  cases hr : s.arrays[r.index]? with
  | none =>
    rw [hr] at hi
    have hi : i = 0 := by simpa using hi
    exact I.inRange _ (by subst hi; decide)
  | some vs =>
    rw [hr] at hi
    exact h vs (Array.mem_of_getElem? hr) i hi

end Ints

namespace Run

variable {α : Type} {L : Law} {post : α → Prop}

/-- What `Keeps` says, for stores whose arrays have admitted lengths. -/
def KeepsSized (L : Law) (m : Run α) (post : α → Prop) : Prop :=
  ∀ s, L.AdmitsStore s.store → L.ints.Sized s.store → Ending.Kept L s.store post (m s)

theorem Keeps.sized {m : Run α} (h : Keeps L m post) : KeepsSized L m post := fun s hs _ => h s hs

/-- What is made of the elements of an array may rely on their number. -/
theorem keepsSized_elements {r : ArrayRef} {f : Array Value → Run α}
    (h : ∀ vs : Array Value, (∀ i ≤ vs.size, L.ints.Holds i) → (∀ v ∈ vs, L.Admits v) →
      Keeps L (f vs) post) : KeepsSized L (elements r >>= f) post :=
  fun s hs hsized => h _ (fun _ hi => hsized.array r hi) (hs.array r) s hs

end Run

open Run

/-! ## Built-in functions -/

namespace Builtin

variable {L : Law} {pos : Pos} {v : Value}

theorem keeps_toInt (hv : L.Admits v) : Keeps L (toInt pos v) L.Admits := by
  unfold toInt
  split
  · exact .pure hv
  · split
    · exact .pure (L.ints.wrap _)
    · exact .fault _ _
  · split
    · rename_i h
      exact .pure (L.ints.inRange _ (Numeral.inRange_of_read? h))
    · exact .fault _ _
  · exact .fault _ _

theorem keeps_toFloat : Keeps L (toFloat pos v) L.Admits := by
  unfold toFloat
  split
  · exact .pure trivial
  · exact .pure trivial
  · split
    · exact .pure trivial
    · exact .fault _ _
  · exact .fault _ _

theorem keeps_toText : Keeps L (toText pos v) L.Admits :=
  .bind (keeps_inspect v) fun _ _ => .pure trivial

theorem keeps_toBool : Keeps L (toBool pos v) L.Admits := by
  refine .bind (keeps_toBool? v) fun b _ => ?_
  cases b
  · exact .fault _ _
  · exact .pure trivial

/-- Counting stays between its ends. -/
theorem admits_counting {start stop : Int} (hstart : L.ints.Holds start)
    (hstop : L.ints.Holds stop) : ∀ u ∈ counting start stop pos, L.Admits u := by
  intro u hu
  simp only [counting, Array.mem_map, Array.mem_range] at hu
  obtain ⟨i, hi, rfl⟩ := hu
  change L.ints.Holds _
  by_cases h : start ≤ stop
  · simp only [h, if_true]
    exact L.ints.between start stop _ hstart hstop (by omega) (by omega)
  · simp only [h, if_false]
    exact L.ints.between stop start _ hstop hstart (by omega) (by omega)

theorem keeps_rangeOf {args : List Value} (hargs : ∀ v ∈ args, L.Admits v) :
    Keeps L (rangeOf pos args) L.Admits := by
  have hzero := L.ints.inRange 0 (by decide)
  unfold rangeOf
  split
  · rename_i n p
    refine .ite (fun _ => .fault _ _) fun _ => ?_
    exact keeps_newArray (admits_counting hzero (hargs (.int n p) (by simp))) p
  · exact .fault _ _
  · rename_i start p stop q
    exact keeps_newArray (admits_counting (hargs (.int start p) (by simp))
      (hargs (.int stop q) (by simp))) p
  all_goals exact .fault _ _

theorem keeps_lengthOf (hv : L.ints.Fits v) : KeepsSized L (lengthOf pos v) L.Admits := by
  unfold lengthOf
  split
  · exact keepsSized_elements fun vs hsize _ => .pure (hsize vs.size (Nat.le_refl _))
  · exact Keeps.sized (.pure hv)
  · exact Keeps.sized (.fault _ _)

theorem keeps_pickOf {b : Builtin} {element? : Array Value → Option Value}
    {char? : String → Option Char} (h : ∀ vs u, element? vs = some u → u ∈ vs) :
    Keeps L (pickOf b element? char? pos v) L.Admits := by
  unfold pickOf
  split
  · rename_i r _
    refine .bind (keeps_elements r) fun vs hvs => ?_
    split
    · rename_i u hu
      exact keeps_clone (hvs u (h vs u hu)) pos
    · exact .pure trivial
  · split <;> exact .pure trivial
  · exact .fault _ _

theorem keeps_copies {vs : List Value} (h : ∀ v ∈ vs, L.Admits v) :
    Keeps L (copies pos vs) L.Admits := by
  refine .bind (.mapM fun v hv => keeps_clone (h v hv) pos) fun us hus => ?_
  exact keeps_newArray (by simpa using hus) pos

theorem keeps_restOf : Keeps L (restOf pos v) L.Admits := by
  unfold restOf
  split
  · rename_i r _
    refine .bind (keeps_elements r) fun vs hvs => ?_
    split
    · exact .pure trivial
    · rename_i u us hlist
      exact keeps_copies fun v hv => hvs v (Array.mem_toList_iff.mp (by simp [hlist, hv]))
  · exact .fault _ _

theorem keeps_popOf : Keeps L (popOf pos v) L.Admits := by
  unfold popOf
  split
  · rename_i r _
    refine .bind (keeps_elements r) fun vs hvs => ?_
    split
    · exact .pure trivial
    · exact keeps_copies fun v hv => hvs v (Array.mem_toList_iff.mp ((List.dropLast_sublist _).subset hv))
  · exact .fault _ _

theorem keeps_pushOnto {w : Value} (hv : L.Admits v) : Keeps L (pushOnto pos v w) L.Admits := by
  unfold pushOnto
  split
  · rename_i r _
    refine .bind (keeps_elements r) fun vs hvs => keeps_copies fun u hu => ?_
    rcases List.mem_append.mp hu with hu | hu
    · exact hvs u (Array.mem_toList_iff.mp hu)
    · rw [List.mem_singleton.mp hu]
      exact hv
  · exact .fault _ _

theorem keeps_absOf (hv : L.Admits v) : Keeps L (absOf pos v) L.Admits := by
  unfold absOf
  split
  · refine .pure ?_
    change L.ints.Holds _
    split
    · exact L.ints.wrap _
    · exact hv
  · exact .pure trivial
  · exact .fault _ _

theorem keeps_powOf {w : Value} : Keeps L (powOf pos v w) L.Admits := by
  unfold powOf
  extract_lets floats
  have hfloats : Keeps L floats L.Admits := by
    unfold floats
    split
    · exact .pure trivial
    · exact .fault _ _
  split
  · exact .ite (fun _ => .pure (L.ints.pow _ _)) fun _ => hfloats
  · exact hfloats

theorem keeps_sqrtOf : Keeps L (sqrtOf pos v) L.Admits := by
  unfold sqrtOf
  split
  · exact .ite (fun _ => .fault _ _) fun _ => .pure trivial
  · exact .fault _ _

theorem keeps_floatFunction {b : Builtin} {f : Float → Float} :
    Keeps L (floatFunction b f pos v) L.Admits := by
  unfold floatFunction
  split
  · exact .pure trivial
  · exact .fault _ _

theorem keeps_total {vs : List Value} {t : Total} (ht : L.ints.Holds t.ints) :
    Keeps L (total pos t vs) fun t => L.ints.Holds t.ints := by
  induction vs generalizing t with
  | nil => exact .pure ht
  | cons v vs ih =>
    unfold total
    split
    · rename_i t' hadd
      refine ih ?_
      unfold Total.add at hadd
      split at hadd <;> cases hadd
      · exact L.ints.wrap _
      · exact ht
    · exact .fault _ _

theorem keeps_sumOf : Keeps L (sumOf pos v) L.Admits := by
  have hzero := L.ints.inRange 0 (by decide)
  unfold sumOf
  split
  · rename_i r _
    refine .bind (keeps_elements r) fun vs _ => .bind (keeps_total hzero) fun t ht => .pure ?_
    unfold Total.value
    split
    · trivial
    · exact ht
  · exact .fault _ _

theorem keeps_meanOf : Keeps L (meanOf pos v) L.Admits := by
  have hzero := L.ints.inRange 0 (by decide)
  unfold meanOf
  split
  · rename_i r _
    refine .bind (keeps_elements r) fun vs _ => .check (.fault _ _) fun _ => ?_
    exact .bind (keeps_total hzero) fun _ _ => .pure trivial
  · exact .fault _ _

theorem keeps_printAll {vs : List Value} : Keeps L (printAll vs) L.Admits := by
  induction vs with
  | nil => exact .pure trivial
  | cons v vs ih =>
    exact .bind (keeps_inspect v) fun _ _ => .bind (keeps_printLine _) fun _ _ => ih

end Builtin

/-! ## Methods of arrays -/

theorem keeps_sliceBounds {L : Law} {callee : Callee} {pos : Pos} {length : Nat}
    {args : List Value} : Keeps L (sliceBounds callee pos length args) fun _ => True := by
  unfold sliceBounds
  split
  · exact .fault _ _
  · refine .check (.fault _ _) fun _ => ?_
    split
    · refine .check (.fault _ _) fun _ => ?_
      split
      · exact .followed (.pure trivial) fun _ => .check (.fault _ _) fun _ => .pure trivial
      · exact .followed (.pure trivial) fun _ => .check (.fault _ _) fun _ => .pure trivial
      · exact .followed (.fault _ _) fun _ => .check (.fault _ _) fun _ => .pure trivial
    · exact .fault _ _

namespace ArrayMethod

variable {L : Law} {r : ArrayRef} {pos : Pos} {array v : Value} {args : List Value}

theorem keeps_checkCallback {m : ArrayMethod} {f : Value} {least : Nat} :
    Keeps L (checkCallback m f least) fun _ => True := by
  unfold checkCallback
  split
  · exact .ite (fun _ => .fault _ _) fun _ => .pure trivial
  · exact .pure trivial
  · exact .fault _ _

theorem keeps_naturalLess {x y : Value} : Keeps L (naturalLess x y) fun _ => True := by
  unfold naturalLess
  split
  · exact .pure trivial
  · split
    · exact .pure trivial
    · exact .fault _ _

theorem keepsSized_lengthOf : KeepsSized L (lengthOf r pos) L.Admits :=
  keepsSized_elements fun vs hsize _ => .pure (hsize vs.size (Nat.le_refl _))

theorem keeps_addElement {m : ArrayMethod} {add : Value → Array Value → Array Value}
    (hadd : ∀ v vs, ∀ u ∈ add v vs, u = v ∨ u ∈ vs) (harray : L.Admits array)
    (hargs : ∀ v ∈ args, L.Admits v) : Keeps L (addElement m r array add args) L.Admits := by
  unfold addElement
  split
  · rename_i v
    refine .followed (keeps_modifyStore fun s hs => ⟨hs.modifyArray r fun u hu => ?_, rfl⟩)
      fun _ => .pure harray
    rcases hadd v _ u hu with rfl | hu
    · exact hargs u (by simp)
    · exact hs.array r u hu
  · exact .fault _ _

theorem keeps_removeAt {i : Nat} : Keeps L (removeAt r i) L.Admits := by
  refine .bind (keeps_elements r) fun vs hvs => ?_
  refine .followed (keeps_modifyStore fun s hs => ⟨hs.modifyArray r fun u hu => ?_, rfl⟩)
    fun _ => .pure ?_
  · rw [Array.eraseIdxIfInBounds_eq] at hu
    split at hu
    · exact hs.array r u (Array.mem_of_mem_eraseIdx hu)
    · exact hs.array r u hu
  · cases hi : vs[i]? with
    | none => trivial
    | some u => exact hvs u (Array.mem_of_getElem? hi)

theorem keeps_shiftFirst : Keeps L (shiftFirst r pos) L.Admits :=
  .bind (keeps_elements r) fun _ _ => .check (.fault _ _) fun _ => keeps_removeAt

theorem keeps_popElement : Keeps L (popElement r pos args) L.Admits := by
  unfold popElement
  refine .check (.fault _ _) fun _ => .bind (keeps_elements r) fun vs _ =>
    .check (.fault _ _) fun _ => ?_
  split
  · exact keeps_removeAt
  · exact .ite (fun _ => .fault _ _) fun _ => keeps_removeAt
  · exact .fault _ _

theorem keeps_concatenation {done : Array Value} (hdone : ∀ v ∈ done, L.Admits v) :
    Keeps L (concatenation pos done args) fun vs => ∀ v ∈ vs, L.Admits v := by
  induction args generalizing done with
  | nil => exact .pure hdone
  | cons v args ih =>
    unfold concatenation
    split
    · cases ‹_ = _›
    · rename_i r _ rest heq
      cases heq
      refine .bind (keeps_elements r) fun vs hvs => ih fun u hu => ?_
      rcases Array.mem_append.mp hu with hu | hu
      · exact hdone u hu
      · exact hvs u hu
    · exact .fault _ _

theorem keeps_concatOf : Keeps L (concatOf r pos args) L.Admits :=
  .bind (keeps_elements r) fun _ hvs => .bind (keeps_concatenation hvs) fun _ hws =>
    keeps_newArray hws pos

theorem keeps_containsOf : Keeps L (containsOf r v) L.Admits :=
  .bind (keeps_elements r) fun _ _ => .pure trivial

theorem keepsSized_indexIn : KeepsSized L (indexIn r pos v) L.Admits := by
  refine keepsSized_elements fun vs hsize _ => ?_
  cases hfind : vs.findIdx? (·.equal v) with
  | none => exact .pure (L.ints.inRange (-1) (by decide))
  | some i =>
    obtain ⟨hi, -⟩ := Array.findIdx?_eq_some_iff_getElem.mp hfind
    exact .pure (hsize i (Nat.le_of_lt hi))

theorem keeps_joined {sep : String} : Keeps L (joined r sep pos) L.Admits :=
  .bind (keeps_elements r) fun _ _ => .bind (.mapM fun v _ => keeps_inspect v) fun _ _ =>
    .pure trivial

theorem keeps_reversed : Keeps L (reversed r pos) L.Admits :=
  .bind (keeps_elements r) fun _ hvs => keeps_newArray (by simpa using hvs) pos

theorem keeps_sliceOf : Keeps L (sliceOf r pos args) L.Admits := by
  refine .bind (keeps_elements r) fun vs hvs => .followed keeps_sliceBounds fun bounds => ?_
  refine keeps_newArray (fun v hv => ?_) pos
  obtain ⟨i, hi, rfl⟩ := Array.mem_extract_iff_getElem.mp hv
  exact hvs _ (Array.getElem_mem _)

end ArrayMethod

/-! ## Methods of texts and hashes -/

namespace StringMethod

variable {L : Law} {m : StringMethod} {s : String} {pos : Pos} {args : List Value}

theorem keeps_plain {result : String} : Keeps L (plain m pos result args) L.Admits := by
  unfold plain
  split
  · exact .pure trivial
  · exact .fault _ _

theorem keeps_test {holds : String → Bool} : Keeps L (test m pos holds args) L.Admits := by
  unfold test
  split
  · exact .pure trivial
  · exact .fault _ _
  · exact .fault _ _

theorem keeps_parts {sep text : String} : Keeps L (parts pos sep text) L.Admits := by
  refine keeps_newArray (fun v hv => ?_) pos
  simp only [List.mem_toArray, List.mem_map] at hv
  obtain ⟨cs, -, rfl⟩ := hv
  trivial

theorem keeps_run (hs : L.ints.Holds s.length) : Keeps L (m.run s pos args) L.Admits := by
  unfold run
  split
  case h_1 =>
    split
    · exact .pure hs
    · exact .fault _ _
  case h_8 =>
    split
    · exact keeps_parts
    · exact keeps_parts
    · exact .fault _ _
    · exact .fault _ _
  case h_14 => exact .followed keeps_sliceBounds fun _ => .pure trivial
  case h_9 | h_10 | h_11 => exact keeps_test
  case h_12 | h_13 => split <;> first | exact .pure trivial | exact .fault _ _
  all_goals exact keeps_plain

end StringMethod

theorem HashMethod.keeps_run {L : Law} {m : HashMethod} {r : TableRef} {pos : Pos}
    {args : List Value} : Keeps L (m.run r pos args) L.Admits := by
  unfold run
  split
  · exact .fault _ _
  · refine .bind keeps_store fun s hs => ?_
    have hentries := hs.table r
    cases m with
    | keys => exact keeps_newArray (by simpa using fun e he => (hentries e he).1) pos
    | values => exact keeps_newArray (by simpa using fun e he => (hentries e he).2) pos
    | items =>
      refine .bind (.mapM fun e he => ?_) fun vs hvs => keeps_newArray (by simpa using hvs) pos
      exact keeps_newArray (by simpa using hentries e he) _

end Vorn
