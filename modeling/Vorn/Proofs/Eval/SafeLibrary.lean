import Vorn.Proofs.Eval.Safe

/-!
# Built-in functions and methods make no dangling references

Given their arguments, and for a method the value that it is called of, the built-in functions and
the methods are safe: the value that they give is in the store, and so is all that they put into it
(`Builtin.safe_run`, `Eval.safe_callMethod`).
-/

namespace Vorn

open Store Script

variable {settings : Settings} {given args : List Value} {pos : Pos} {v f : Value}

/-! ## Built-in functions -/

namespace Builtin

open Run

theorem safe_toInt : Run.Safe given (toInt pos v) ([·]) := by
  unfold toInt
  split <;> (try split) <;> first | exact .scalar rfl | exact .fault _ _

theorem safe_toFloat : Run.Safe given (toFloat pos v) ([·]) := by
  unfold toFloat
  split <;> (try split) <;> first | exact .scalar rfl | exact .fault _ _

theorem safe_toText : Run.Safe given (toText pos v) ([·]) :=
  .followed (safe_inspect v) fun _ => .scalar rfl

theorem safe_toBool : Run.Safe given (toBool pos v) ([·]) := by
  refine .followed (safe_toBool? v) fun b => ?_
  cases b
  · exact .fault _ _
  · exact .scalar rfl

theorem entails_counting {start stop : Int} : Entails given (counting start stop pos).toList := by
  intro s _ u hu
  simp only [counting, Array.mem_toList_iff, Array.mem_map] at hu
  obtain ⟨i, -, rfl⟩ := hu
  exact .of_none rfl

theorem safe_rangeOf : Run.Safe given (rangeOf pos args) ([·]) := by
  unfold rangeOf
  split
  case h_1 => exact .ite (.fault _ _) (safe_newArray entails_counting)
  case h_3 => exact safe_newArray entails_counting
  all_goals exact .fault _ _

theorem safe_lengthOf : Run.Safe given (lengthOf pos v) ([·]) := by
  unfold lengthOf
  split
  · exact .bind (safe_elements _) fun _ => .scalar rfl
  · exact .scalar rfl
  · exact .fault _ _

theorem safe_pickOf {b : Builtin} {element? : Array Value → Option Value}
    {char? : String → Option Char} (h : ∀ vs u, element? vs = some u → u ∈ vs) :
    Run.Safe given (pickOf b element? char? pos v) ([·]) := by
  unfold pickOf
  split
  · refine .bind (safe_elements _) fun vs => ?_
    split
    · rename_i u hu
      exact safe_clone (List.mem_append_left _ (Array.mem_toList_iff.mpr (h vs u hu)))
    · exact .scalar rfl
  · split <;> exact .scalar rfl
  · exact .fault _ _

theorem safe_copies {vs : List Value} (h : vs ⊆ given) : Run.Safe given (copies pos vs) ([·]) := by
  refine .bind (.mapM fun v hv => safe_clone (h hv)) fun us => safe_newArray (.of_subset ?_)
  simp

theorem safe_restOf : Run.Safe given (restOf pos v) ([·]) := by
  unfold restOf
  split
  · refine .bind (safe_elements _) fun vs => ?_
    split
    · exact .scalar rfl
    · rename_i u us hlist
      exact safe_copies (by simp [hlist])
  · exact .fault _ _

theorem safe_popOf : Run.Safe given (popOf pos v) ([·]) := by
  unfold popOf
  split
  · refine .bind (safe_elements _) fun vs => ?_
    split
    · exact .scalar rfl
    · exact safe_copies fun u hu => List.mem_append_left _ (List.mem_of_mem_dropLast hu)
  · exact .fault _ _

theorem safe_pushOnto {w : Value} (hv : v ∈ given) : Run.Safe given (pushOnto pos v w) ([·]) := by
  unfold pushOnto
  split
  · exact .bind (safe_elements _) fun vs => safe_copies (by simp [hv])
  · exact .fault _ _

theorem safe_absOf : Run.Safe given (absOf pos v) ([·]) := by
  unfold absOf
  split <;> first | exact .scalar rfl | exact .fault _ _

theorem safe_powOf {w : Value} : Run.Safe given (powOf pos v w) ([·]) := by
  unfold powOf
  extract_lets floats
  have hfloats : Run.Safe given floats ([·]) := by
    unfold floats
    split <;> first | exact .scalar rfl | exact .fault _ _
  split
  · exact .ite (.scalar rfl) hfloats
  · exact hfloats

theorem safe_sqrtOf : Run.Safe given (sqrtOf pos v) ([·]) := by
  unfold sqrtOf
  split
  · exact .ite (.fault _ _) (.scalar rfl)
  · exact .fault _ _

theorem safe_floatFunction {b : Builtin} {f : Float → Float} :
    Run.Safe given (floatFunction b f pos v) ([·]) := by
  unfold floatFunction
  split <;> first | exact .scalar rfl | exact .fault _ _

theorem safe_total {t : Total} {vs : List Value} :
    Run.Safe given (total pos t vs) fun _ => [] := by
  induction vs generalizing t with
  | nil => exact .pure .nil
  | cons v vs ih =>
    unfold total
    split
    · exact ih
    · exact .fault _ _

theorem safe_sumOf : Run.Safe given (sumOf pos v) ([·]) := by
  unfold sumOf
  split
  · refine .bind (safe_elements _) fun vs => .followed safe_total fun t => .scalar ?_
    unfold Total.value
    split <;> rfl
  · exact .fault _ _

theorem safe_meanOf : Run.Safe given (meanOf pos v) ([·]) := by
  unfold meanOf
  split
  · exact .bind (safe_elements _) fun vs => .check (.fault _ _) fun _ =>
      .followed safe_total fun _ => .scalar rfl
  · exact .fault _ _

theorem safe_printAll : Run.Safe given (printAll args) ([·]) := by
  induction args with
  | nil => exact .scalar rfl
  | cons v vs ih =>
    exact .followed (safe_inspect v) fun _ => .followed (.of_steady fun _ => rfl) fun _ => ih

theorem safe_mapOver (hf : f ∈ given) : Script.Safe given (mapOver settings pos f v) ([·]) := by
  unfold mapOver
  split
  · refine .demand (.fault _ _) fun _ => ?_
    refine .bind (safe_walk _ Array.toList (fun done i u => ?_) _ 0 #[]) fun results =>
      .lift (Run.safe_newArray (.of_subset (by simp)))
    exact .bind (.ask (.of_subset (by simp [Task.values, hf]))) fun u =>
      .pure (.of_subset (by grind [afterStep]))
  · exact .fault _ _

theorem safe_filterOver (hf : f ∈ given) :
    Script.Safe given (filterOver settings pos f v) ([·]) := by
  unfold filterOver
  split
  · refine .demand (.fault _ _) fun _ => ?_
    refine .bind (safe_walk _ Array.toList (fun kept i u => ?_) _ 0 #[]) fun results =>
      .lift (Run.safe_newArray (.of_subset (by simp)))
    refine .bind (.ask (.of_subset (by simp [Task.values, hf]))) fun answer =>
      .followed (.lift (Run.safe_toBool? answer)) fun b => ?_
    cases b with
    | none => exact .fault _ _
    | some keep => cases keep <;> exact .pure (.of_subset (by grind [afterStep]))
  · exact .fault _ _

theorem safe_reduceOver {start : Value} (hstart : start ∈ given) (hf : f ∈ given) :
    Script.Safe given (reduceOver settings pos start f v) ([·]) := by
  unfold reduceOver
  split
  · refine .demand (.fault _ _) fun _ => ?_
    refine (safe_walk given ([·]) (fun acc i u => ?_) _ 0 start).of_subset
      (by simp [hstart])
    exact .bind (.ask (.of_subset (by simp [Task.values, hf]))) fun u =>
      .pure (.of_subset (by simp [afterStep]))
  · exact .fault _ _

/-- **A built-in function is safe**, given its arguments. -/
theorem safe_run {b : Builtin} (hargs : args ⊆ given) :
    Script.Safe given (b.run settings pos args) ([·]) := by
  unfold run
  split
  case h_1 => exact .scalar rfl
  case h_2 => exact .lift safe_rangeOf
  case h_3 => exact .lift safe_toInt
  case h_4 => exact .lift safe_toFloat
  case h_5 => exact .lift safe_toText
  case h_6 => exact .lift safe_toBool
  case h_7 => exact .lift safe_lengthOf
  case h_8 => exact .lift (safe_pickOf fun _ _ h => Array.mem_of_getElem? h)
  case h_9 => exact .lift (safe_pickOf fun _ _ h => Array.mem_of_back? h)
  case h_10 => exact .lift safe_restOf
  case h_11 => exact .lift (safe_pushOnto (hargs (by simp)))
  case h_12 => exact .lift safe_popOf
  case h_13 => exact safe_mapOver (hargs (by simp))
  case h_14 => exact safe_filterOver (hargs (by simp))
  case h_15 => exact safe_reduceOver (hargs (by simp)) (hargs (by simp))
  case h_16 => exact .lift safe_printAll
  case h_17 => exact .lift safe_absOf
  case h_18 => exact .lift safe_powOf
  case h_19 => exact .lift safe_sqrtOf
  case h_20 | h_21 | h_22 => exact .lift safe_floatFunction
  case h_23 => exact .lift safe_sumOf
  case h_24 => exact .lift safe_meanOf
  case h_25 => exact .fault _ _

end Builtin

/-! ## Methods of arrays -/

theorem steady_sliceBounds {callee : Callee} {length : Nat} :
    Run.Steady (sliceBounds callee pos length args) := by
  unfold sliceBounds
  split
  · exact .fault _ _
  · refine .check (.fault _ _) fun _ => ?_
    split
    · refine .check (.fault _ _) fun _ => ?_
      split
      · exact .bind (.pure _) fun _ => .check (.fault _ _) fun _ => .pure _
      · exact .bind (.pure _) fun _ => .check (.fault _ _) fun _ => .pure _
      · exact .bind (.fault _ _) fun _ => .check (.fault _ _) fun _ => .pure _
    · exact .fault _ _

namespace ArrayMethod

open Run

variable {r : ArrayRef} {array : Value} {m : ArrayMethod}

theorem safe_invoke {count : Nat} (hf : f ∈ given) (hargs : Entails given args) :
    Script.Safe given (invoke pos f count args) ([·]) := by
  have hcall : ∀ n, Script.Safe given (ask (.apply pos f (args.take n))) ([·]) := fun n =>
    .ask (.cons (.single hf) (hargs.trans (.of_subset (List.take_subset n args))))
  unfold invoke
  split <;> exact hcall _

/-- What a callback of a walk gets. -/
theorem entails_visit {u : Value} {i : Nat} {pos : Pos} (hu : u ∈ given) (harray : array ∈ given) :
    Entails given [u, .int i pos, array] :=
  .cons (.single hu) (.cons (.scalar rfl) (.single harray))

theorem safe_holds {i : Nat} {u : Value} (hf : f ∈ given) (harray : array ∈ given)
    (hu : u ∈ given) : Script.Safe given (holds m array f i u) fun _ => [] := by
  refine .bind (safe_invoke hf (entails_visit hu harray)) fun answer =>
    .followed (.lift (safe_toBool? answer)) fun b => ?_
  cases b with
  | none => exact .fault _ _
  | some b => exact .pure .nil

theorem safe_walkWith {β : Type} {next : β → Value → Bool → ForInStep β} {start : β}
    (gives : β → List Value) (hargs : args ⊆ given) (harray : array ∈ given)
    (hnext : ∀ b u answer, afterStep gives (next b u answer) ⊆ u :: gives b)
    (hstart : Entails given (gives start)) :
    Script.Safe given (walkWith m settings r array args next start) gives := by
  unfold walkWith
  split
  · rename_i f
    have hf : f ∈ given := hargs (List.mem_singleton_self f)
    refine .steady (steady_checkCallback m f 1) fun _ => ?_
    refine (safe_walk given gives (fun b i u => ?_) _ 0 start).of_entails
      (hstart.append (.of_subset fun _ h => h))
    refine .followed (safe_holds (by simp [hf]) (by simp [harray]) (by simp)) fun answer => ?_
    exact .pure (.of_subset (List.Subset.trans (hnext b u answer) (by simp)))
  · exact .fault _ _

theorem safe_mapped (hf : f ∈ given) (harray : array ∈ given) :
    Script.Safe given (mapped settings r array f) ([·]) := by
  refine .steady (steady_checkCallback .map f 1) fun _ => ?_
  refine .bind (safe_walk _ Array.toList (fun done i u => ?_) _ 0 #[]) fun results =>
    .lift (safe_newArray (.of_subset (by simp)))
  exact .bind (safe_invoke (by simp [hf]) (entails_visit (by simp) (by simp [harray]))) fun u =>
    .pure (.of_subset (by grind [afterStep]))

theorem safe_filtered (hargs : args ⊆ given) (harray : array ∈ given) :
    Script.Safe given (filtered settings r array args) ([·]) := by
  refine .bind (safe_walkWith Array.toList hargs harray (fun kept u keep => ?_) .nil)
    fun kept => .lift (safe_newArray (.of_subset (by simp)))
  cases keep <;> simp [afterStep]

theorem safe_findIn (hargs : args ⊆ given) (harray : array ∈ given) :
    Script.Safe given (findIn settings r array args) ([·]) := by
  refine safe_walkWith ([·]) hargs harray (fun b u found => ?_) (.scalar rfl)
  cases found <;> simp [afterStep]

theorem safe_anyOf (hargs : args ⊆ given) (harray : array ∈ given) :
    Script.Safe given (anyOf settings r array args) ([·]) := by
  refine .followed (safe_walkWith _ hargs harray (fun b u holds => ?_) .nil) fun _ => .scalar rfl
  cases holds <;> simp [afterStep]

theorem safe_everyOf (hargs : args ⊆ given) (harray : array ∈ given) :
    Script.Safe given (everyOf settings r array args) ([·]) := by
  refine .followed (safe_walkWith _ hargs harray (fun b u holds => ?_) .nil) fun _ => .scalar rfl
  cases holds <;> simp [afterStep]

theorem safe_reduced {start : Value} (hf : f ∈ given) (harray : array ∈ given)
    (hstart : start ∈ given) : Script.Safe given (reduced settings r array f start) ([·]) := by
  refine .steady (steady_checkCallback .reduce f 2) fun _ => ?_
  refine (safe_walk given ([·]) (fun acc i u => ?_) _ 0 start).of_subset
    (by simp [hstart])
  refine .bind (safe_invoke (by simp [hf]) ?_) fun u => .pure (.of_subset (by simp [afterStep]))
  exact .cons (.single (by simp)) (entails_visit (by simp) (by simp [harray]))

theorem steady_naturalLess {x y : Value} : Run.Steady (naturalLess x y) := by
  unfold naturalLess
  split
  · exact .pure _
  · split
    · exact .pure _
    · exact .fault _ _

theorem safe_callbackLess {x y : Value} (hf : f ∈ given) :
    Script.Safe (x :: y :: given) (callbackLess pos f x y) fun _ => [] := by
  refine .bind (safe_invoke (by simp [hf]) (.of_subset (by simp))) fun answer => ?_
  cases answer.number? with
  | none => exact .fault _ _
  | some a => exact .pure .nil

/-- Whatever order `sort` asks for compares safely. -/
theorem safe_less {s s' : State} {less : Value → Value → Script Bool} {descending : Bool}
    (h : ordering pos args s = .ok (less, descending) s') (hargs : args ⊆ given) (x y : Value) :
    Script.Safe (x :: y :: given) (less x y) fun _ => [] := by
  revert h
  unfold ordering
  split
  · rintro ⟨⟩
    exact .lift (.of_steady steady_naturalLess)
  · rintro ⟨⟩
    exact .lift (.of_steady steady_naturalLess)
  · rw [Run.run_bind]
    split
    · rintro ⟨⟩
      exact safe_callbackLess (hargs (by simp))
    · rintro ⟨⟩
  · rintro ⟨⟩
    exact safe_callbackLess (hargs (by simp))
  · rintro ⟨⟩
  · rintro ⟨⟩

theorem steady_ordering : Run.Steady (ordering pos args) := by
  unfold ordering
  split
  · exact .pure _
  · exact .pure _
  · exact .bind (steady_checkCallback _ _ _) fun _ => .pure _
  · exact .pure _
  · exact .fault _ _
  · exact .fault _ _

theorem safe_sorted (hargs : args ⊆ given) : Script.Safe given (sorted r pos args) ([·]) := by
  refine .run_bind (.of_steady steady_ordering) fun ⟨less, descending⟩ s s' horder => ?_
  have hless := safe_less horder hargs
  refine .bind (.lift (safe_elements r)) fun vs => ?_
  refine .ite (.bind (safe_sortDescending hless vs.toList) fun us => ?_)
    (.bind (safe_sort hless vs.toList) fun us => ?_)
  all_goals exact .lift (safe_newArray (.of_subset (by simp)))

theorem safe_addElement {add : Value → Array Value → Array Value}
    (hadd : ∀ v vs, (add v vs).toList ⊆ v :: vs.toList) (harray : array ∈ given)
    (hargs : args ⊆ given) : Run.Safe given (addElement m r array add args) ([·]) := by
  unfold addElement
  split
  · rename_i v
    have hv : v ∈ given := hargs (List.mem_singleton_self v)
    refine .followed (safe_modifyArray fun vs => .of_subset (List.Subset.trans (hadd v vs) ?_))
      fun _ => .pure (.single harray)
    exact List.cons_subset.mpr ⟨List.mem_append_right _ hv, List.subset_append_left _ _⟩
  · exact .fault _ _

theorem safe_removeAt {i : Nat} : Run.Safe given (removeAt r i) ([·]) := by
  refine .bind (safe_elements r) fun vs => .followed (safe_modifyArray fun ws => .of_subset ?_)
    fun _ => .pure ?_
  · intro u hu
    rw [Array.mem_toList_iff, Array.eraseIdxIfInBounds_eq] at hu
    refine List.mem_append_left _ (Array.mem_toList_iff.mpr ?_)
    split at hu
    · exact Array.mem_of_mem_eraseIdx hu
    · exact hu
  · cases hi : vs[i]? with
    | none => exact .scalar rfl
    | some u =>
      exact .single (List.mem_append_left _ (Array.mem_toList_iff.mpr (Array.mem_of_getElem? hi)))

theorem safe_shiftFirst : Run.Safe given (shiftFirst r pos) ([·]) :=
  .bind (safe_elements r) fun _ => .check (.fault _ _) fun _ => safe_removeAt

theorem safe_popElement : Run.Safe given (popElement r pos args) ([·]) := by
  unfold popElement
  refine .check (.fault _ _) fun _ => .bind (safe_elements r) fun vs =>
    .check (.fault _ _) fun _ => ?_
  split
  · exact safe_removeAt
  · exact .ite (.fault _ _) safe_removeAt
  · exact .fault _ _

theorem safe_concatenation {done : Array Value} :
    Run.Safe (done.toList ++ given) (concatenation pos done args) Array.toList := by
  induction args generalizing done with
  | nil => exact .pure (.of_subset (by simp))
  | cons v args ih =>
    unfold concatenation
    split
    · cases ‹_ = _›
    · rename_i rest heq
      cases heq
      exact .bind (safe_elements _) fun vs => ih.of_entails (.of_subset (by simp))
    · exact .fault _ _

theorem safe_concatOf : Run.Safe given (concatOf r pos args) ([·]) :=
  .bind (safe_elements r) fun _ => .bind safe_concatenation fun _ =>
    safe_newArray (.of_subset (by simp))

theorem safe_sliceOf : Run.Safe given (sliceOf r pos args) ([·]) := by
  refine .bind (safe_elements r) fun vs => ?_
  refine .followed (.of_steady steady_sliceBounds) fun bounds => ?_
  refine safe_newArray (.of_subset fun u hu => ?_)
  obtain ⟨i, hi, rfl⟩ := Array.mem_extract_iff_getElem.mp (Array.mem_toList_iff.mp hu)
  exact List.mem_append_left _ (Array.mem_toList_iff.mpr (Array.getElem_mem _))

/-- **A method of an array is safe**, given the array and the arguments. -/
theorem safe_run (harray : array ∈ given) (hargs : args ⊆ given) :
    Script.Safe given (m.run settings r array args) ([·]) := by
  have push : ∀ (v : Value) (vs : Array Value), (vs.push v).toList ⊆ v :: vs.toList := by simp
  unfold run
  split
  case h_1 => exact .lift (.bind (safe_elements r) fun _ => .scalar rfl)
  case h_2 | h_3 => exact .lift (safe_addElement push harray hargs)
  case h_4 => exact .lift (safe_addElement (by simp) harray hargs)
  case h_5 => exact .lift safe_shiftFirst
  case h_6 => exact .lift safe_popElement
  case h_8 => exact .lift safe_concatOf
  case h_9 => exact safe_mapped (hargs (by simp)) harray
  case h_10 => exact safe_filtered hargs harray
  case h_11 => exact safe_findIn hargs harray
  case h_12 => exact safe_anyOf hargs harray
  case h_13 => exact safe_everyOf hargs harray
  case h_14 => exact safe_reduced (hargs (by simp)) harray (hargs (by simp))
  case h_16 => exact .lift (.bind (safe_elements r) fun _ => .scalar rfl)
  case h_17 =>
    refine .lift (.bind (safe_elements r) fun vs => ?_)
    split <;> exact .scalar rfl
  case h_18 | h_19 =>
    exact .lift (.bind (safe_elements r) fun vs =>
      .followed (.of_steady (.mapM steady_inspect _)) fun _ => .scalar rfl)
  case h_22 =>
    exact .lift (.bind (safe_elements r) fun _ => safe_newArray (.of_subset (by simp)))
  case h_23 => exact .lift safe_sliceOf
  case h_24 => exact safe_sorted hargs
  all_goals exact .fault _ _

end ArrayMethod

/-! ## Methods of texts and hashes -/

namespace StringMethod

open Run

theorem safe_parts {sep text : String} : Run.Safe given (parts pos sep text) ([·]) := by
  refine safe_newArray fun s _ u hu => ?_
  simp only [List.mem_map] at hu
  obtain ⟨cs, -, rfl⟩ := hu
  exact .of_none rfl

theorem safe_run {m : StringMethod} {text : String} :
    Run.Safe given (m.run text pos args) ([·]) := by
  have hplain : ∀ {m : StringMethod} {result : String},
      Run.Safe given (plain m pos result args) ([·]) := by
    intro m result
    unfold plain
    split <;> first | exact .scalar rfl | exact .fault _ _
  have htest : ∀ {m : StringMethod} {holds : String → Bool},
      Run.Safe given (test m pos holds args) ([·]) := by
    intro m holds
    unfold test
    split <;> first | exact .scalar rfl | exact .fault _ _
  unfold run
  split
  case h_8 => split <;> first | exact safe_parts | exact .fault _ _
  case h_9 | h_10 | h_11 => exact htest
  case h_1 | h_12 | h_13 => split <;> first | exact .scalar rfl | exact .fault _ _
  case h_14 => exact .followed (.of_steady steady_sliceBounds) fun _ => .scalar rfl
  all_goals exact hplain

end StringMethod

namespace HashMethod

open Run

theorem safe_run {m : HashMethod} {r : TableRef} : Run.Safe given (m.run r pos args) ([·]) := by
  unfold run
  split
  · exact .fault _ _
  · refine safe_store_bind (fun s => s.items (.hash r))
      (fun s hs v hv => hs.refers (.hash r) v hv) fun s => ?_
    have hentry : ∀ e ∈ (s.table r).entries, [e.keyValue, e.value] ⊆ s.items (.hash r) :=
      fun e he u hu => List.mem_flatMap.mpr ⟨e, he, hu⟩
    have hfield : ∀ {field : Entry → Value}, (∀ e, field e ∈ [e.keyValue, e.value]) →
        Run.Safe (s.items (.hash r) ++ given) (newArray ((s.table r).entries.map field).toArray pos)
          ([·]) := by
      intro field hfield
      refine safe_newArray (.of_subset fun u hu => List.mem_append_left _ ?_)
      obtain ⟨e, he, rfl⟩ := List.mem_map.mp hu
      exact hentry e he (hfield e)
    cases m with
    | keys => exact hfield fun e => by simp
    | values => exact hfield fun e => by simp
    | items =>
      have hitem : ∀ e ∈ (s.table r).entries, Run.Safe (s.items (.hash r) ++ given)
          (newArray #[e.keyValue, e.value] e.keyValue.pos) ([·]) := fun e he =>
        safe_newArray (.of_subset (List.subset_append_of_subset_left _ (hentry e he)))
      exact .bind (.mapM hitem) fun us => safe_newArray (.of_subset (by simp))

end HashMethod

/-! ## Calls -/

/-- **A method is safe**, given the value that it is called of and the arguments. -/
theorem Eval.safe_callMethod {receiver : Value} {namePos : Pos} {name : String}
    (hreceiver : receiver ∈ given) (hargs : args ⊆ given) :
    Script.Safe given (callMethod settings receiver namePos name args) ([·]) := by
  unfold callMethod
  split
  · split
    · exact ArrayMethod.safe_run hreceiver hargs
    · exact .fault _ _
  · split
    · exact .lift StringMethod.safe_run
    · exact .fault _ _
  · split
    · exact .lift HashMethod.safe_run
    · exact .fault _ _
  · exact .fault _ _

end Vorn
