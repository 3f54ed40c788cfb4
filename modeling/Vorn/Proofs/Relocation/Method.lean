import Vorn.Proofs.Relocation.Builtin

/-!
# Methods at other places

The methods of arrays, texts and hashes do the same to a moved receiver and moved arguments:
`ArrayMethod.moves_run`, `StringMethod.moves_run` and `HashMethod.moves_run`. Some faults are
reported at the place of an argument. That is why the shared values have to stay where they are, and
why each of these faults is either one that built-in functions may have as well
(`Fault.ReportedAt`), or one of a value that is none (`Run.moves_fault_placed`).
-/

namespace Vorn

variable {f : Relocation}

open Run Script

/-- A fault at the place of a value that is no built-in function. -/
theorem Run.moves_fault_placed {α : Type} {g : α → α} {v : Value} (h : v.ty ≠ .builtin)
    (cause : Cause) : Run.Moves f g (fault v.pos cause) (fault (v.move f).pos cause) := by
  rw [Value.pos_move f h]
  exact .fault _ _

theorem moves_sliceBounds (callee : Callee) (pos : Pos) (length : Nat) (args : List Value) :
    Run.Moves f id (sliceBounds callee pos length args)
      (sliceBounds callee (f.place pos) length (args.map (Value.move f))) := by
  cases args with
  | nil => exact .fault _ _
  | cons start more =>
    simp only [List.map_cons, sliceBounds, List.length_map]
    refine .check (.fault _ _) fun _ => ?_
    cases start with
    | int n p =>
      refine .check (.fault _ _) fun _ => ?_
      cases more with
      | nil => exact .bind (.pure _) fun stop => .check (.fault _ _) fun _ => .pure _
      | cons v more =>
        cases v with
        | int stop => exact .bind (.pure _) fun stop => .check (.fault _ _) fun _ => .pure _
        | _ => exact .bind (.fault _ _) fun stop => .check (.fault _ _) fun _ => .pure _
    | _ => exact .fault _ _

/-! ## Methods of arrays -/

namespace ArrayMethod

variable (m : ArrayMethod) (settings : Settings) (r : ArrayRef) (pos : Pos) (array : Value)

theorem moves_checkCallback (c : Value) (least : Nat) :
    Run.Moves f id (checkCallback m c least) (checkCallback m (c.move f) least) := by
  cases c with
  | function c => exact .ite (.fault _ _) (.pure ())
  | builtin b => exact .pure ()
  | null => exact moves_fault_placed (v := .null) nofun _
  | bool b => exact moves_fault_placed (v := .bool b) nofun _
  | _ => exact .fault _ _

theorem moves_invoke (c : Value) (count : Nat) (args : List Value) :
    Moves f (Value.move f) (invoke pos c count args)
      (invoke (f.place pos) (c.move f) count (args.map (Value.move f))) := by
  have hask : ∀ n, Moves f (Value.move f) (ask (.apply pos c (args.take n)))
      (ask (.apply (f.place pos) (c.move f) ((args.map (Value.move f)).take n))) := fun n => by
    rw [← List.map_take]
    exact .ask (.apply pos c (args.take n))
  cases c with
  | function c => exact hask c.params.length
  | _ => exact hask count

theorem moves_holds (harray : array.ty ≠ .builtin) (c : Value) (index : Nat) (v : Value) :
    Moves f id (holds m array c index v) (holds m (array.move f) (c.move f) index (v.move f)) := by
  unfold holds
  rw [Value.pos_move f harray]
  refine .bind (moves_invoke array.pos c 1 [v, .int index array.pos, array]) fun answer => ?_
  refine .bind (.lift (moves_toBool? answer)) fun o => ?_
  cases o with
  | some b => exact .pure b
  | none =>
    rw [Value.ty_move]
    exact .lift (moves_fault_at (.predicate m.callee answer.ty))

theorem moves_walkWith (harray : array.ty ≠ .builtin) {β : Type} {g : β → β}
    {next next' : β → Value → Bool → ForInStep β}
    (hnext : ∀ b v ok, next' (g b) (v.move f) ok = moveStep g (next b v ok)) (args : List Value)
    (start : β) :
    Moves f g (walkWith m settings r array args next start)
      (walkWith m settings r (array.move f) (args.map (Value.move f)) next' (g start)) := by
  match args with
  | [c] =>
    refine .bind (.lift (moves_checkCallback m c 1)) fun _ => moves_walk (fun b i v => ?_) _ 0 start
    refine .bind (moves_holds m array harray c i v) fun ok => ?_
    rw [id_eq, hnext]
    exact .pure (next b v ok)
  | [] | _ :: _ :: _ => exact .lift (moves_fault_placed harray _)

theorem moves_naturalLess (x y : Value) :
    Run.Moves f id (naturalLess x y) (naturalLess (x.move f) (y.move f)) := by
  have hrest : Run.Moves f id (fault x.pos (.incomparable x.ty y.ty) : Run Bool)
      (fault (x.move f).pos (.incomparable (x.move f).ty (y.move f).ty)) := by
    rw [Value.ty_move, Value.ty_move]
    exact moves_fault_at (.element y.ty)
  cases x with
  | int | float =>
    cases y with
    | int | float => exact .pure _
    | _ => exact hrest
  | string =>
    cases y with
    | string => exact .pure _
    | _ => exact hrest
  | _ => exact hrest

theorem moves_callbackLess (c x y : Value) :
    Moves f id (callbackLess pos c x y)
      (callbackLess (f.place pos) (c.move f) (x.move f) (y.move f)) := by
  refine .bind (moves_invoke pos c 2 [x, y]) fun answer => ?_
  rw [Value.number?_move, Value.ty_move]
  cases answer.number? with
  | some a => exact .pure _
  | none => exact .lift (moves_fault_at (.comparison answer.ty))

/-- The elements in an order. -/
theorem moves_sortedBy {less less' : Value → Value → Script Bool} (descending : Bool)
    (hless : ∀ x y, Moves f id (less x y) (less' (x.move f) (y.move f))) :
    Moves f (Value.move f)
      (do
        let vs := (← elements r).toList
        newArray (← if descending then Order.sortDescending less vs else Order.sort less vs) pos)
      (do
        let vs := (← elements r).toList
        newArray (← if descending then Order.sortDescending less' vs else Order.sort less' vs)
          (f.place pos)) := by
  refine .bind (.lift (moves_elements r)) fun vs => ?_
  rw [Array.toList_map]
  exact .ite (.bind (moves_sortDescending hless _) fun vs => .lift (moves_newArray vs pos))
    (.bind (moves_sort hless _) fun vs => .lift (moves_newArray vs pos))

theorem ordering_many (v w : Value) (more : List Value) :
    ordering pos (v :: w :: more) =
      fault pos (.methodCount (callee .sort) (.atMost 1) (some (more.length + 2))) := by
  simp [ordering, refuseCountGot]

theorem moves_sorted (args : List Value) :
    Moves f (Value.move f) (sorted r pos args)
      (sorted r (f.place pos) (args.map (Value.move f))) := by
  have hnatural : ∀ x y, Moves f id (liftM (naturalLess x y) : Script Bool)
      (liftM (naturalLess (x.move f) (y.move f)) : Script Bool) :=
    fun x y => .lift (moves_naturalLess x y)
  match args with
  | [] => exact moves_sortedBy r pos false hnatural
  | [v] =>
    cases v with
    | bool descending => exact moves_sortedBy r pos descending hnatural
    | builtin b => exact moves_sortedBy r pos false (moves_callbackLess pos (.builtin b))
    | function c =>
      simp only [List.map_cons, List.map_nil, Value.move, sorted, ordering, lift_bind_bind]
      exact .bind (.lift (moves_checkCallback .sort (.function c) 2)) fun _ =>
        moves_sortedBy r pos false (moves_callbackLess pos (.function c))
    | _ => exact .fault_bind _ _
  | v :: w :: more =>
    unfold sorted
    rw [List.map_cons, List.map_cons, ordering_many, ordering_many, List.length_map]
    exact .fault_bind _ _

/-! ### Methods without callbacks -/

theorem moves_lengthOf :
    Run.Moves f (Value.move f) (lengthOf r pos) (lengthOf r (f.place pos)) := by
  refine .bind (moves_elements r) fun vs => ?_
  rw [Array.size_map]
  exact .pure (Value.int vs.size pos)

theorem moves_addElement (harray : array.ty ≠ .builtin) {add : Value → Array Value → Array Value}
    (hadd : ∀ v vs, add (v.move f) (vs.map (Value.move f)) = (add v vs).map (Value.move f))
    (args : List Value) :
    Run.Moves f (Value.move f) (addElement m r array add args)
      (addElement m r (array.move f) add (args.map (Value.move f))) := by
  match args with
  | [v] =>
    exact .bind (moves_modifyStore fun s => s.modifyArray_move f r (hadd v)) fun _ => .pure array
  | [] | _ :: _ :: _ => exact moves_fault_placed harray _

theorem eraseIdxIfInBounds_map {α β : Type} (g : α → β) (xs : Array α) (i : Nat) :
    (xs.map g).eraseIdxIfInBounds i = (xs.eraseIdxIfInBounds i).map g := by
  simp only [Array.eraseIdxIfInBounds, Array.size_map]
  split
  · refine Array.ext (by simp) fun k h₁ h₂ => ?_
    simp only [Array.getElem_eraseIdx, Array.getElem_map]
    split <;> rfl
  · rfl

theorem moves_removeAt (i : Nat) :
    Run.Moves f (Value.move f) (removeAt r i) (removeAt r i) := by
  refine .bind (moves_elements r) fun vs => ?_
  refine .bind (moves_modifyStore fun s => s.modifyArray_move f r fun vs =>
    eraseIdxIfInBounds_map _ vs i) fun _ => ?_
  rw [Array.getElem?_map]
  cases vs[i]? with
  | none => exact .pure Value.null
  | some v => exact .pure v

theorem moves_shiftFirst :
    Run.Moves f (Value.move f) (shiftFirst r pos) (shiftFirst r (f.place pos)) := by
  refine .bind (moves_elements r) fun vs => ?_
  rw [isEmpty_map]
  exact .check (.fault _ _) fun _ => moves_removeAt r 0

theorem moves_popElement (args : List Value) :
    Run.Moves f (Value.move f) (popElement r pos args)
      (popElement r (f.place pos) (args.map (Value.move f))) := by
  unfold popElement
  rw [List.length_map]
  refine .check (.fault _ _) fun _ => .bind (moves_elements r) fun vs => ?_
  rw [Array.size_map]
  refine .check (.fault _ _) fun _ => ?_
  cases args with
  | nil => exact moves_removeAt r _
  | cons v args =>
    cases v with
    | int i => exact .ite (.fault _ _) (moves_removeAt r _)
    | _ => exact .fault _ _

theorem moves_concatenation (done : Array Value) (args : List Value) :
    Run.Moves f (Array.map (Value.move f)) (concatenation pos done args)
      (concatenation (f.place pos) (done.map (Value.move f)) (args.map (Value.move f))) := by
  induction args generalizing done with
  | nil => exact .pure done
  | cons v args ih =>
    cases v with
    | array r p =>
      refine .bind (moves_elements r) fun vs => ?_
      rw [← Array.map_append]
      exact ih (done ++ vs)
    | _ => exact .fault _ _

theorem moves_concatOf (args : List Value) :
    Run.Moves f (Value.move f) (concatOf r pos args)
      (concatOf r (f.place pos) (args.map (Value.move f))) :=
  .bind (moves_elements r) fun vs => .bind (moves_concatenation pos vs args) fun vs =>
    moves_newArray vs pos

theorem moves_containsOf (v : Value) :
    Run.Moves f (Value.move f) (containsOf r v) (containsOf r (v.move f)) := by
  refine .bind (moves_elements r) fun vs => ?_
  have hany : (vs.map (Value.move f)).any (·.equal (v.move f)) = vs.any (·.equal v) := by
    simp
  rw [hany]
  exact .pure (Value.bool (vs.any (·.equal v)))

theorem moves_indexIn (v : Value) :
    Run.Moves f (Value.move f) (indexIn r pos v) (indexIn r (f.place pos) (v.move f)) := by
  refine .bind (moves_elements r) fun vs => ?_
  have hfind : (vs.map (Value.move f)).findIdx? (·.equal (v.move f)) = vs.findIdx? (·.equal v) := by
    simp [Function.comp_def]
  rw [hfind]
  cases vs.findIdx? (·.equal v) with
  | some i => exact .pure (Value.int i pos)
  | none => exact .pure (Value.int (-1) pos)

theorem moves_joined (sep : String) :
    Run.Moves f (Value.move f) (joined r sep pos) (joined r sep (f.place pos)) := by
  refine .bind (moves_elements r) fun vs => ?_
  rw [Array.toList_map]
  refine .bind (.mapM (Value.move f) moves_inspect vs.toList) fun texts => ?_
  rw [List.map_id]
  exact .pure (Value.string (String.intercalate sep texts) pos)

theorem moves_reversed :
    Run.Moves f (Value.move f) (reversed r pos) (reversed r (f.place pos)) := by
  refine .bind (moves_elements r) fun vs => ?_
  rw [← Array.map_reverse]
  exact moves_newArray vs.reverse pos

theorem moves_sliceOf (args : List Value) :
    Run.Moves f (Value.move f) (sliceOf r pos args)
      (sliceOf r (f.place pos) (args.map (Value.move f))) := by
  refine .bind (moves_elements r) fun vs => ?_
  rw [Array.size_map]
  refine .bind (moves_sliceBounds _ pos vs.size args) fun ⟨start, stop⟩ => ?_
  change Run.Moves f _ (newArray (vs.extract start stop) pos)
    (newArray ((vs.map (Value.move f)).extract start stop) (f.place pos))
  rw [← Array.map_extract]
  exact moves_newArray (vs.extract start stop) pos

/-! ### Methods with callbacks -/

theorem moves_mapped (harray : array.ty ≠ .builtin) (c : Value) :
    Moves f (Value.move f) (mapped settings r array c)
      (mapped settings r (array.move f) (c.move f)) := by
  unfold mapped
  rw [Value.pos_move f harray]
  refine .bind (.lift (moves_checkCallback .map c 1)) fun _ => ?_
  refine .bind (moves_collect (fun done i v => ?_) _ 0) fun vs =>
    .lift (moves_newArray vs array.pos)
  refine .bind (moves_invoke array.pos c 1 [v, .int i array.pos, array]) fun u => ?_
  rw [← Array.map_push]
  exact .pure (ForInStep.yield (done.push u))

theorem moves_filtered (harray : array.ty ≠ .builtin) (args : List Value) :
    Moves f (Value.move f) (filtered settings r array args)
      (filtered settings r (array.move f) (args.map (Value.move f))) := by
  unfold filtered
  rw [Value.pos_move f harray]
  have hkept := @moves_walkWith f .filter settings r array harray _ (Array.map (Value.move f))
    (fun kept v keep => .yield (if keep then kept.push v else kept))
    (fun kept v keep => .yield (if keep then kept.push v else kept))
    (fun kept v keep => congrArg ForInStep.yield (push_if_move keep kept v)) args #[]
  rw [Array.map_empty] at hkept
  exact .bind hkept fun vs => .lift (moves_newArray vs array.pos)

theorem moves_findIn (harray : array.ty ≠ .builtin) (args : List Value) :
    Moves f (Value.move f) (findIn settings r array args)
      (findIn settings r (array.move f) (args.map (Value.move f))) := by
  refine moves_walkWith .find settings r array harray (fun _ _ found => ?_) args Value.null
  cases found <;> rfl

theorem moves_anyOf (harray : array.ty ≠ .builtin) (args : List Value) :
    Moves f (Value.move f) (anyOf settings r array args)
      (anyOf settings r (array.move f) (args.map (Value.move f))) :=
  .bind (moves_walkWith (g := id) .any settings r array harray
    (fun _ _ holds => by cases holds <;> rfl) args false) fun b => .pure (Value.bool b)

theorem moves_everyOf (harray : array.ty ≠ .builtin) (args : List Value) :
    Moves f (Value.move f) (everyOf settings r array args)
      (everyOf settings r (array.move f) (args.map (Value.move f))) :=
  .bind (moves_walkWith (g := id) .every settings r array harray
    (fun _ _ holds => by cases holds <;> rfl) args true) fun b => .pure (Value.bool b)

theorem moves_reduced (harray : array.ty ≠ .builtin) (c start : Value) :
    Moves f (Value.move f) (reduced settings r array c start)
      (reduced settings r (array.move f) (c.move f) (start.move f)) := by
  unfold reduced
  rw [Value.pos_move f harray]
  refine .bind (.lift (moves_checkCallback .reduce c 2)) fun _ => ?_
  refine moves_walk (fun acc i v => ?_) _ 0 start
  exact .bind (moves_invoke array.pos c 2 [acc, v, .int i array.pos, array]) fun u =>
    .pure (ForInStep.yield u)

/-! ### All methods -/

theorem moves_refuseCountGot {α : Type} {g : α → α} (want : Count) (args : List Value) :
    Run.Moves f g (refuseCountGot m pos want args)
      (refuseCountGot m (f.place pos) want (args.map (Value.move f))) := by
  unfold refuseCountGot
  rw [List.length_map]
  exact .fault _ _

/-- **A method of an array does the same to a moved array and moved arguments.** -/
theorem moves_run (args : List Value) :
    Moves f (Value.move f) (m.run settings r (.array r pos) args)
      (m.run settings r (.array r (f.place pos)) (args.map (Value.move f))) := by
  have harray : (Value.array r pos).ty ≠ .builtin := nofun
  have hpush : ∀ (v : Value) (vs : Array Value),
      (vs.map (Value.move f)).push (v.move f) = (vs.push v).map (Value.move f) :=
    fun v vs => by rw [Array.map_push]
  have hprepend : ∀ (v : Value) (vs : Array Value),
      #[v.move f] ++ vs.map (Value.move f) = (#[v] ++ vs).map (Value.move f) :=
    fun v vs => by simp
  cases m with
  | length =>
    match args with
    | [] => exact .lift (moves_lengthOf r pos)
    | _ :: _ => exact .lift (.fault _ _)
  | push => exact .lift (moves_addElement .push r (.array r pos) harray hpush args)
  | append => exact .lift (moves_addElement .append r (.array r pos) harray hpush args)
  | prepend => exact .lift (moves_addElement .prepend r (.array r pos) harray hprepend args)
  | shift =>
    match args with
    | [] => exact .lift (moves_shiftFirst r pos)
    | _ :: _ => exact .lift (.fault _ _)
  | pop => exact .lift (moves_popElement r pos args)
  | concat =>
    match args with
    | [] => exact .lift (.fault _ _)
    | v :: args => exact .lift (moves_concatOf r pos (v :: args))
  | map =>
    match args with
    | [c] => exact moves_mapped settings r (.array r pos) harray c
    | [] | _ :: _ :: _ => exact .lift (.fault _ _)
  | filter => exact moves_filtered settings r (.array r pos) harray args
  | find => exact moves_findIn settings r (.array r pos) harray args
  | any => exact moves_anyOf settings r (.array r pos) harray args
  | every => exact moves_everyOf settings r (.array r pos) harray args
  | reduce =>
    match args with
    | [c, start] => exact moves_reduced settings r (.array r pos) harray c start
    | [] | [_] | _ :: _ :: _ :: _ => exact .lift (moves_refuseCountGot .reduce pos (.exactly 2) _)
  | contains =>
    match args with
    | [v] => exact .lift (moves_containsOf r v)
    | [] | _ :: _ :: _ => exact .lift (.fault _ _)
  | indexOf =>
    match args with
    | [v] => exact .lift (moves_indexIn r pos v)
    | [] | _ :: _ :: _ => exact .lift (.fault _ _)
  | join =>
    match args with
    | [] => exact .lift (moves_joined r pos ",")
    | [v] =>
      cases v with
      | string sep => exact .lift (moves_joined r pos sep)
      | _ => exact .lift (.fault _ _)
    | v :: w :: more =>
      have h := @moves_refuseCountGot f .join pos _ (Value.move f) (.atMost 1) (v :: w :: more)
      cases v <;> exact .lift h
  | reverse =>
    match args with
    | [] => exact .lift (moves_reversed r pos)
    | _ :: _ => exact .lift (.fault _ _)
  | slice => exact .lift (moves_sliceOf r pos args)
  | sort => exact moves_sorted r pos args

end ArrayMethod

/-! ## Methods of texts and hashes -/

namespace StringMethod

variable (m : StringMethod) (pos : Pos)

theorem moves_plain (result : String) (args : List Value) :
    Run.Moves f (Value.move f) (plain m pos result args)
      (plain m (f.place pos) result (args.map (Value.move f))) := by
  cases args with
  | nil => exact .pure (Value.string result pos)
  | cons v args => exact .fault _ _

theorem moves_test (holds : String → Bool) (args : List Value) :
    Run.Moves f (Value.move f) (test m pos holds args)
      (test m (f.place pos) holds (args.map (Value.move f))) := by
  match args with
  | [v] =>
    cases v with
    | string t => exact .pure (Value.bool (holds t))
    | _ => exact .fault _ _
  | [] => exact .fault _ _
  | v :: _ :: _ => cases v <;> exact .fault _ _

theorem moves_parts (sep text : String) :
    Run.Moves f (Value.move f) (parts pos sep text) (parts (f.place pos) sep text) := by
  have h := @moves_newArray_toArray f
    ((Text.split sep.toList text.toList).map fun cs => .string (.ofList cs) pos) pos
  rw [List.map_map] at h
  exact h

theorem moves_run (s : String) (args : List Value) :
    Run.Moves f (Value.move f) (m.run s pos args)
      (m.run s (f.place pos) (args.map (Value.move f))) := by
  cases m with
  | length =>
    cases args with
    | nil => exact .pure (Value.int s.length pos)
    | cons v args => exact .fault _ _
  | upper | lower | trim | trimStart | trimEnd | reverse => exact moves_plain _ pos _ args
  | contains | startsWith | endsWith => exact moves_test _ pos _ args
  | split =>
    match args with
    | [] => exact moves_parts pos " " s
    | [v] =>
      cases v with
      | string sep => exact moves_parts pos sep s
      | _ => exact .fault _ _
    | v :: w :: more =>
      have h : Run.Moves f (Value.move f)
          (fault pos (.methodCount (callee .split) (.atMost 1) (some (v :: w :: more).length)))
          (fault (f.place pos) (.methodCount (callee .split) (.atMost 1)
            (some ((v :: w :: more).map (Value.move f)).length))) := by
        rw [List.length_map]
        exact .fault _ _
      cases v <;> exact h
  | replace =>
    match args with
    | [v, w] =>
      cases v with
      | string old =>
        cases w with
        | string new => exact .pure (Value.string _ pos)
        | _ => exact .fault _ _
      | _ => exact .fault _ _
    | [] => exact .fault _ _
    | [v] => cases v <;> exact .fault _ _
    | v :: w :: _ :: _ => cases v <;> cases w <;> exact .fault _ _
  | «repeat» =>
    match args with
    | [v] =>
      cases v with
      | int n => exact .pure (Value.string (repeated s n.toNat) pos)
      | _ => exact .fault _ _
    | [] => exact .fault _ _
    | v :: _ :: _ => cases v <;> exact .fault _ _
  | slice =>
    refine .bind (moves_sliceBounds _ pos s.length args) fun ⟨start, stop⟩ => ?_
    exact .pure (Value.string _ pos)

end StringMethod

theorem HashMethod.moves_run (m : HashMethod) (r : TableRef) (pos : Pos) (args : List Value) :
    Run.Moves f (Value.move f) (m.run r pos args)
      (m.run r (f.place pos) (args.map (Value.move f))) := by
  cases args with
  | cons v args => exact .fault _ _
  | nil =>
    refine .bind moves_store fun s => ?_
    rw [Store.table_move, Table.entries_move]
    have hnew : ∀ g : Entry → Value, (∀ e, g (e.move f) = (g e).move f) →
        Run.Moves f (Value.move f) (newArray ((s.table r).entries.map g).toArray pos)
          (newArray (((s.table r).entries.map (Entry.move f)).map g).toArray (f.place pos)) := by
      intro g hg
      have hmap : ((s.table r).entries.map (Entry.move f)).map g =
          ((s.table r).entries.map g).map (Value.move f) := by
        rw [List.map_map, List.map_map]
        exact List.map_congr_left fun e _ => hg e
      rw [hmap]
      exact moves_newArray_toArray _ pos
    cases m with
    | keys => exact hnew Entry.keyValue (Entry.keyValue_move f)
    | values => exact hnew Entry.value fun _ => rfl
    | items =>
      refine .bind (.mapM (Entry.move f) (fun e => ?_) _) fun vs =>
        moves_newArray_toArray vs pos
      have hkey : e.keyValue.ty ≠ .builtin := Key.ty_value_ne_builtin e.key e.pos
      rw [Entry.keyValue_move, Value.pos_move f hkey]
      exact moves_newArray_toArray [e.keyValue, e.value] _

end Vorn
