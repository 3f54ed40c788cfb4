import Vorn.Proofs.Eval.Quiet

/-!
# Built-in functions and methods under a contract

Whatever the contract, the built-in functions and the methods keep to it: they hand out only calls
of values that are admitted, with admitted arguments, and give an admitted value
(`Builtin.quietly_run`, `Eval.quietly_callMethod`).
-/

namespace Vorn

open Script

variable {C : Contract} {w : C.World} {s : State} {settings : Settings} {pos : Pos}

/-- In a later world, values that are admitted there. -/
structure Contract.Grown (C : Contract) (w : C.World) (vs : Array Value) (w' : C.World) : Prop where
  le : C.Le w w'
  admits : ∀ v ∈ vs, (C.law w').Admits v

namespace Contract.Grown

theorem empty : C.Grown w #[] w := ⟨C.le_refl w, by simp⟩

theorem mono {w₁ w₂ : C.World} {vs : Array Value} (h : C.Grown w vs w₁) (hle : C.Le w₁ w₂) :
    C.Grown w vs w₂ :=
  ⟨C.le_trans h.le hle, fun v hv => C.admits_mono hle (h.admits v hv)⟩

theorem push {w₁ : C.World} {vs : Array Value} {v : Value} (h : C.Grown w vs w₁)
    (hv : (C.law w₁).Admits v) : C.Grown w (vs.push v) w₁ := by
  refine ⟨h.le, fun u hu => ?_⟩
  rcases Array.mem_push.mp hu with hu | rfl
  · exact h.admits u hu
  · exact hv

end Contract.Grown

/-- A call of an admitted value. -/
theorem quietly_call {f : Value} {args : List Value} (hs : C.Holds w s.store)
    (hf : (C.law w).Admits f) (hargs : ∀ v ∈ args, (C.law w).Admits v) :
    (ask (.apply pos f args) s).Quietly C
      (fun v w' s' => (C.law w').Admits v ∧ C.ints.Sized s' ∧ C.ints.Fits v) w :=
  .ask hs ⟨hf, hargs⟩ fun _ h => h

/-! ## Built-in functions -/

namespace Builtin

theorem quietly_mapOver {f v : Value} (hs : C.Holds w s.store) (hsized : C.ints.Sized s.store)
    (hf : (C.law w).Admits f) :
    (mapOver settings pos f v s).Quietly C (fun v w' _ => (C.law w').Admits v) w := by
  unfold mapOver
  split
  · refine .demand hs (.bind (.walk (I := C.Grown w) (fun done i v w₁ s₁ hs₁ _ hv hdone => ?_)
      hs hsized .empty) fun vs w' s' _ hs' hvs => .lift_admits hs' (Run.keeps_newArray hvs.admits pos))
    refine .bind (quietly_call hs₁ (C.admits_mono hdone.le hf) (by simpa using hv)) ?_
    intro u w₂ s₂ hw₂ hs₂ hu
    exact .pure hs₂ ⟨hu.2.1, (hdone.mono (C.le_of_quiet hw₂)).push hu.1⟩
  · exact .fault hs _ _

theorem quietly_filterOver {f v : Value} (hs : C.Holds w s.store) (hsized : C.ints.Sized s.store)
    (hf : (C.law w).Admits f) :
    (filterOver settings pos f v s).Quietly C (fun v w' _ => (C.law w').Admits v) w := by
  unfold filterOver
  split
  · refine .demand hs (.bind (.walk (I := C.Grown w) (fun kept i v w₁ s₁ hs₁ _ hv hkept => ?_)
      hs hsized .empty) fun vs w' s' _ hs' hvs => .lift_admits hs' (Run.keeps_newArray hvs.admits pos))
    refine .bind (quietly_call hs₁ (C.admits_mono hkept.le hf) (by simpa using hv)) ?_
    intro u w₂ s₂ hw₂ hs₂ hu
    have hle := C.le_of_quiet hw₂
    refine .steady_bind hs₂ (Run.steady_toBool? u) fun answer s₃ heq hs₃ => ?_
    rw [← heq] at hu
    cases answer with
    | none => exact .fault hs₃ _ _
    | some keep =>
      refine .pure hs₃ ⟨hu.2.1, ?_⟩
      cases keep
      · exact hkept.mono hle
      · exact (hkept.mono hle).push (C.admits_mono hle hv)
  · exact .fault hs _ _

theorem quietly_reduceOver {start f v : Value} (hs : C.Holds w s.store)
    (hsized : C.ints.Sized s.store) (hstart : (C.law w).Admits start) (hf : (C.law w).Admits f) :
    (reduceOver settings pos start f v s).Quietly C (fun v w' _ => (C.law w').Admits v) w := by
  unfold reduceOver
  split
  · refine .demand hs (Step.Quietly.weaken (.walk (I := fun acc w' => C.Le w w' ∧ (C.law w').Admits acc)
      (fun acc i v w₁ s₁ hs₁ _ hv hacc => ?_) hs hsized ⟨C.le_refl w, hstart⟩)
      fun _ _ _ _ h => h.2)
    refine .bind (quietly_call hs₁ (C.admits_mono hacc.1 hf) (by simpa using ⟨hacc.2, hv⟩)) ?_
    intro u w₂ s₂ hw₂ hs₂ hu
    exact .pure hs₂ ⟨hu.2.1, C.le_trans hacc.1 (C.le_of_quiet hw₂), hu.1⟩
  · exact .fault hs _ _

/-- **A built-in function keeps to the contract.** -/
theorem quietly_run {b : Builtin} {args : List Value} (hs : C.Holds w s.store)
    (hsized : C.ints.Sized s.store) (hargs : ∀ v ∈ args, (C.law w).Admits v)
    (hfits : ∀ v ∈ args, C.ints.Fits v) :
    (b.run settings pos args s).Quietly C (fun v w' _ => (C.law w').Admits v) w := by
  have lift {m : Run Value} (hm : m.Keeps (C.law w) (C.law w).Admits) :
      ((liftM m : Script Value) s).Quietly C (fun v w' _ => (C.law w').Admits v) w :=
    .lift_admits hs hm
  unfold run
  split
  case h_1 => exact .pure hs trivial
  case h_2 => exact lift (keeps_rangeOf hargs)
  case h_3 => exact lift (keeps_toInt (hargs _ (by simp)))
  case h_4 => exact lift keeps_toFloat
  case h_5 => exact lift keeps_toText
  case h_6 => exact lift keeps_toBool
  case h_7 =>
    refine (Step.Quietly.lift_sized hs hsized (keeps_lengthOf (hfits _ (by simp)))).weaken ?_
    exact fun _ _ _ hw hv => C.admits_mono (C.le_of_quiet hw) hv
  case h_8 => exact lift (keeps_pickOf fun _ _ h => Array.mem_of_getElem? h)
  case h_9 => exact lift (keeps_pickOf fun _ _ h => Array.mem_of_back? h)
  case h_10 => exact lift keeps_restOf
  case h_11 => exact lift (keeps_pushOnto (hargs _ (by simp)))
  case h_12 => exact lift keeps_popOf
  case h_13 => exact quietly_mapOver hs hsized (hargs _ (by simp))
  case h_14 => exact quietly_filterOver hs hsized (hargs _ (by simp))
  case h_15 => exact quietly_reduceOver hs hsized (hargs _ (by simp)) (hargs _ (by simp))
  case h_16 => exact lift keeps_printAll
  case h_17 => exact lift (keeps_absOf (hargs _ (by simp)))
  case h_18 => exact lift keeps_powOf
  case h_19 => exact lift keeps_sqrtOf
  case h_20 | h_21 | h_22 => exact lift keeps_floatFunction
  case h_23 => exact lift keeps_sumOf
  case h_24 => exact lift keeps_meanOf
  case h_25 => exact .fault hs _ _

end Builtin

/-! ## Methods of arrays -/

namespace ArrayMethod

variable {r : ArrayRef} {array f : Value} {args : List Value}

theorem quietly_invoke {count : Nat} (hs : C.Holds w s.store) (hf : (C.law w).Admits f)
    (hargs : ∀ v ∈ args, (C.law w).Admits v) :
    (invoke pos f count args s).Quietly C
      (fun v w' s' => (C.law w').Admits v ∧ C.ints.Sized s' ∧ C.ints.Fits v) w := by
  unfold invoke
  split <;> exact quietly_call hs hf fun v hv => hargs v (List.mem_of_mem_take hv)

theorem quietly_holds {m : ArrayMethod} {index : Nat} {v : Value} (hs : C.Holds w s.store)
    (hf : (C.law w).Admits f) (harray : (C.law w).Admits array) (hindex : C.ints.Holds index)
    (hv : (C.law w).Admits v) :
    (holds m array f index v s).Quietly C (fun _ _ s' => C.ints.Sized s') w := by
  unfold holds
  have hargs : ∀ u ∈ [v, .int index array.pos, array], (C.law w).Admits u := by
    simp only [List.forall_mem_cons]
    exact ⟨hv, hindex, harray, by simp⟩
  refine .bind (quietly_invoke hs hf hargs) fun answer w₁ s₁ _ hs₁ h₁ => ?_
  refine .steady_bind hs₁ (Run.steady_toBool? answer) fun b s₂ heq hs₂ => ?_
  rw [← heq] at h₁
  cases b with
  | none => exact .fault hs₂ _ _
  | some b => exact .pure hs₂ h₁.2.1

/-- A walk with a predicate keeps what each answer keeps. -/
theorem quietly_walkWith {β : Type} {m : ArrayMethod} {next : β → Value → Bool → ForInStep β}
    {start : β} {I : β → C.World → Prop} (hs : C.Holds w s.store) (hsized : C.ints.Sized s.store)
    (hargs : ∀ v ∈ args, (C.law w).Admits v) (harray : (C.law w).Admits array)
    (hmono : ∀ b w₁ w₂, C.Le w₁ w₂ → I b w₁ → I b w₂)
    (hnext : ∀ b v answer w₁, (C.law w₁).Admits v → I b w₁ →
      match next b v answer with
      | .done b => I b w₁
      | .yield b => I b w₁)
    (hstart : I start w) :
    (walkWith m settings r array args next start s).Quietly C (fun b w' _ => I b w') w := by
  unfold walkWith
  split
  · rename_i f
    have hf := hargs f (by simp)
    refine .steady_bind hs (steady_checkCallback m f 1) fun _ s₁ heq hs => ?_
    rw [← heq] at hsized
    refine Step.Quietly.weaken (.walk (I := fun b w' => C.Le w w' ∧ I b w')
      (fun b i v w₁ s₁ hs₁ hi hv hb => ?_) hs hsized ⟨C.le_refl w, hstart⟩) fun _ _ _ _ h => h.2
    refine .bind (quietly_holds hs₁ (C.admits_mono hb.1 hf) (C.admits_mono hb.1 harray) hi hv) ?_
    intro answer w₂ s₂ hw₂ hs₂ hsized₂
    have hle := C.le_of_quiet hw₂
    refine .pure hs₂ ⟨hsized₂, ?_⟩
    have h := hnext b v answer w₂ (C.admits_mono hle hv) (hmono b w₁ w₂ hle hb.2)
    cases hstep : next b v answer with
    | done b =>
      rw [hstep] at h
      exact ⟨C.le_trans hb.1 hle, h⟩
    | yield b =>
      rw [hstep] at h
      exact ⟨C.le_trans hb.1 hle, h⟩
  · exact .fault hs _ _

theorem quietly_mapped (hs : C.Holds w s.store) (hsized : C.ints.Sized s.store)
    (hf : (C.law w).Admits f) (harray : (C.law w).Admits array) :
    (mapped settings r array f s).Quietly C (fun v w' _ => (C.law w').Admits v) w := by
  unfold mapped
  refine .steady_bind hs (steady_checkCallback .map f 1) fun _ s₁ heq hs => ?_
  rw [← heq] at hsized
  refine .bind (.walk (I := C.Grown w) (fun done i v w₁ s₁ hs₁ hi hv hdone => ?_) hs hsized .empty)
    fun vs w' s' _ hs' hvs => .lift_admits hs' (Run.keeps_newArray hvs.admits array.pos)
  have hargs : ∀ u ∈ [v, .int i array.pos, array], (C.law w₁).Admits u := by
    simp only [List.forall_mem_cons]
    exact ⟨hv, hi, C.admits_mono hdone.le harray, by simp⟩
  refine .bind (quietly_invoke hs₁ (C.admits_mono hdone.le hf) hargs) fun u w₂ s₂ hw₂ hs₂ hu => ?_
  exact .pure hs₂ ⟨hu.2.1, (hdone.mono (C.le_of_quiet hw₂)).push hu.1⟩

theorem quietly_reduced {start : Value} (hs : C.Holds w s.store) (hsized : C.ints.Sized s.store)
    (hf : (C.law w).Admits f) (hstart : (C.law w).Admits start)
    (harray : (C.law w).Admits array) :
    (reduced settings r array f start s).Quietly C (fun v w' _ => (C.law w').Admits v) w := by
  unfold reduced
  refine .steady_bind hs (steady_checkCallback .reduce f 2) fun _ s₁ heq hs => ?_
  rw [← heq] at hsized
  refine Step.Quietly.weaken (.walk (I := fun acc w' => C.Le w w' ∧ (C.law w').Admits acc)
    (fun acc i v w₁ s₁ hs₁ hi hv hacc => ?_) hs hsized ⟨C.le_refl w, hstart⟩) fun _ _ _ _ h => h.2
  have hargs : ∀ u ∈ [acc, v, .int i array.pos, array], (C.law w₁).Admits u := by
    simp only [List.forall_mem_cons]
    exact ⟨hacc.2, hv, hi, C.admits_mono hacc.1 harray, by simp⟩
  refine .bind (quietly_invoke hs₁ (C.admits_mono hacc.1 hf) hargs) fun u w₂ s₂ hw₂ hs₂ hu => ?_
  exact .pure hs₂ ⟨hu.2.1, C.le_trans hacc.1 (C.le_of_quiet hw₂), hu.1⟩

theorem quietly_callbackLess {x y : Value} (hs : C.Holds w s.store) (hf : (C.law w).Admits f)
    (hx : (C.law w).Admits x) (hy : (C.law w).Admits y) :
    (callbackLess pos f x y s).Quietly C (fun _ _ _ => True) w := by
  unfold callbackLess
  refine .bind (quietly_invoke hs hf (by simpa using ⟨hx, hy⟩)) fun answer w₁ s₁ _ hs₁ _ => ?_
  cases answer.number? with
  | none => exact .fault hs₁ _ _
  | some a => exact .pure hs₁ trivial

/-- Whatever order `sort` asks for compares quietly. -/
theorem quietly_less {s₁ s₂ : State} {less : Value → Value → Script Bool} {descending : Bool}
    (h : ordering pos args s₁ = .ok (less, descending) s₂)
    (hargs : ∀ v ∈ args, (C.law w).Admits v) {x y : Value} (hs : C.Holds w s.store)
    (hx : (C.law w).Admits x) (hy : (C.law w).Admits y) :
    (less x y s).Quietly C (fun _ _ _ => True) w := by
  revert h
  unfold ordering
  split
  · rintro ⟨⟩
    exact .lift hs keeps_naturalLess
  · rintro ⟨⟩
    exact .lift hs keeps_naturalLess
  · rw [Run.run_bind]
    split
    · rintro ⟨⟩
      exact quietly_callbackLess hs (hargs _ (by simp)) hx hy
    · rintro ⟨⟩
  · rintro ⟨⟩
    exact quietly_callbackLess hs trivial hx hy
  · rintro ⟨⟩
  · rintro ⟨⟩

theorem keeps_ordering {L : Law} : (ordering pos args).Keeps L fun _ => True := by
  unfold ordering
  split
  · exact .pure trivial
  · exact .pure trivial
  · exact .followed keeps_checkCallback fun _ => .pure trivial
  · exact .pure trivial
  · exact .fault _ _
  · exact .fault _ _

theorem quietly_sorted (hs : C.Holds w s.store) (hargs : ∀ v ∈ args, (C.law w).Admits v) :
    (sorted r pos args s).Quietly C (fun v w' _ => (C.law w').Admits v) w := by
  unfold sorted
  refine .lift_bind hs keeps_ordering fun ⟨less, descending⟩ s₁ horder hs₁ _ => ?_
  refine .lift_bind hs₁ (Run.keeps_elements r) fun vs s₂ _ hs₂ hvs => ?_
  have hless : ∀ x y w' s', (C.law w).Admits x → (C.law w).Admits y → C.Quiet w w' →
      C.Holds w' s'.store → (less x y s').Quietly C (fun _ _ _ => True) w' := by
    intro x y w' s' hx hy hw' hs'
    have hle := C.le_of_quiet hw'
    exact quietly_less horder (fun v hv => C.admits_mono hle (hargs v hv)) hs'
      (C.admits_mono hle hx) (C.admits_mono hle hy)
  have hlist : ∀ v ∈ vs.toList, (C.law w).Admits v := by simpa using hvs
  have hnew : ∀ us w' s', C.Quiet w w' → C.Holds w' s'.store → (∀ u ∈ us, (C.law w).Admits u) →
      ((liftM (Run.newArray us pos) : Script Value) s').Quietly C
        (fun v w'' _ => (C.law w'').Admits v) w' := fun us w' s' hw' hs' hus =>
    .lift_admits hs' (Run.keeps_newArray (fun u hu => C.admits_mono (C.le_of_quiet hw') (hus u hu)) pos)
  refine .ite (fun _ => ?_) fun _ => ?_
  · exact .bind (.sortDescending hless (C.quiet_refl w) hs₂ hlist) hnew
  · exact .bind (.sort hless (C.quiet_refl w) hs₂ hlist) hnew

/-- **A method of an array keeps to the contract.** -/
theorem quietly_run {m : ArrayMethod} (hs : C.Holds w s.store) (hsized : C.ints.Sized s.store)
    (harray : (C.law w).Admits array) (hargs : ∀ v ∈ args, (C.law w).Admits v) :
    (m.run settings r array args s).Quietly C (fun v w' _ => (C.law w').Admits v) w := by
  have lift {m : Run Value} (hm : m.Keeps (C.law w) (C.law w).Admits) :
      ((liftM m : Script Value) s).Quietly C (fun v w' _ => (C.law w').Admits v) w :=
    .lift_admits hs hm
  have sized {m : Run Value} (hm : m.KeepsSized (C.law w) (C.law w).Admits) :
      ((liftM m : Script Value) s).Quietly C (fun v w' _ => (C.law w').Admits v) w :=
    (Step.Quietly.lift_sized hs hsized hm).weaken
      fun _ _ _ hw hv => C.admits_mono (C.le_of_quiet hw) hv
  have push : ∀ (v : Value) (vs : Array Value), ∀ u ∈ vs.push v, u = v ∨ u ∈ vs := by
    intro v vs u hu
    exact (Array.mem_push.mp hu).symm
  unfold run
  split
  case h_1 => exact sized keepsSized_lengthOf
  case h_2 | h_3 => exact lift (keeps_addElement push harray hargs)
  case h_4 => exact lift (keeps_addElement (by simp) harray hargs)
  case h_5 => exact lift keeps_shiftFirst
  case h_6 => exact lift keeps_popElement
  case h_8 => exact lift keeps_concatOf
  case h_9 => exact quietly_mapped hs hsized (hargs _ (by simp)) harray
  case h_10 =>
    refine .bind (quietly_walkWith (I := C.Grown w) hs hsized hargs harray
      (fun _ _ _ hle h => h.mono hle) (fun kept v keep w₁ hv hkept => ?_) .empty)
      fun vs w' s' _ hs' hvs => .lift_admits hs' (Run.keeps_newArray hvs.admits array.pos)
    cases keep
    · exact hkept
    · exact hkept.push hv
  case h_11 =>
    refine quietly_walkWith (I := fun v w' => (C.law w').Admits v) hs hsized hargs harray
      (fun _ _ _ hle h => C.admits_mono hle h) (fun b v found w₁ hv hb => ?_) trivial
    cases found
    · exact hb
    · exact hv
  case h_12 | h_13 =>
    refine .bind (quietly_walkWith (I := fun _ _ => True) hs hsized hargs harray
      (fun _ _ _ _ _ => trivial) (fun b v answer w₁ _ _ => ?_) trivial)
      fun _ _ _ _ hs' _ => .pure hs' trivial
    cases answer <;> trivial
  case h_14 => exact quietly_reduced hs hsized (hargs _ (by simp)) (hargs _ (by simp)) harray
  case h_16 => exact lift keeps_containsOf
  case h_17 => exact sized keepsSized_indexIn
  case h_18 | h_19 => exact lift keeps_joined
  case h_22 => exact lift keeps_reversed
  case h_23 => exact lift keeps_sliceOf
  case h_24 => exact quietly_sorted hs hargs
  all_goals exact .fault hs _ _

end ArrayMethod

/-- **A method call keeps to the contract.** -/
theorem Eval.quietly_callMethod {receiver : Value} {namePos : Pos} {name : String}
    {args : List Value} (hs : C.Holds w s.store) (hsized : C.ints.Sized s.store)
    (hreceiver : (C.law w).Admits receiver) (hfits : C.ints.Fits receiver)
    (hargs : ∀ v ∈ args, (C.law w).Admits v) :
    (callMethod settings receiver namePos name args s).Quietly C
      (fun v w' _ => (C.law w').Admits v) w := by
  unfold callMethod
  split
  · cases ArrayMethod.ofName? name with
    | none => exact .fault hs _ _
    | some m => exact ArrayMethod.quietly_run hs hsized hreceiver hargs
  · cases StringMethod.ofName? name with
    | none => exact .fault hs _ _
    | some m => exact .lift_admits hs (StringMethod.keeps_run hfits)
  · cases HashMethod.ofName? name with
    | none => exact .fault hs _ _
    | some m => exact .lift_admits hs HashMethod.keeps_run
  · exact .fault hs _ _

end Vorn
