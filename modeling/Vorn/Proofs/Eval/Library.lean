import Vorn.Proofs.Eval.History
import Vorn.Proofs.Eval.Keeps
import Vorn.Proofs.Store.Growth

/-!
# What built-in functions and methods are made of

Built-in functions, methods and operators are put together from few pieces. A basic run
(`Run.Basic`) reads the store, changes it as far as its `Reach` goes, prints if it reaches that far,
and stops for common reasons: neither for a name that is taken nor for a part of the tree that is
missing. A library script (`Script.Library`) does basic runs and hands out calls of some values.
What holds of the pieces holds of all of them, by one induction:

* `Run.Basic.stays`, a basic run changes no more of the store than it may, and no scope;
* `Run.Basic.stops`, it stops for common reasons only;
* `Run.Basic.run_retraced`, it neither reads nor writes the trace;
* `Builtin.library_run` and `Eval.library_callMethod`, the built-in functions and the methods are
  library scripts. Only `print` and the methods that change their array have the wider reach, and
  the values that are called are arguments.
-/

namespace Vorn

/-- The name of a declaration is taken. -/
def Cause.isRedeclaration : Cause → Bool
  | alreadyDefined _ => true
  | _ => false

/-- The reasons to stop that take neither a declaration nor an incomplete tree. -/
def Stop.isCommon : Stop → Bool
  | fault f => !f.cause.isRedeclaration
  | exhausted | outOfFuel => true
  | incomplete => false

/-- The state with another trace. -/
def State.retraced (tr : Array TraceLine) (s : State) : State := { s with trace := tr }

/-- The ending with another trace. -/
def Ending.retraced {α : Type} (tr : Array TraceLine) : Ending α → Ending α
  | .ok a s => .ok a (s.retraced tr)
  | .error stop s => .error stop (s.retraced tr)

/-! ## Reach -/

/-- How far a run reaches: it may only add collections to the store, or it may change arrays and
print too. -/
inductive Reach where
  | adding
  | changing
deriving DecidableEq, Repr

namespace Reach

/-- The changes of the store that are in reach. Neither scopes nor hashes are. -/
def Allows : Reach → Store → Store → Prop
  | adding, s, t => s.Grows t ∧ t.scopes = s.scopes
  | changing, s, t => s.tables.toList <+: t.tables.toList ∧ t.scopes = s.scopes

variable {k : Reach} {s t u : Store}

theorem Allows.of_grows (h : s.Grows t) (hscopes : t.scopes = s.scopes) : k.Allows s t := by
  cases k with
  | adding => exact ⟨h, hscopes⟩
  | changing => exact ⟨h.tables, hscopes⟩

theorem Allows.refl (s : Store) : k.Allows s s := .of_grows (.refl s) rfl

theorem Allows.scopes_eq (h : k.Allows s t) : t.scopes = s.scopes := by
  cases k <;> exact h.2

theorem Allows.tables (h : k.Allows s t) : s.tables.toList <+: t.tables.toList := by
  cases k with
  | adding => exact h.1.tables
  | changing => exact h.1

theorem Allows.trans (h : k.Allows s t) (h' : k.Allows t u) : k.Allows s u := by
  cases k with
  | adding => exact ⟨h.1.trans h'.1, h'.2.trans h.2⟩
  | changing => exact ⟨h.1.trans h'.1, h'.2.trans h.2⟩

end Reach

/-! ## Adding to a state -/

/-- Collections may have come; what was there is as it was, and nothing was printed. -/
structure State.Adds (s t : State) : Prop where
  store : s.store.Grows t.store
  scopes : t.store.scopes = s.store.scopes
  output : t.output = s.output

theorem State.Adds.refl (s : State) : s.Adds s := ⟨.refl _, rfl, rfl⟩

theorem State.Adds.trans {s t u : State} (h : s.Adds t) (h' : t.Adds u) : s.Adds u :=
  ⟨h.store.trans h'.store, h'.scopes.trans h.scopes, h'.output.trans h.output⟩

theorem State.Adds.traced (settings : Settings) (level : Nat) (text : String) (s : State) :
    s.Adds (Run.traced settings level text s) := by
  unfold Run.traced
  split
  · exact ⟨.refl _, rfl, rfl⟩
  · exact .refl s

/-! ## Basic runs -/

variable {k : Reach}

namespace Run

variable {α β : Type}

/-- A run that is made of reading the store, changing it and printing as far as it reaches, and
stopping for common reasons. -/
inductive Basic (k : Reach) : {α : Type} → Run α → Prop
  | pure {α : Type} (a : α) : Basic k (Pure.pure a)
  | throw {α : Type} (stop : Stop) (h : stop.isCommon = true) :
      Basic k (MonadExcept.throw stop : Run α)
  | bind {α β : Type} {m : Run α} {f : α → Run β} (hm : Basic k m) (hf : ∀ a, Basic k (f a)) :
      Basic k (m >>= f)
  | store : Basic k Run.store
  | updateStore {α : Type} {f : Store → α × Store} (h : ∀ s, k.Allows s (f s).2) :
      Basic k (Run.updateStore f)
  | printLine (text : String) (h : k = .changing) : Basic k (Run.printLine text)

namespace Basic

/-- Every run that only adds is one that may change more. -/
theorem changing {m : Run α} (h : Basic k m) : Basic .changing m := by
  induction h with
  | pure a => exact .pure a
  | throw stop h => exact .throw stop h
  | bind _ _ ihm ihf => exact .bind ihm ihf
  | store => exact .store
  | updateStore h => exact .updateStore fun s => ⟨(h s).tables, (h s).scopes_eq⟩
  | printLine text _ => exact .printLine text rfl

/-- A basic run changes no more of the store than it may. -/
theorem stays {m : Run α} (h : Basic k m) (s : State) :
    k.Allows s.store (Ending.state (m s)).store := by
  induction h generalizing s with
  | pure | throw | store | printLine => exact .refl _
  | updateStore h => exact h s.store
  | @bind _ _ m f _ _ ihm ihf =>
    have hm := ihm s
    rw [run_bind]
    cases hrun : m s with
    | error stop s' =>
      rw [hrun] at hm
      exact hm
    | ok a s' =>
      rw [hrun] at hm
      exact hm.trans (ihf a s')

/-- A run that only adds prints nothing. -/
theorem output_eq {m : Run α} (h : Basic .adding m) (s : State) :
    (Ending.state (m s)).output = s.output := by
  induction h generalizing s with
  | pure | throw | store | updateStore => rfl
  | printLine _ h => cases h
  | @bind _ _ m f _ _ ihm ihf =>
    have hm := ihm s
    rw [run_bind]
    cases hrun : m s with
    | error stop s' =>
      rw [hrun] at hm
      exact hm
    | ok a s' =>
      rw [hrun] at hm
      exact (ihf a s').trans hm

theorem adds {m : Run α} (h : Basic .adding m) (s : State) :
    s.Adds (Ending.state (m s)) :=
  ⟨(h.stays s).1, (h.stays s).2, h.output_eq s⟩

theorem stops {m : Run α} (h : Basic k m) {s s' : State} {stop : Stop}
    (hrun : m s = .error stop s') : stop.isCommon = true := by
  induction h generalizing s with
  | pure | store | updateStore | printLine => cases hrun
  | throw stop h =>
    cases hrun
    exact h
  | @bind _ _ m f _ _ ihm ihf =>
    rw [run_bind] at hrun
    cases hm : m s with
    | error stop s' =>
      rw [hm] at hrun
      cases hrun
      exact ihm hm
    | ok a s' =>
      rw [hm] at hrun
      exact ihf a hrun

theorem run_retraced {m : Run α} (h : Basic k m) (tr : Array TraceLine) (s : State) :
    m (s.retraced tr) = Ending.retraced tr (m s) := by
  induction h generalizing s with
  | pure | throw | store | updateStore | printLine => rfl
  | @bind _ _ m f _ _ ihm ihf =>
    rw [run_bind, run_bind, ihm s]
    cases m s with
    | error stop s' => rfl
    | ok a s' => exact ihf a s'

/-- A basic run leaves the trace as it is. -/
theorem trace_eq {m : Run α} (h : Basic k m) (s : State) :
    (Ending.state (m s)).trace = s.trace := by
  have hsame : m s = Ending.retraced s.trace (m s) := h.run_retraced s.trace s
  rw [hsame]
  cases m s <;> rfl

theorem fault (pos : Pos) {cause : Cause} (h : cause.isRedeclaration = false) :
    Basic k (Run.fault pos cause : Run α) :=
  throw _ (by rw [Stop.isCommon, h]; rfl)

theorem exhausted : Basic k (MonadExcept.throw .exhausted : Run α) := throw _ rfl

theorem ite {c : Prop} [Decidable c] {m₁ m₂ : Run α} (h₁ : Basic k m₁) (h₂ : Basic k m₂) :
    Basic k (if c then m₁ else m₂) := by
  split
  · exact h₁
  · exact h₂

/-- A check in front of the rest. -/
theorem check {c : Prop} [Decidable c] {m : Run Unit} {f : Unit → Run α}
    (hm : Basic k m) (hf : ∀ u, Basic k (f u)) : Basic k (if c then m >>= f else f ()) :=
  ite (bind hm hf) (hf ())

theorem mapM {f : β → Run α} (h : ∀ b, Basic k (f b)) : ∀ bs : List β, Basic k (bs.mapM f)
  | [] => by
    rw [List.mapM_nil]
    exact pure _
  | b :: bs => by
    rw [List.mapM_cons]
    exact bind (h b) fun _ => bind (mapM h bs) fun _ => pure _

end Basic

theorem basic_modifyStore {f : Store → Store} (h : ∀ s, k.Allows s (f s)) :
    Basic k (modifyStore f) :=
  .updateStore (f := fun s => ((), f s)) h

theorem basic_modifyArray (r : ArrayRef) (f : Array Value → Array Value) :
    Basic .changing (modifyStore (·.modifyArray r f)) :=
  basic_modifyStore fun _ => ⟨List.prefix_rfl, rfl⟩

theorem basic_orExhausted : ∀ o : Option α, Basic k (orExhausted o)
  | some a => .pure a
  | none => .exhausted

theorem basic_elements (r : ArrayRef) : Basic k (elements r) := .bind .store fun _ => .pure _

theorem basic_inspect (v : Value) : Basic k (inspect v) := .bind .store fun _ => basic_orExhausted _

/-- Copying only adds collections. -/
theorem basic_clone (v : Value) (pos : Pos) : Basic k (clone v pos) := by
  have hcopy : ∀ s : Store, k.Allows s (s.clone v pos).2 := fun s =>
    .of_grows (Store.Copy.grows_copyWithin pos s.collections v s)
      (Store.Copy.scopes_copyWithin pos s.collections v s)
  exact .bind (.updateStore hcopy) fun _ => basic_orExhausted _

theorem basic_newArray (vs : Array Value) (pos : Pos) : Basic k (newArray vs pos) :=
  .bind (.updateStore fun s => .of_grows (.newArray s vs) rfl) fun _ => .pure _

theorem basic_newTable (t : Table) (pos : Pos) : Basic k (newTable t pos) :=
  .bind (.updateStore fun s => .of_grows (.newTable s t) rfl) fun _ => .pure _

theorem basic_newId : Basic k newId :=
  .updateStore fun _ => .of_grows ⟨List.prefix_rfl, List.prefix_rfl⟩ rfl

theorem basic_toBool? (v : Value) : Basic k (toBool? v) := by
  unfold toBool?
  split
  case h_6 => exact .bind (basic_elements _) fun _ => .pure _
  case h_7 => exact .bind .store fun _ => .pure _
  all_goals exact .pure _

/-! ## Lines of the trace -/

/-- A line of the trace that shows a value: it is made if its level is kept, and then the value has
to have a text. -/
theorem run_trace_inspect (settings : Settings) (level : Nat) (v : Value) (f : String → String)
    (s : State) :
    trace settings level (do return f (← inspect v)) s =
      if level ≤ settings.traceLevel then
        match s.store.inspect? v with
        | some text => .ok () { s with trace := s.trace.push ⟨level, f text⟩ }
        | none => .error .exhausted s
      else .ok () s := by
  unfold trace
  split
  · rw [run_bind, run_bind, inspect, run_bind, show Run.store s = .ok s.store s from rfl]
    dsimp only
    cases s.store.inspect? v <;> rfl
  · rfl

end Run

open Run

/-! ## Built-in functions without callbacks -/

namespace Builtin

variable {pos : Pos} {v : Value}

theorem basic_refuse {α : Type} {b : Builtin} {place : Place} {want : List Ty} :
    Basic k (refuse b pos place want v : Run α) :=
  .fault _ rfl

theorem basic_toInt : Basic k (toInt pos v) := by
  unfold toInt
  split
  · exact .pure _
  · split
    · exact .pure _
    · exact .fault _ rfl
  · split
    · exact .pure _
    · exact .fault _ rfl
  · exact .fault _ rfl

theorem basic_toFloat : Basic k (toFloat pos v) := by
  unfold toFloat
  split
  · exact .pure _
  · exact .pure _
  · split
    · exact .pure _
    · exact .fault _ rfl
  · exact .fault _ rfl

theorem basic_toText : Basic k (toText pos v) := .bind (basic_inspect v) fun _ => .pure _

theorem basic_toBool : Basic k (toBool pos v) := by
  refine .bind (basic_toBool? v) fun b => ?_
  cases b
  · exact .fault _ rfl
  · exact .pure _

theorem basic_rangeOf {args : List Value} : Basic k (rangeOf pos args) := by
  unfold rangeOf
  split
  · exact .ite (.fault _ rfl) (basic_newArray _ _)
  · exact basic_refuse
  · exact basic_newArray _ _
  · exact basic_refuse
  · exact basic_refuse
  · exact .fault _ rfl

theorem basic_lengthOf : Basic k (lengthOf pos v) := by
  unfold lengthOf
  split
  · exact .bind (basic_elements _) fun _ => .pure _
  · exact .pure _
  · exact .fault _ rfl

theorem basic_pickOf {b : Builtin} {element? : Array Value → Option Value}
    {char? : String → Option Char} : Basic k (pickOf b element? char? pos v) := by
  unfold pickOf
  split
  · refine .bind (basic_elements _) fun vs => ?_
    split
    · exact basic_clone _ _
    · exact .pure _
  · split <;> exact .pure _
  · exact basic_refuse

theorem basic_copies {vs : List Value} : Basic k (copies pos vs) :=
  .bind (.mapM (fun v => basic_clone v pos) vs) fun _ => basic_newArray _ _

theorem basic_restOf : Basic k (restOf pos v) := by
  unfold restOf
  split
  · refine .bind (basic_elements _) fun vs => ?_
    split
    · exact .pure _
    · exact basic_copies
  · exact basic_refuse

theorem basic_popOf : Basic k (popOf pos v) := by
  unfold popOf
  split
  · refine .bind (basic_elements _) fun vs => ?_
    split
    · exact .pure _
    · exact basic_copies
  · exact basic_refuse

theorem basic_pushOnto {w : Value} : Basic k (pushOnto pos v w) := by
  unfold pushOnto
  split
  · exact .bind (basic_elements _) fun _ => basic_copies
  · exact basic_refuse

theorem basic_absOf : Basic k (absOf pos v) := by
  unfold absOf
  split
  · exact .pure _
  · exact .pure _
  · exact basic_refuse

theorem basic_powOf {w : Value} : Basic k (powOf pos v w) := by
  unfold powOf
  extract_lets floats
  have hfloats : Basic k floats := by
    unfold floats
    split
    · exact .pure _
    · exact .fault _ rfl
  split
  · exact .ite (.pure _) hfloats
  · exact hfloats

theorem basic_sqrtOf : Basic k (sqrtOf pos v) := by
  unfold sqrtOf
  split
  · exact .ite (.fault _ rfl) (.pure _)
  · exact basic_refuse

theorem basic_floatFunction {b : Builtin} {f : Float → Float} :
    Basic k (floatFunction b f pos v) := by
  unfold floatFunction
  split
  · exact .pure _
  · exact basic_refuse

theorem basic_total {vs : List Value} {t : Total} : Basic k (total pos t vs) := by
  induction vs generalizing t with
  | nil => exact .pure _
  | cons v vs ih =>
    unfold total
    split
    · exact ih
    · exact .fault _ rfl

theorem basic_sumOf : Basic k (sumOf pos v) := by
  unfold sumOf
  split
  · exact .bind (basic_elements _) fun _ => .bind basic_total fun _ => .pure _
  · exact basic_refuse

theorem basic_meanOf : Basic k (meanOf pos v) := by
  unfold meanOf
  split
  · refine .bind (basic_elements _) fun _ => .check (.fault _ rfl) fun _ => ?_
    exact .bind basic_total fun _ => .pure _
  · exact basic_refuse

theorem basic_printAll {vs : List Value} : Basic .changing (printAll vs) := by
  induction vs with
  | nil => exact .pure _
  | cons v vs ih => exact .bind (basic_inspect v) fun _ => .bind (.printLine _ rfl) fun _ => ih

end Builtin

/-! ## Methods without callbacks -/

theorem basic_sliceBounds {callee : Callee} {pos : Pos} {length : Nat} {args : List Value} :
    Basic k (sliceBounds callee pos length args) := by
  unfold sliceBounds
  split
  · exact .fault _ rfl
  · refine .check (.fault _ rfl) fun _ => ?_
    split
    · refine .check (.fault _ rfl) fun _ => ?_
      split
      · exact .bind (.pure _) fun _ => .check (.fault _ rfl) fun _ => .pure _
      · exact .bind (.pure _) fun _ => .check (.fault _ rfl) fun _ => .pure _
      · exact .bind (.fault _ rfl) fun _ => .check (.fault _ rfl) fun _ => .pure _
    · exact .fault _ rfl

namespace ArrayMethod

variable {r : ArrayRef} {pos : Pos} {array v : Value} {args : List Value}

theorem basic_checkCallback {m : ArrayMethod} {f : Value} {least : Nat} :
    Basic k (checkCallback m f least) := by
  unfold checkCallback
  split
  · exact .ite (.fault _ rfl) (.pure _)
  · exact .pure _
  · exact .fault _ rfl

theorem basic_naturalLess {x y : Value} : Basic k (naturalLess x y) := by
  unfold naturalLess
  split
  · exact .pure _
  · split
    · exact .pure _
    · exact .fault _ rfl

theorem basic_ordering : Basic k (ordering pos args) := by
  unfold ordering
  split
  · exact .pure _
  · exact .pure _
  · exact .bind basic_checkCallback fun _ => .pure _
  · exact .pure _
  · exact .fault _ rfl
  · exact .fault _ rfl

theorem basic_addElement {m : ArrayMethod} {add : Value → Array Value → Array Value} :
    Basic .changing (addElement m r array add args) := by
  unfold addElement
  split
  · exact .bind (basic_modifyArray r _) fun _ => .pure _
  · exact .fault _ rfl

theorem basic_removeAt {i : Nat} : Basic .changing (removeAt r i) :=
  .bind (basic_elements r) fun _ => .bind (basic_modifyArray r _) fun _ => .pure _

theorem basic_shiftFirst : Basic .changing (shiftFirst r pos) :=
  .bind (basic_elements r) fun _ => .check (.fault _ rfl) fun _ => basic_removeAt

theorem basic_popElement : Basic .changing (popElement r pos args) := by
  unfold popElement
  refine .check (.fault _ rfl) fun _ => .bind (basic_elements r) fun vs => ?_
  refine .check (.fault _ rfl) fun _ => ?_
  split
  · exact basic_removeAt
  · exact .ite (.fault _ rfl) basic_removeAt
  · exact .fault _ rfl

theorem basic_concatenation {done : Array Value} : Basic k (concatenation pos done args) := by
  induction args generalizing done with
  | nil => exact .pure _
  | cons v args ih =>
    unfold concatenation
    split
    · cases ‹_ = _›
    · rename_i r _ rest heq
      cases heq
      exact .bind (basic_elements r) fun _ => ih
    · exact .fault _ rfl

theorem basic_concatOf : Basic k (concatOf r pos args) :=
  .bind (basic_elements r) fun _ => .bind basic_concatenation fun _ => basic_newArray _ _

theorem basic_indexIn : Basic k (indexIn r pos v) := by
  refine .bind (basic_elements r) fun vs => ?_
  split <;> exact .pure _

theorem basic_joined {sep : String} : Basic k (joined r sep pos) :=
  .bind (basic_elements r) fun _ => .bind (.mapM basic_inspect _) fun _ => .pure _

theorem basic_sliceOf : Basic k (sliceOf r pos args) :=
  .bind (basic_elements r) fun _ => .bind basic_sliceBounds fun _ => basic_newArray _ _

end ArrayMethod

theorem StringMethod.basic_run {m : StringMethod} {s : String} {pos : Pos} {args : List Value} :
    Basic k (m.run s pos args) := by
  have hplain : ∀ result, Basic k (plain m pos result args) := by
    intro result
    unfold plain
    split
    · exact .pure _
    · exact .fault _ rfl
  have htest : ∀ holds, Basic k (test m pos holds args) := by
    intro holds
    unfold test
    split
    · exact .pure _
    · exact .fault _ rfl
    · exact .fault _ rfl
  unfold run
  split
  case h_1 =>
    split
    · exact .pure _
    · exact .fault _ rfl
  case h_8 =>
    split
    · exact basic_newArray _ _
    · exact basic_newArray _ _
    · exact .fault _ rfl
    · exact .fault _ rfl
  case h_9 | h_10 | h_11 => exact htest _
  case h_12 | h_13 => split <;> first | exact .pure _ | exact .fault _ rfl
  case h_14 => exact .bind basic_sliceBounds fun _ => .pure _
  all_goals exact hplain _

theorem HashMethod.basic_run {m : HashMethod} {r : TableRef} {pos : Pos} {args : List Value} :
    Basic k (m.run r pos args) := by
  unfold run
  split
  · exact .fault _ rfl
  · refine .bind .store fun s => ?_
    cases m with
    | keys | values => exact basic_newArray _ _
    | items => exact .bind (.mapM (fun _ => basic_newArray _ _) _) fun _ => basic_newArray _ _

/-! ## Operators and expressions that hand out nothing -/

namespace Operator

/-- The operator fails for common reasons only. -/
def Common (result : Result) : Prop := ∀ f, result = .error f → f.cause.isRedeclaration = false

theorem common_ok (v : Value) : Common (.ok v) := fun _ h => nomatch h

theorem common_fault (pos : Pos) {cause : Cause} (h : cause.isRedeclaration = false) :
    Common (fault pos cause) := by
  rintro _ ⟨⟩
  exact h

theorem common_unary {pos : Pos} {op : UnaryOp} {v : Value} : Common (unary pos op v) := by
  unfold unary
  split <;> first | exact common_ok _ | exact common_fault _ rfl

theorem common_binary {pos : Pos} {op : BinaryOp} {l r : Value} :
    Common (binary pos op l r) := by
  have hfloats : ∀ tl tr a b, Common (floats pos op tl tr a b) := by
    intro tl tr a b
    unfold floats
    split <;> first | exact common_ok _ | exact common_fault _ rfl
  unfold binary
  split
  · unfold integers
    split <;> (try split) <;> first | exact common_ok _ | exact common_fault _ rfl
  · exact hfloats _ _ _ _
  · exact hfloats _ _ _ _
  · exact hfloats _ _ _ _
  · unfold strings
    split <;> first | exact common_ok _ | exact common_fault _ rfl
  · unfold others
    split <;> (try split) <;> first | exact common_ok _ | exact common_fault _ rfl

theorem common_step {pos : Pos} {op : StepOp} {before : Bool} {v : Value} :
    Common (step pos op before v) := by
  unfold step
  split <;> first | exact common_ok _ | exact common_fault _ rfl

end Operator

namespace Eval

variable {scope : ScopeRef} {pos : Pos}

theorem basic_ofResult {result : Operator.Result} (h : Operator.Common result) :
    Basic k (ofResult result) := by
  cases result with
  | ok v => exact .pure v
  | error f => exact .fault f.pos (h f rfl)

theorem basic_evalName {name : String} : Basic k (evalName scope pos name) := by
  refine .bind .store fun s => ?_
  split
  · exact .pure _
  · split
    · exact .pure _
    · exact .fault _ rfl

theorem basic_evalIndex {collection key : Value} : Basic k (evalIndex collection key) := by
  unfold evalIndex
  split
  · exact .bind (basic_elements _) fun _ => .pure _
  · split
    · exact .fault _ rfl
    · exact .bind .store fun _ => .pure _
  · exact .fault _ rfl

theorem basic_makeClosure {params : List String} {body : Block} :
    Basic k (makeClosure scope pos params body) :=
  .bind basic_newId fun _ => .pure _

end Eval

/-! ## Library scripts -/

namespace Script

variable {α β : Type} {C : Value → Prop}

/-- A script that does basic runs and hands out calls of the values that `C` holds of. -/
inductive Library (k : Reach) (C : Value → Prop) : {α : Type} → Script α → Prop
  | pure {α : Type} (a : α) : Library k C (Pure.pure a)
  | lift {α : Type} {m : Run α} (h : Basic k m) : Library k C (liftM m)
  | call {f : Value} (h : C f) (pos : Pos) (args : List Value) :
      Library k C (ask (.apply pos f args))
  | bind {α β : Type} {m : Script α} {f : α → Script β} (hm : Library k C m)
      (hf : ∀ a, Library k C (f a)) : Library k C (m >>= f)
  /-- What follows a run may rely on how the run ended. -/
  | lift_bind {α β : Type} {m : Run α} {f : α → Script β} (hm : Basic k m)
      (hf : ∀ a s s', m s = .ok a s' → Library k C (f a)) : Library k C (liftM m >>= f)

namespace Library

theorem fault (pos : Pos) {cause : Cause} (h : cause.isRedeclaration = false) :
    Library k C (liftM (Run.fault pos cause : Run α) : Script α) :=
  lift (.fault pos h)

theorem ite {c : Prop} [Decidable c] {m₁ m₂ : Script α}
    (h₁ : Library k C m₁) (h₂ : Library k C m₂) : Library k C (if c then m₁ else m₂) := by
  split
  · exact h₁
  · exact h₂

/-- A check in front of the rest. -/
theorem demand {c : Prop} [Decidable c] {m : Script Unit} {f : Unit → Script α}
    (hm : Library k C m) (hf : ∀ u, Library k C (f u)) :
    Library k C (if c then f () else m >>= f) :=
  ite (hf ()) (bind hm hf)

theorem walk {r : ArrayRef} {visit : β → Nat → Value → Script (ForInStep β)}
    (h : ∀ b i v, Library k C (visit b i v)) :
    ∀ fuel index b, Library k C (walk r visit fuel index b)
  | 0, _, _ => lift (.throw _ rfl)
  | fuel + 1, index, b => by
    rw [Script.walk]
    refine bind (lift (basic_elements r)) fun vs => ?_
    split
    · exact pure _
    · refine bind (h _ _ _) fun step => ?_
      split
      · exact pure _
      · exact walk h fuel _ _

section Order

variable {less : Value → Value → Script Bool} (h : ∀ x y, Library k C (less x y))
include h

theorem run (done : List Value) (last : Value) (rest : List Value) :
    Library k C (Order.run less done last rest) := by
  induction rest generalizing done last with
  | nil => exact pure _
  | cons x rest ih =>
    rw [Order.run]
    exact bind (h _ _) fun _ => ite (ih _ _) (pure _)

theorem place (sorted : Array Value) (x : Value) (low high : Nat) :
    Library k C (Order.place less sorted x low high) := by
  fun_induction Order.place less sorted x low high with
  | case1 => exact pure _
  | case2 _ _ _ _ y _ ihLow ihHigh => exact bind (h x y) fun _ => ite ihLow ihHigh
  | case3 => exact pure _

theorem insertAll (sorted : Array Value) (xs : List Value) :
    Library k C (Order.insertAll less sorted xs) := by
  induction xs generalizing sorted with
  | nil => exact pure _
  | cons x xs ih =>
    rw [Order.insertAll]
    exact bind (place h _ _ _ _) fun _ => ih _

theorem sort : ∀ xs : List Value, Library k C (Order.sort less xs)
  | [] => pure _
  | [_] => pure _
  | x :: y :: rest => by
    rw [Order.sort]
    refine bind (h _ _) fun _ => ite ?_ ?_
    · exact bind (run h _ _ _) fun _ => insertAll h _ _
    · exact bind (run (fun _ _ => bind (h _ _) fun _ => pure _) _ _ _) fun _ => insertAll h _ _

theorem sortDescending (xs : List Value) : Library k C (Order.sortDescending less xs) :=
  bind (sort h _) fun _ => pure _

end Order

end Library

end Script

open Script

namespace Builtin

variable {settings : Settings} {pos : Pos} {C : Value → Prop}

/-- The function calls one of its arguments. -/
def callsBack : Builtin → Bool
  | map | filter | reduce => true
  | _ => false

def reach : Builtin → Reach
  | print => .changing
  | _ => .adding

theorem library_mapOver {f v : Value} (hf : C f) : Library k C (mapOver settings pos f v) := by
  unfold mapOver
  split
  · refine .demand (.lift basic_refuse) fun _ =>
      .bind (.walk (fun _ _ _ => ?_) _ _ _) fun _ => .lift (basic_newArray _ _)
    exact .bind (.call hf _ _) fun _ => .pure _
  · exact .lift basic_refuse

theorem library_filterOver {f v : Value} (hf : C f) :
    Library k C (filterOver settings pos f v) := by
  unfold filterOver
  split
  · refine .demand (.lift basic_refuse) fun _ =>
      .bind (.walk (fun _ _ _ => ?_) _ _ _) fun _ => .lift (basic_newArray _ _)
    refine .bind (.call hf _ _) fun _ => .bind (.lift (basic_toBool? _)) fun answer => ?_
    cases answer
    · exact .fault _ rfl
    · exact .pure _
  · exact .lift basic_refuse

theorem library_reduceOver {start f v : Value} (hf : C f) :
    Library k C (reduceOver settings pos start f v) := by
  unfold reduceOver
  split
  · refine .demand (.lift basic_refuse) fun _ => .walk (fun _ _ _ => ?_) _ _ _
    exact .bind (.call hf _ _) fun _ => .pure _
  · exact .lift basic_refuse

/-- **A built-in function does basic runs and hands out calls** of its arguments. -/
theorem library_run {b : Builtin} {args : List Value} :
    Library b.reach (fun f => b.callsBack = true ∧ f ∈ args) (b.run settings pos args) := by
  unfold run
  split
  case h_1 => exact .pure _
  case h_2 => exact .lift basic_rangeOf
  case h_3 => exact .lift basic_toInt
  case h_4 => exact .lift basic_toFloat
  case h_5 => exact .lift basic_toText
  case h_6 => exact .lift basic_toBool
  case h_7 => exact .lift basic_lengthOf
  case h_8 | h_9 => exact .lift basic_pickOf
  case h_10 => exact .lift basic_restOf
  case h_11 => exact .lift basic_pushOnto
  case h_12 => exact .lift basic_popOf
  case h_13 => exact library_mapOver ⟨rfl, by simp⟩
  case h_14 => exact library_filterOver ⟨rfl, by simp⟩
  case h_15 => exact library_reduceOver ⟨rfl, by simp⟩
  case h_16 => exact .lift basic_printAll
  case h_17 => exact .lift basic_absOf
  case h_18 => exact .lift basic_powOf
  case h_19 => exact .lift basic_sqrtOf
  case h_20 | h_21 | h_22 => exact .lift basic_floatFunction
  case h_23 => exact .lift basic_sumOf
  case h_24 => exact .lift basic_meanOf
  case h_25 => exact .fault _ rfl

end Builtin

namespace ArrayMethod

variable {settings : Settings} {r : ArrayRef} {array : Value} {C : Value → Prop}

/-- The method calls one of its arguments. -/
def callsBack : ArrayMethod → Bool
  | map | filter | reduce | find | any | every | sort => true
  | _ => false

/-- The methods that change their array reach further than the others. -/
def reach : ArrayMethod → Reach
  | push | append | prepend | shift | pop => .changing
  | _ => .adding

theorem library_invoke {pos : Pos} {f : Value} {count : Nat} {args : List Value} (hf : C f) :
    Library k C (invoke pos f count args) := by
  unfold invoke
  split <;> exact .call hf _ _

theorem library_holds {m : ArrayMethod} {f : Value} {index : Nat} {v : Value} (hf : C f) :
    Library k C (holds m array f index v) := by
  unfold holds
  refine .bind (library_invoke hf) fun _ => .bind (.lift (basic_toBool? _)) fun answer => ?_
  cases answer
  · exact .fault _ rfl
  · exact .pure _

theorem library_walkWith {β : Type} {m : ArrayMethod} {args : List Value}
    {next : β → Value → Bool → ForInStep β} {start : β} (hargs : ∀ f ∈ args, C f) :
    Library k C (walkWith m settings r array args next start) := by
  unfold walkWith
  split
  · rename_i f
    have hf : C f := hargs f (by simp)
    refine .bind (.lift basic_checkCallback) fun _ => .walk (fun _ _ _ => ?_) _ _ _
    exact .bind (library_holds hf) fun _ => .pure _
  · exact .fault _ rfl

theorem library_callbackLess {pos : Pos} {f x y : Value} (hf : C f) :
    Library k C (callbackLess pos f x y) := by
  unfold callbackLess
  refine .bind (library_invoke hf) fun answer => ?_
  cases answer.number?
  · exact .fault _ rfl
  · exact .pure _

/-- Whatever order `sort` asks for compares with a library script. -/
theorem library_of_ordering {pos : Pos} {args : List Value} {s s' : State}
    {less : Value → Value → Script Bool} {descending : Bool} (hargs : ∀ f ∈ args, C f)
    (h : ordering pos args s = .ok (less, descending) s') (x y : Value) :
    Library k C (less x y) := by
  revert h
  unfold ordering
  split
  · rintro ⟨⟩
    exact .lift basic_naturalLess
  · rintro ⟨⟩
    exact .lift basic_naturalLess
  · rw [Run.run_bind]
    split
    · rintro ⟨⟩
      exact library_callbackLess (hargs _ (by simp))
    · rintro ⟨⟩
  · rintro ⟨⟩
    exact library_callbackLess (hargs _ (by simp))
  · rintro ⟨⟩
  · rintro ⟨⟩

theorem library_sorted {pos : Pos} {args : List Value} (hargs : ∀ f ∈ args, C f) :
    Library k C (sorted r pos args) := by
  unfold sorted
  refine .lift_bind basic_ordering fun ⟨less, descending⟩ s s' horder => ?_
  have hless : ∀ x y, Library k C (less x y) := library_of_ordering hargs horder
  refine .bind (.lift (basic_elements r)) fun _ => .ite ?_ ?_
  · exact .bind (.sortDescending hless _) fun _ => .lift (basic_newArray _ _)
  · exact .bind (.sort hless _) fun _ => .lift (basic_newArray _ _)

theorem library_run {m : ArrayMethod} {args : List Value} :
    Library m.reach (fun f => m.callsBack = true ∧ f ∈ args) (m.run settings r array args) := by
  unfold run
  split
  case h_1 => exact .lift (.bind (basic_elements r) fun _ => .pure _)
  case h_2 | h_3 | h_4 => exact .lift basic_addElement
  case h_5 => exact .lift basic_shiftFirst
  case h_6 => exact .lift basic_popElement
  case h_8 => exact .lift basic_concatOf
  case h_9 =>
    refine .bind (.lift basic_checkCallback) fun _ =>
      .bind (.walk (fun _ _ _ => ?_) _ _ _) fun _ => .lift (basic_newArray _ _)
    exact .bind (library_invoke ⟨rfl, by simp⟩) fun _ => .pure _
  case h_10 =>
    exact .bind (library_walkWith fun _ hf => ⟨rfl, hf⟩) fun _ => .lift (basic_newArray _ _)
  case h_11 => exact library_walkWith fun _ hf => ⟨rfl, hf⟩
  case h_12 | h_13 => exact .bind (library_walkWith fun _ hf => ⟨rfl, hf⟩) fun _ => .pure _
  case h_14 =>
    refine .bind (.lift basic_checkCallback) fun _ => .walk (fun _ _ _ => ?_) _ _ _
    exact .bind (library_invoke ⟨rfl, by simp⟩) fun _ => .pure _
  case h_16 => exact .lift (.bind (basic_elements r) fun _ => .pure _)
  case h_17 => exact .lift basic_indexIn
  case h_18 | h_19 => exact .lift basic_joined
  case h_22 => exact .lift (.bind (basic_elements r) fun _ => basic_newArray _ _)
  case h_23 => exact .lift basic_sliceOf
  case h_24 => exact library_sorted fun _ hf => ⟨rfl, hf⟩
  all_goals exact .fault _ rfl

end ArrayMethod

namespace Value

/-- The array method of that name, if the value is an array. -/
def arrayMethod? (receiver : Value) (name : String) : Option ArrayMethod :=
  match receiver with
  | .array _ _ => ArrayMethod.ofName? name
  | _ => none

def methodReach (receiver : Value) (name : String) : Reach :=
  match receiver.arrayMethod? name with
  | some m => m.reach
  | none => .adding

/-- The method of that name calls one of its arguments. -/
def methodCallsBack (receiver : Value) (name : String) : Bool :=
  (receiver.arrayMethod? name).any (·.callsBack)

end Value

/-- **A method does basic runs and hands out calls** of its arguments. -/
theorem Eval.library_callMethod {settings : Settings} {receiver : Value} {namePos : Pos}
    {name : String} {args : List Value} :
    Library (receiver.methodReach name) (fun f => receiver.methodCallsBack name = true ∧ f ∈ args)
      (callMethod settings receiver namePos name args) := by
  unfold callMethod
  split
  · rename_i r p
    split
    · rename_i m hm
      have hmethod : (Value.array r p).arrayMethod? name = some m := hm
      rw [Value.methodReach, Value.methodCallsBack, hmethod]
      exact ArrayMethod.library_run
    · exact .fault _ rfl
  · split
    · exact .lift StringMethod.basic_run
    · exact .fault _ rfl
  · split
    · exact .lift HashMethod.basic_run
    · exact .fault _ rfl
  · exact .fault _ rfl

end Vorn
