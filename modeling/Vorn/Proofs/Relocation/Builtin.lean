import Mathlib
import Vorn.Eval.StringMethod
import Vorn.Proofs.Relocation.Run

/-!
# Built-in functions at other places

The built-in functions do the same to moved arguments: `Builtin.moves_run`. They give their results
the place of the call or of an argument, and look at no place otherwise. There is one lemma for the
work of each function; the check of the number of arguments, which is the same for all, is dealt
with by `Builtin.moves_of_arity`.
-/

namespace Vorn

variable {f : Relocation}

open Run Script

namespace Builtin

variable {α : Type} (pos : Pos)

theorem moves_refuse {g : α → α} (b : Builtin) (place : Place) (want : List Ty) (got : Value) :
    Run.Moves f g (refuse b pos place want got)
      (refuse b (f.place pos) place want (got.move f)) := by
  unfold refuse
  rw [Value.ty_move]
  exact .fault _ _

theorem moves_toInt (v : Value) :
    Run.Moves f (Value.move f) (toInt pos v) (toInt (f.place pos) (v.move f)) := by
  cases v with
  | int n p => exact .pure (Value.int n p)
  | float x p =>
    simp only [toInt, Value.move]
    cases (Binary.ofFloat x).truncate? with
    | some n => exact .pure (Value.int (Word.wrap n) p)
    | none => exact .fault _ _
  | string s p =>
    simp only [toInt, Value.move]
    cases Numeral.read? s with
    | some n => exact .pure (Value.int n p)
    | none => exact .fault _ _
  | _ => exact .fault _ _

theorem moves_toFloat (v : Value) :
    Run.Moves f (Value.move f) (toFloat pos v) (toFloat (f.place pos) (v.move f)) := by
  cases v with
  | int n p => exact .pure (Value.float (.ofInt n) p)
  | float x p => exact .pure (Value.float x p)
  | string s p =>
    simp only [toFloat, Value.move]
    cases Decimal.read? s with
    | some x => exact .pure (Value.float x p)
    | none => exact .fault _ _
  | _ => exact .fault _ _

theorem moves_toText (v : Value) :
    Run.Moves f (Value.move f) (toText pos v) (toText (f.place pos) (v.move f)) :=
  .bind (moves_inspect v) fun text => .pure (Value.string text pos)

theorem moves_toBool (v : Value) :
    Run.Moves f (Value.move f) (toBool pos v) (toBool (f.place pos) (v.move f)) := by
  refine .bind (moves_toBool? v) fun o => ?_
  cases o with
  | some b => exact .pure (Value.bool b)
  | none =>
    rw [Value.ty_move]
    exact .fault _ _

theorem counting_move (start stop : Int) (p : Pos) :
    (counting start stop p).map (Value.move f) = counting start stop (f.place p) := by
  simp [counting, Value.move]

theorem rangeOf_many (v w u : Value) (more : List Value) :
    rangeOf pos (v :: w :: u :: more) = fault pos (.builtinCount (more.length + 3) "1 or 2") := by
  simp [rangeOf]

theorem moves_rangeOf (args : List Value) :
    Run.Moves f (Value.move f) (rangeOf pos args)
      (rangeOf (f.place pos) (args.map (Value.move f))) := by
  have hnew : ∀ start stop p, Run.Moves f (Value.move f) (newArray (counting start stop p) p)
      (newArray (counting start stop (f.place p)) (f.place p)) := fun start stop p => by
    rw [← counting_move]
    exact moves_newArray _ p
  match args with
  | [] => exact .fault _ _
  | [v] =>
    cases v with
    | int n p => exact .ite (.fault _ _) (hnew 0 n p)
    | _ => exact .fault _ _
  | [v, w] =>
    cases v with
    | int n p =>
      cases w with
      | int m q => exact hnew n m p
      | _ => exact .fault _ _
    | _ => exact .fault _ _
  | _ :: _ :: _ :: more =>
    rw [List.map_cons, List.map_cons, List.map_cons, rangeOf_many, rangeOf_many, List.length_map]
    exact .fault _ _

theorem moves_lengthOf (v : Value) :
    Run.Moves f (Value.move f) (lengthOf pos v) (lengthOf (f.place pos) (v.move f)) := by
  cases v with
  | array r p =>
    refine .bind (moves_elements r) fun vs => ?_
    rw [Array.size_map]
    exact .pure (Value.int vs.size p)
  | string s p => exact .pure (Value.int s.length p)
  | _ => exact .fault _ _

theorem moves_pickOf (b : Builtin) {element? : Array Value → Option Value}
    {char? : String → Option Char}
    (helement : ∀ vs, element? (vs.map (Value.move f)) = (element? vs).map (Value.move f))
    (v : Value) :
    Run.Moves f (Value.move f) (pickOf b element? char? pos v)
      (pickOf b element? char? (f.place pos) (v.move f)) := by
  cases v with
  | array r p =>
    refine .bind (moves_elements r) fun vs => ?_
    rw [helement]
    cases element? vs with
    | some v => exact moves_clone v pos
    | none => exact .pure Value.null
  | string s p =>
    simp only [pickOf, Value.move]
    cases char? s with
    | some c => exact .pure (Value.string (.singleton c) pos)
    | none => exact .pure Value.null
  | _ => exact .fault _ _

theorem moves_copies (vs : List Value) :
    Run.Moves f (Value.move f) (copies pos vs)
      (copies (f.place pos) (vs.map (Value.move f))) :=
  .bind (.mapM (Value.move f) (fun v => moves_clone v pos) vs) fun vs =>
    moves_newArray_toArray vs pos

theorem moves_restOf (v : Value) :
    Run.Moves f (Value.move f) (restOf pos v) (restOf (f.place pos) (v.move f)) := by
  cases v with
  | array r p =>
    refine .bind (moves_elements r) fun vs => ?_
    rw [Array.toList_map]
    cases vs.toList with
    | nil => exact .pure Value.null
    | cons v vs => exact moves_copies pos vs
  | _ => exact .fault _ _

theorem moves_popOf (v : Value) :
    Run.Moves f (Value.move f) (popOf pos v) (popOf (f.place pos) (v.move f)) := by
  cases v with
  | array r p =>
    refine .bind (moves_elements r) fun vs => ?_
    rw [Array.toList_map]
    cases vs.toList with
    | nil => exact .pure Value.null
    | cons v vs =>
      have h := moves_copies (f := f) pos (v :: vs).dropLast
      rw [List.map_dropLast] at h
      exact h
  | _ => exact .fault _ _

theorem moves_pushOnto (v w : Value) :
    Run.Moves f (Value.move f) (pushOnto pos v w)
      (pushOnto (f.place pos) (v.move f) (w.move f)) := by
  cases w with
  | array r p =>
    refine .bind (moves_elements r) fun vs => ?_
    have h := moves_copies (f := f) pos (vs.toList ++ [v])
    rw [List.map_append, ← Array.toList_map] at h
    exact h
  | _ => exact .fault _ _

/-! ### Callbacks -/

variable (settings : Settings)

theorem moves_mapOver (c v : Value) :
    Moves f (Value.move f) (mapOver settings pos c v)
      (mapOver settings (f.place pos) (c.move f) (v.move f)) := by
  cases v with
  | array r p =>
    simp only [mapOver, Value.move, Value.isCallable_move]
    refine .demand (.lift (moves_refuse pos .map .second _ c)) fun _ => ?_
    refine .bind (moves_collect (fun done i v => ?_) _ 0) fun vs => .lift (moves_newArray vs pos)
    refine .bind (.ask (.apply pos c [v])) fun u => ?_
    rw [← Array.map_push]
    exact .pure (ForInStep.yield (done.push u))
  | _ => exact .lift (.fault _ _)

theorem moves_filterOver (c v : Value) :
    Moves f (Value.move f) (filterOver settings pos c v)
      (filterOver settings (f.place pos) (c.move f) (v.move f)) := by
  cases v with
  | array r p =>
    simp only [filterOver, Value.move, Value.isCallable_move]
    refine .demand (.lift (moves_refuse pos .filter .second _ c)) fun _ => ?_
    refine .bind (moves_collect (fun kept i v => ?_) _ 0) fun vs => .lift (moves_newArray vs pos)
    refine .bind (.ask (.apply pos c [v])) fun u => .bind (.lift (moves_toBool? u)) fun o => ?_
    cases o with
    | none =>
      rw [Value.ty_move]
      exact .lift (.fault _ _)
    | some keep =>
      simp only [id_eq, push_if_move]
      exact .pure (ForInStep.yield (if keep then kept.push v else kept))
  | _ => exact .lift (.fault _ _)

theorem moves_reduceOver (start c v : Value) :
    Moves f (Value.move f) (reduceOver settings pos start c v)
      (reduceOver settings (f.place pos) (start.move f) (c.move f) (v.move f)) := by
  cases v with
  | array r p =>
    simp only [reduceOver, Value.move, Value.isCallable_move]
    refine .demand (.lift (moves_refuse pos .reduce .third _ c)) fun _ => ?_
    refine moves_walk (fun acc i v => ?_) _ 0 start
    exact .bind (.ask (.apply pos c [acc, v])) fun u => .pure (ForInStep.yield u)
  | _ => exact .lift (.fault _ _)

/-! ### Numbers -/

theorem moves_absOf (v : Value) :
    Run.Moves f (Value.move f) (absOf pos v) (absOf (f.place pos) (v.move f)) := by
  cases v with
  | int n p => exact .pure (Value.int (if n < 0 then Word.wrap (-n) else n) p)
  | float x p => exact .pure (Value.float (if x < 0 then -x else x) p)
  | _ => exact .fault _ _

theorem moves_powOf (x y : Value) :
    Run.Moves f (Value.move f) (powOf pos x y) (powOf (f.place pos) (x.move f) (y.move f)) := by
  unfold powOf
  extract_lets floats floats'
  have hfloats : Run.Moves f (Value.move f) floats floats' := by
    unfold floats floats'
    simp only [Value.number?_move, Value.ty_move]
    cases x.number? with
    | none => exact .fault _ _
    | some a =>
      cases y.number? with
      | none => exact .fault _ _
      | some b => exact .pure (Value.float (floatPow a b) pos)
  cases x with
  | int a p =>
    cases y with
    | int b q => exact .ite (.pure (Value.int (Word.pow a b.toNat) pos)) hfloats
    | _ => exact hfloats
  | _ => exact hfloats

theorem moves_sqrtOf (v : Value) :
    Run.Moves f (Value.move f) (sqrtOf pos v) (sqrtOf (f.place pos) (v.move f)) := by
  unfold sqrtOf
  rw [Value.number?_move]
  cases v.number? with
  | some x => exact .ite (.fault _ _) (.pure (Value.float x.sqrt pos))
  | none => exact moves_refuse pos _ _ _ v

theorem moves_floatFunction (b : Builtin) (h : Float → Float) (v : Value) :
    Run.Moves f (Value.move f) (floatFunction b h pos v)
      (floatFunction b h (f.place pos) (v.move f)) := by
  unfold floatFunction
  rw [Value.number?_move]
  cases v.number? with
  | some x => exact .pure (Value.float (h x) pos)
  | none => exact moves_refuse pos _ _ _ v

theorem Total.add_move (t : Total) (v : Value) : t.add (v.move f) = t.add v := by
  cases v <;> rfl

theorem Total.value_move (t : Total) : (t.value pos).move f = t.value (f.place pos) := by
  unfold Total.value
  split <;> rfl

theorem moves_total (t : Total) (vs : List Value) :
    Run.Moves f id (total pos t vs) (total (f.place pos) t (vs.map (Value.move f))) := by
  induction vs generalizing t with
  | nil => exact .pure t
  | cons v vs ih =>
    rw [List.map_cons, total, total, Total.add_move, Value.ty_move]
    cases t.add v with
    | some t => exact ih t
    | none => exact .fault _ _

theorem moves_sumOf (v : Value) :
    Run.Moves f (Value.move f) (sumOf pos v) (sumOf (f.place pos) (v.move f)) := by
  cases v with
  | array r p =>
    refine .bind (moves_elements r) fun vs => ?_
    rw [Array.toList_map]
    refine .bind (moves_total pos {} vs.toList) fun t => ?_
    rw [id_eq, ← Total.value_move]
    exact .pure (t.value pos)
  | _ => exact .fault _ _

theorem moves_meanOf (v : Value) :
    Run.Moves f (Value.move f) (meanOf pos v) (meanOf (f.place pos) (v.move f)) := by
  cases v with
  | array r p =>
    refine .bind (moves_elements r) fun vs => ?_
    rw [isEmpty_map, Array.toList_map, Array.size_map]
    refine .check (.fault _ _) fun _ => .bind (moves_total pos {} vs.toList) fun t => ?_
    rw [id_eq]
    exact .pure (Value.float _ pos)
  | _ => exact .fault _ _

theorem moves_printAll (vs : List Value) :
    Run.Moves f (Value.move f) (printAll vs) (printAll (vs.map (Value.move f))) := by
  induction vs with
  | nil => exact .pure Value.null
  | cons v vs ih =>
    exact .bind (moves_inspect v) fun text => .bind (moves_printLine text) fun _ => ih

/-! ### All functions -/

/-- A built-in function refuses a wrong number of arguments. -/
theorem run_refuses {b : Builtin} {n : Nat} (h : b.arity = some n) {args : List Value}
    (hlength : args.length ≠ n) :
    b.run settings pos args = liftM (fault pos (.builtinCount args.length n.repr) : Run Value) := by
  unfold run
  split
  case h_25 =>
    rw [h]
    rfl
  all_goals
    cases h
    try exact absurd rfl hlength

/-- The number of arguments may be taken to be right. -/
theorem moves_of_arity {b : Builtin} {n : Nat} (h : b.arity = some n) {args : List Value}
    (hrun : args.length = n → Moves f (Value.move f) (b.run settings pos args)
      (b.run settings (f.place pos) (args.map (Value.move f)))) :
    Moves f (Value.move f) (b.run settings pos args)
      (b.run settings (f.place pos) (args.map (Value.move f))) := by
  by_cases hlength : args.length = n
  · exact hrun hlength
  · rw [run_refuses pos settings h hlength,
      run_refuses (f.place pos) settings h (by rwa [List.length_map]), List.length_map]
    exact .lift (.fault _ _)

theorem moves_unary {b : Builtin} (h : b.arity = some 1)
    (hrun : ∀ v, Moves f (Value.move f) (b.run settings pos [v])
      (b.run settings (f.place pos) [v.move f])) (args : List Value) :
    Moves f (Value.move f) (b.run settings pos args)
      (b.run settings (f.place pos) (args.map (Value.move f))) := by
  refine moves_of_arity pos settings h fun hlength => ?_
  match args, hlength with
  | [v], _ => exact hrun v

theorem moves_binary {b : Builtin} (h : b.arity = some 2)
    (hrun : ∀ v w, Moves f (Value.move f) (b.run settings pos [v, w])
      (b.run settings (f.place pos) [v.move f, w.move f])) (args : List Value) :
    Moves f (Value.move f) (b.run settings pos args)
      (b.run settings (f.place pos) (args.map (Value.move f))) := by
  refine moves_of_arity pos settings h fun hlength => ?_
  match args, hlength with
  | [v, w], _ => exact hrun v w

theorem moves_ternary {b : Builtin} (h : b.arity = some 3)
    (hrun : ∀ v w u, Moves f (Value.move f) (b.run settings pos [v, w, u])
      (b.run settings (f.place pos) [v.move f, w.move f, u.move f])) (args : List Value) :
    Moves f (Value.move f) (b.run settings pos args)
      (b.run settings (f.place pos) (args.map (Value.move f))) := by
  refine moves_of_arity pos settings h fun hlength => ?_
  match args, hlength with
  | [v, w, u], _ => exact hrun v w u

theorem moves_type (v : Value) :
    Moves f (Value.move f) (run settings .type pos [v])
      (run settings .type (f.place pos) [v.move f]) := by
  simp only [run, Value.ty_move]
  exact .pure (Value.string v.ty.text pos)

/-- **A built-in function does the same to moved arguments.** -/
theorem moves_run (b : Builtin) (args : List Value) :
    Moves f (Value.move f) (b.run settings pos args)
      (b.run settings (f.place pos) (args.map (Value.move f))) := by
  have hfirst : ∀ vs : Array Value, (vs.map (Value.move f))[0]? = vs[0]?.map (Value.move f) :=
    fun vs => Array.getElem?_map
  have hlast : ∀ vs : Array Value, (vs.map (Value.move f)).back? = vs.back?.map (Value.move f) :=
    fun vs => Array.back?_map
  cases b with
  | range => exact .lift (moves_rangeOf pos args)
  | print => exact .lift (moves_printAll args)
  | type => exact moves_unary pos settings rfl (moves_type pos settings) args
  | int => exact moves_unary pos settings rfl (fun v => .lift (moves_toInt pos v)) args
  | float => exact moves_unary pos settings rfl (fun v => .lift (moves_toFloat pos v)) args
  | string => exact moves_unary pos settings rfl (fun v => .lift (moves_toText pos v)) args
  | bool => exact moves_unary pos settings rfl (fun v => .lift (moves_toBool pos v)) args
  | len => exact moves_unary pos settings rfl (fun v => .lift (moves_lengthOf pos v)) args
  | first => exact moves_unary pos settings rfl (fun v => .lift (moves_pickOf pos _ hfirst v)) args
  | last => exact moves_unary pos settings rfl (fun v => .lift (moves_pickOf pos _ hlast v)) args
  | rest => exact moves_unary pos settings rfl (fun v => .lift (moves_restOf pos v)) args
  | pop => exact moves_unary pos settings rfl (fun v => .lift (moves_popOf pos v)) args
  | abs => exact moves_unary pos settings rfl (fun v => .lift (moves_absOf pos v)) args
  | sqrt => exact moves_unary pos settings rfl (fun v => .lift (moves_sqrtOf pos v)) args
  | sin | cos | tan =>
    exact moves_unary pos settings rfl (fun v => .lift (moves_floatFunction pos _ _ v)) args
  | sum => exact moves_unary pos settings rfl (fun v => .lift (moves_sumOf pos v)) args
  | mean => exact moves_unary pos settings rfl (fun v => .lift (moves_meanOf pos v)) args
  | push => exact moves_binary pos settings rfl (fun w v => .lift (moves_pushOnto pos v w)) args
  | map => exact moves_binary pos settings rfl (fun v c => moves_mapOver pos settings c v) args
  | filter =>
    exact moves_binary pos settings rfl (fun v c => moves_filterOver pos settings c v) args
  | pow => exact moves_binary pos settings rfl (fun x y => .lift (moves_powOf pos x y)) args
  | reduce =>
    exact moves_ternary pos settings rfl (fun v s c => moves_reduceOver pos settings s c v) args

end Builtin

end Vorn
