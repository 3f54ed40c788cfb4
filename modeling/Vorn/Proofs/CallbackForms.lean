import Vorn.Proofs.Eval.Lockstep
import Vorn.Proofs.Mutation

/-!
# Functions and methods that call back

`map`, `filter` and `reduce` are there twice, as functions and as methods of arrays. The two forms
walk over the array in lockstep, whatever the callback does to it on the way (`lockstep_map`,
`lockstep_filter`, `lockstep_reduce`); so they have the same calls of a callback with as many
parameters as both hand arguments over, and they end alike (`callback_forms_agree`). They call from
different places, which shows when a call is exhausted (`overflow_places`).
-/

namespace Vorn

open Run Script

/-- Two values for one new array, which comes from the places of the two forms. -/
def Form.SameArray (A B : Form) (v v' : Value) : Prop :=
  ∃ r, v = .array r A.pos ∧ v' = .array r B.pos

/-- The faults that tell the two forms of `filter` apart: the exhaustion of a call, and an answer
without a truth value. -/
def Form.FilterFault (A B : Form) (c : Closure) (f f' : Fault) : Prop :=
  A.Overflow B f f' ∨
    ∃ ty, f = ⟨A.pos, .filterResult ty⟩ ∧
      f' = ⟨c.pos, .callbackResult (ArrayMethod.callee .filter) ty⟩

variable {settings : Settings} {c : Closure} {r : ArrayRef} {A B : Form} {α β : Type}
  {V : α → β → Prop} {F : Fault → Fault → Prop}

/-- A function of the program with enough parameters is a callback. -/
theorem ArrayMethod.checkCallback_bind {m : ArrayMethod} {least : Nat}
    (h : least ≤ c.params.length) (g : Unit → Script α) :
    ((liftM (checkCallback m (.function c) least) : Script Unit) >>= g) = g () := by
  rw [checkCallback, if_neg (Nat.not_lt.mpr h)]
  rfl

/-- A method hands over more arguments than a function does, and the callback gets those that it
has parameters for. -/
theorem Script.Lockstep.invoke_bind {args more : List Value} {builtinCount : Nat}
    (hargs : args.length = c.params.length) (hF : ∀ f f', A.Overflow B f f' → F f f')
    {g : Value → Script α} {g' : Value → Script β}
    (hg : ∀ v, Lockstep A B (.function c) c.params.length V F (g v) (g' v)) :
    Lockstep A B (.function c) c.params.length V F
      (ask (.apply A.pos (.function c) args) >>= g)
      (ArrayMethod.invoke B.pos (.function c) builtinCount (args ++ more) >>= g') := by
  have hinvoke : ArrayMethod.invoke B.pos (.function c) builtinCount (args ++ more) =
      ask (.apply B.pos (.function c) args) := by
    rw [ArrayMethod.invoke, ← hargs, List.take_left']
    rfl
  rw [hinvoke]
  exact .call_bind hargs hF hg

theorem lockstep_map (hc : c.params.length = 1) :
    Lockstep A B (.function c) c.params.length (A.SameArray B) (A.Overflow B)
      (Builtin.mapOver settings A.pos (.function c) (.array r B.pos))
      (ArrayMethod.mapped settings r (.array r B.pos) (.function c)) := by
  unfold Builtin.mapOver ArrayMethod.mapped
  rw [ArrayMethod.checkCallback_bind (Nat.le_of_eq hc.symm)]
  refine .bind (.walk (fun done i v => ?_) settings.iterations 0 #[]) fun results _ hresults => ?_
  · exact .invoke_bind (by simp [hc]) (fun _ _ h => h) fun u => .pure rfl
  · cases hresults
    exact .newArray fun r => ⟨r, rfl, rfl⟩

theorem lockstep_filter (hc : c.params.length = 1) :
    Lockstep A B (.function c) c.params.length (A.SameArray B) (A.FilterFault B c)
      (Builtin.filterOver settings A.pos (.function c) (.array r B.pos))
      (ArrayMethod.filtered settings r (.array r B.pos) [.function c]) := by
  unfold Builtin.filterOver ArrayMethod.filtered ArrayMethod.walkWith
  dsimp only
  rw [ArrayMethod.checkCallback_bind (Nat.le_of_eq hc.symm)]
  refine .bind (.walk (fun kept i v => ?_) settings.iterations 0 #[]) fun kept _ hkept => ?_
  · unfold ArrayMethod.holds
    rw [Script.bind_assoc]
    refine .invoke_bind (by simp [hc]) (fun _ _ h => .inl h) fun answer => ?_
    rw [Script.bind_assoc]
    refine .lift_bind (basic_toBool? answer).blind fun holds => ?_
    cases holds with
    | some keep => exact .pure rfl
    | none => exact fun _ _ hs => .done (.fault (.inr ⟨answer.ty, rfl, rfl⟩) hs)
  · cases hkept
    exact .newArray fun r => ⟨r, rfl, rfl⟩

theorem lockstep_reduce (hc : c.params.length = 2) (start : Value) :
    Lockstep A B (.function c) c.params.length Eq (A.Overflow B)
      (Builtin.reduceOver settings A.pos start (.function c) (.array r B.pos))
      (ArrayMethod.reduced settings r (.array r B.pos) (.function c) start) := by
  unfold Builtin.reduceOver ArrayMethod.reduced
  rw [ArrayMethod.checkCallback_bind (Nat.le_of_eq hc.symm)]
  refine .walk (fun acc i v => ?_) settings.iterations 0 start
  exact .invoke_bind (by simp [hc]) (fun _ _ h => h) fun u => .pure rfl

/-! ## The main statement -/

/-- A function with as many arguments as it takes runs behind its line of the trace. -/
theorem Builtin.apply_of_arity {b : Builtin} {args : List Value} (pos : Pos) (s : State)
    (h : b.arity = some args.length) :
    Eval.apply settings pos (.builtin b) args s =
      b.run settings pos args (traced settings 2 ("call builtin " ++ b.name) s) := by
  rcases apply_cases settings pos b args s with ⟨n, harity, hn, -⟩ | happly
  · rw [h] at harity
    exact absurd (Option.some.inj harity) hn
  · exact happly

theorem State.behind_trace (s : State) : (s.retraced #[]).behind s.trace = s :=
  congrArg s.retraced Array.append_empty

/-- A state with one more line in its trace is a twin of the state. -/
theorem Form.Twins.of_traced (settings : Settings) (text : String) (s : State) (p p' : Pos) :
    Form.Twins ⟨(traced settings 2 text s).trace, p⟩ ⟨s.trace, p'⟩ (traced settings 2 text s)
      s := by
  refine ⟨s.retraced #[], ?_, s.behind_trace.symm⟩
  have hbehind := (traced settings 2 text s).behind_trace
  have hsame : (traced settings 2 text s).retraced #[] = s.retraced #[] := by
    unfold traced
    split <;> rfl
  rw [← hsame, hbehind]

/-- Played with `go`, two ways to call `f` back have the same calls, and they end alike. -/
structure Form.Agree (A B : Form) (f : Value) (go : Task → Run Value) (V : Value → Value → Prop)
    (F : Fault → Fault → Prop) (m m' : Step Value) : Prop where
  turns : List.Forall₂ (Moment.Matches A B f) (m.turns go) (m'.turns go)
  ending : Ending.Matches A B V F (m.play go) (m'.play go)

theorem Form.Agree.of_lockstep {V : Value → Value → Prop} {m m' : Step Value} (depth : Nat)
    (h : Step.Lockstep A B (.function c) c.params.length V F m m') :
    A.Agree B (.function c) (Eval.eval settings depth) V F m m' := by
  obtain ⟨hturns, hending⟩ := h.play fun args hargs => Eval.answers_apply hargs depth
  exact ⟨hturns, hending⟩

/-- **The forms agree.** Called in the same state with a function of one parameter, `map` and
`filter` as functions and as methods of an array have the same calls of it, in the same order and
each with the same arguments, store, output and lines of the trace since. The calls end alike, and
so do the forms: with one new array, which only comes from different places, or for the same reason.
The same holds of `reduce` and a function of two parameters, where the forms end with the same
value. The form that is a function adds a line of its own to the trace before it starts. Only two
kinds of faults tell the forms apart: if a call of the callback is exhausted, this is reported where
the form calls it, and the two forms of `filter` have their own faults for an answer without a truth
value. -/
theorem callback_forms_agree (settings : Settings) (depth : Nat) (s : State) (r : ArrayRef)
    (p pos namePos : Pos) (c : Closure) (start : Value) :
    let a : Value := .array r p
    let f : Value := .function c
    let go := Eval.eval settings depth
    let called (b : Builtin) : Form :=
      ⟨(traced settings 2 ("call builtin " ++ b.name) s).trace, pos⟩
    let chained : Form := ⟨s.trace, p⟩
    (c.params.length = 1 →
      (called .map).Agree chained f go ((called .map).SameArray chained)
          ((called .map).Overflow chained)
          (Eval.apply settings pos (.builtin .map) [a, f] s)
          (Eval.callMethod settings a namePos "map" [f] s) ∧
        (called .filter).Agree chained f go ((called .filter).SameArray chained)
          ((called .filter).FilterFault chained c)
          (Eval.apply settings pos (.builtin .filter) [a, f] s)
          (Eval.callMethod settings a namePos "filter" [f] s)) ∧
      (c.params.length = 2 →
        (called .reduce).Agree chained f go Eq ((called .reduce).Overflow chained)
          (Eval.apply settings pos (.builtin .reduce) [a, start, f] s)
          (Eval.callMethod settings a namePos "reduce" [f, start] s)) := by
  intro a f go called chained
  refine ⟨fun hc => ⟨?_, ?_⟩, fun hc => ?_⟩
  · rw [Builtin.apply_of_arity pos s rfl]
    exact .of_lockstep depth (lockstep_map hc _ _ (.of_traced ..))
  · rw [Builtin.apply_of_arity pos s rfl]
    exact .of_lockstep depth (lockstep_filter hc _ _ (.of_traced ..))
  · rw [Builtin.apply_of_arity pos s rfl]
    exact .of_lockstep depth (lockstep_reduce hc start _ _ (.of_traced ..))

/-- A state in which `a` is an array of the elements 1 and 2. -/
def twoElements : State where
  store.arrays := #[#[.int 1 .start, .int 2 .start]]
  store.scopes := ⟨#[{ outer := none, bindings := [("a", .array ⟨0⟩ .start)] }]⟩

/-- The statement `if (x == n) ...`, with calls of methods of `a`. -/
def changesAt (n : Int) (calls : List (String × List Expr)) : Stmt :=
  .expr .start "if" (.cond .start
    (some (.binary .start .eq (.ident .start "x") (.int .start n.repr n)))
    (.mk .start (calls.map fun (name, args) =>
      .expr .start "a" (.method .start (.ident .start "a") .start name .start args))) none)

/-- A callback that makes `a` longer at the element 1, and at the element 2 takes the first one
away, so that a walk over `a` passes over the element behind. -/
def changer (params : List String) (answer : Expr) : Closure where
  id := 0
  params := params
  body := .mk .start [
    changesAt 1 [("push", [.int .start "3" 3]), ("push", [.int .start "4" 4])],
    changesAt 2 [("shift", [])],
    .return .start (some answer)]
  scope := Scopes.root
  pos := .start

/-- The forms of `map`, `filter` and `reduce` for an array that the callback changes. Each calls it
three times, for the elements 1, 2 and 4, and each call starts and ends. -/
theorem callback_forms_agree_changing :
    let a : Value := .array ⟨0⟩ ⟨1, 3⟩
    let f := changer ["x"] (.binary .start .gt (.ident .start "x") (.int .start "1" 1))
    let g := changer ["sum", "x"] (.binary .start .add (.ident .start "sum") (.ident .start "x"))
    let go := Eval.eval {} 8
    let called : Form := ⟨#[], ⟨1, 5⟩⟩
    let chained : Form := ⟨#[], ⟨1, 3⟩⟩
    let mapped := Eval.callMethod {} a ⟨1, 7⟩ "map" [.function f] twoElements
    let filtered := Eval.callMethod {} a ⟨1, 7⟩ "filter" [.function f] twoElements
    let reduced := Eval.callMethod {} a ⟨1, 7⟩ "reduce" [.function g, .int 0 .start] twoElements
    (f.params.length = 1 ∧ (mapped.turns go).length = 6 ∧ (filtered.turns go).length = 6 ∧
        called.Agree chained (.function f) go (called.SameArray chained) (called.Overflow chained)
          (Eval.apply {} ⟨1, 5⟩ (.builtin .map) [a, .function f] twoElements) mapped ∧
        called.Agree chained (.function f) go (called.SameArray chained)
          (called.FilterFault chained f)
          (Eval.apply {} ⟨1, 5⟩ (.builtin .filter) [a, .function f] twoElements) filtered) ∧
      g.params.length = 2 ∧ (reduced.turns go).length = 6 ∧
        called.Agree chained (.function g) go Eq (called.Overflow chained)
          (Eval.apply {} ⟨1, 5⟩ (.builtin .reduce) [a, .int 0 .start, .function g] twoElements)
          reduced := by
  intro a f g go called chained mapped filtered reduced
  have hone := (callback_forms_agree {} 8 twoElements ⟨0⟩ ⟨1, 3⟩ ⟨1, 5⟩ ⟨1, 7⟩ f .null).1 rfl
  have htwo :=
    (callback_forms_agree {} 8 twoElements ⟨0⟩ ⟨1, 3⟩ ⟨1, 5⟩ ⟨1, 7⟩ g (.int 0 .start)).2 rfl
  exact ⟨⟨rfl, by decide +kernel, by decide +kernel, hone⟩, rfl, by decide +kernel, htwo⟩

/-- The fault in which a source text ends. -/
def Answer.fault? : Answer → Option Fault
  | .ran (.fault f) => some f
  | _ => none

/-- A callback that shows an array which contains itself is exhausted. The function reports this at
its call, and the method at the array. -/
theorem overflow_places :
    let declarations :=
      "let c = []; c.push(c); let a = [1]; func f(x) \x7b print(c); return x; \x7d"
    let s := Session.after {} [declarations] Session.start
    (Session.step {} "map(a, f)" s).1.fault?.map Fault.shown =
        some "ERROR: [1:5] stack overflow" ∧
      (Session.step {} "a.map(f)" s).1.fault?.map Fault.shown =
        some "ERROR: [1:33] stack overflow" := by
  decide +kernel

end Vorn
