import Vorn.Proofs.Eval.Blind
import Vorn.Proofs.Eval.History
import Vorn.Proofs.Eval.Perform

/-!
# Scripts in lockstep

Two scripts that call a function of the program back are in lockstep (`Script.Lockstep`) if they
hand out the same calls in the same states and go on alike with what comes of them. They may call
from different places, and different lines may stand in front of their traces (`Form`). Only the
exhaustion inside a call tells the places apart (`Eval.answers_apply`). Played with evaluation,
scripts in lockstep have the same calls with the same ends, and they end alike
(`Step.Lockstep.play`).
-/

namespace Vorn

open Run Script

/-! ## States and ends in two forms -/

/-- One form of a computation: the lines in front of its trace, and the place from which it calls
back. -/
structure Form where
  lines : Array TraceLine
  pos : Pos

/-- The two states are one state, with one store and one output, but for the lines in front of the
trace. -/
def Form.Twins (A B : Form) (s s' : State) : Prop :=
  ∃ u : State, s = u.behind A.lines ∧ s' = u.behind B.lines

variable {A B : Form}

/-- The exhaustion of a call is reported where the call is. -/
def Form.Overflow (A B : Form) (f f' : Fault) : Prop :=
  f = ⟨A.pos, .stackOverflow⟩ ∧ f' = ⟨B.pos, .stackOverflow⟩

/-- Two ends in twin states: values that `V` relates, one reason to stop, or faults that `F`
relates. -/
inductive Ending.Matches {α β : Type} (A B : Form) (V : α → β → Prop) (F : Fault → Fault → Prop) :
    Ending α → Ending β → Prop
  | ok {a : α} {b : β} {s s' : State} (hv : V a b) (hs : A.Twins B s s') :
      Matches A B V F (.ok a s) (.ok b s')
  | stop {stop : Stop} {s s' : State} (hs : A.Twins B s s') :
      Matches A B V F (.error stop s) (.error stop s')
  | fault {f f' : Fault} {s s' : State} (hf : F f f') (hs : A.Twins B s s') :
      Matches A B V F (.error (.fault f) s) (.error (.fault f') s')

/-- Two ends of one call from the places of the two forms. -/
abbrev Ending.Answers (A B : Form) : Ending Value → Ending Value → Prop :=
  Ending.Matches A B Eq (A.Overflow B)

/-- One end, behind other lines. -/
theorem Ending.matches_behind {α : Type} {F : Fault → Fault → Prop} : ∀ ending : Ending α,
    Ending.Matches A B Eq F (ending.behind A.lines) (ending.behind B.lines)
  | .ok _ s => .ok rfl ⟨s, rfl, rfl⟩
  | .error _ s => .stop ⟨s, rfl, rfl⟩

/-- The start or the end of one call of `f`, in two forms. -/
inductive Moment.Matches (A B : Form) (f : Value) : Moment → Moment → Prop
  | started (args : List Value) {s s' : State} (hs : A.Twins B s s') :
      Matches A B f (.started (.apply A.pos f args) s) (.started (.apply B.pos f args) s')
  | finished (args : List Value) {ending ending' : Ending Value}
      (h : ending.Answers A B ending') :
      Matches A B f (.finished (.apply A.pos f args) ending)
        (.finished (.apply B.pos f args) ending')

/-! ## Calls of a function of the program -/

/-- From twin states the runs end alike. -/
def Run.Paired {α : Type} (A B : Form) (m m' : Run α) : Prop :=
  ∀ s s', A.Twins B s s' → Ending.Matches A B Eq (A.Overflow B) (m s) (m' s')

namespace Run.Paired

variable {α β : Type} {m m' : Run α}

theorem of_blind (h : Run.Blind m) : Paired A B m m := by
  rintro _ _ ⟨u, rfl, rfl⟩
  rw [h A.lines u, h B.lines u]
  exact Ending.matches_behind (m u)

theorem bind {f f' : α → Run β} (hm : Paired A B m m') (hf : ∀ a, Paired A B (f a) (f' a)) :
    Paired A B (m >>= f) (m' >>= f') := by
  intro s s' hs
  have hends := hm s s' hs
  rw [run_bind, run_bind]
  generalize m s = ending, m' s' = ending' at hends
  cases hends with
  | ok hv hs =>
    cases hv
    exact hf _ _ _ hs
  | stop hs => exact .stop hs
  | fault hf hs => exact .fault hf hs

end Run.Paired

namespace Eval

variable {settings : Settings} {c : Closure} {args : List Value} {depth : Nat}

theorem paired_runBody (body : Block) (scope : ScopeRef) :
    Run.Paired A B ((runBody A.pos body scope).perform (eval settings depth))
      ((runBody B.pos body scope).perform (eval settings depth)) := by
  rintro _ _ ⟨u, rfl, rfl⟩
  have hblind : ∀ lines, eval settings depth (.block body scope) (u.behind lines) =
      Ending.behind lines (eval settings depth (.block body scope) u) :=
    fun lines => blind_eval depth _ lines u
  unfold perform runBody
  rw [Step.play, Step.play, hblind, hblind]
  cases eval settings depth (.block body scope) u with
  | ok v t => exact .ok rfl ⟨t, rfl, rfl⟩
  | error stop t =>
    cases stop with
    | exhausted => exact .fault ⟨rfl, rfl⟩ ⟨t, rfl, rfl⟩
    | fault | outOfFuel | incomplete => exact .stop ⟨t, rfl, rfl⟩

/-- **A call with the right number of arguments** does the same from both places, but for the place
at which its exhaustion is reported. -/
theorem answers_apply (hargs : args.length = c.params.length) :
    ∀ depth, Run.Paired A B (eval settings depth (.apply A.pos (.function c) args))
      (eval settings depth (.apply B.pos (.function c) args))
  | 0 => .of_blind (.throw .exhausted)
  | depth + 1 => by
    change Run.Paired A B ((applyClosure settings A.pos c args).perform (eval settings depth))
      ((applyClosure settings B.pos c args).perform (eval settings depth))
    unfold applyClosure
    rw [if_neg (not_not_intro hargs), if_neg (not_not_intro hargs)]
    simp only [perform_bind, perform_lift]
    refine .bind (.of_blind (.trace 2 ?_)) fun _ => .bind (.of_blind (.enclose _)) fun scope => ?_
    · exact .bind (.mapM basic_inspect args) fun _ => .pure _
    refine .bind (.of_blind (built_bindAll _ _).blind) fun _ => .bind (paired_runBody _ _) fun v => ?_
    cases v with
    | returned => exact .of_blind (.pure _)
    | «break» | «continue» => exact .of_blind (.throw _)
    | _ => exact .of_blind (.pure _)

end Eval

/-! ## Scripts -/

/-- The steps hand out the same calls of `f` with `n` arguments from the two places, and they end
alike. -/
inductive Step.Lockstep {α β : Type} (A B : Form) (f : Value) (n : Nat) (V : α → β → Prop)
    (F : Fault → Fault → Prop) : Step α → Step β → Prop
  | done {ending : Ending α} {ending' : Ending β} (h : ending.Matches A B V F ending') :
      Lockstep A B f n V F (.done ending) (.done ending')
  | call {args : List Value} {s s' : State} {resume : Ending Value → Step α}
      {resume' : Ending Value → Step β} (hn : args.length = n) (hs : A.Twins B s s')
      (h : ∀ ending ending', ending.Answers A B ending' →
        Lockstep A B f n V F (resume ending) (resume' ending')) :
      Lockstep A B f n V F (.ask (.apply A.pos f args) s resume)
        (.ask (.apply B.pos f args) s' resume')

/-- From twin states the scripts go in lockstep. -/
def Script.Lockstep {α β : Type} (A B : Form) (f : Value) (n : Nat) (V : α → β → Prop)
    (F : Fault → Fault → Prop) (m : Script α) (m' : Script β) : Prop :=
  ∀ s s', A.Twins B s s' → Step.Lockstep A B f n V F (m s) (m' s')

variable {α β γ δ : Type} {f : Value} {n : Nat} {V : α → β → Prop} {W : γ → δ → Prop}
  {F : Fault → Fault → Prop}

namespace Step

theorem Lockstep.bind {m : Step α} {m' : Step β} {g : α → State → Step γ} {g' : β → State → Step δ}
    (hm : Lockstep A B f n V F m m')
    (hg : ∀ a b s s', V a b → A.Twins B s s' → Lockstep A B f n W F (g a s) (g' b s')) :
    Lockstep A B f n W F (m.bind g) (m'.bind g') := by
  induction hm with
  | done h =>
    cases h with
    | ok hv hs => exact hg _ _ _ _ hv hs
    | stop hs => exact .done (.stop hs)
    | fault hf hs => exact .done (.fault hf hs)
  | call hn hs _ ih => exact .call hn hs ih

/-- The starts and the ends of the tasks that the steps hand out. -/
def turns (go : Task → Run Value) (m : Step α) : List Moment :=
  m.history go fun t s => [.started t s, .finished t (go t s)]

/-- **Steps in lockstep, played.** They call in the same states, the calls end alike, and so do the
steps. -/
theorem Lockstep.play {go : Task → Run Value} {m : Step α} {m' : Step β}
    (hgo : ∀ args : List Value, args.length = n →
      Run.Paired A B (go (.apply A.pos f args)) (go (.apply B.pos f args)))
    (h : Lockstep A B f n V F m m') :
    List.Forall₂ (Moment.Matches A B f) (m.turns go) (m'.turns go) ∧
      Ending.Matches A B V F (m.play go) (m'.play go) := by
  induction h with
  | done h => exact ⟨.nil, h⟩
  | @call args s s' resume resume' hn hs _ ih =>
    have hends := hgo args hn s s' hs
    obtain ⟨hturns, hplay⟩ := ih _ _ hends
    exact ⟨.cons (.started args hs) (.cons (.finished args hends) hturns), hplay⟩

end Step

namespace Script.Lockstep

theorem pure {a : α} {b : β} (h : V a b) : Lockstep A B f n V F (Pure.pure a) (Pure.pure b) :=
  fun _ _ hs => .done (.ok h hs)

/-- What does not look at the trace. -/
theorem lift {m : Run α} (h : Run.Blind m) :
    Lockstep A B f n Eq F (liftM m : Script α) (liftM m : Script α) := by
  rintro _ _ ⟨u, rfl, rfl⟩
  rw [run_lift, run_lift, h A.lines u, h B.lines u]
  exact .done (Ending.matches_behind (m u))

theorem bind {m : Script α} {m' : Script β} {g : α → Script γ} {g' : β → Script δ}
    (hm : Lockstep A B f n V F m m') (hg : ∀ a b, V a b → Lockstep A B f n W F (g a) (g' b)) :
    Lockstep A B f n W F (m >>= g) (m' >>= g') :=
  fun s s' hs => (hm s s' hs).bind fun a b s s' hv hs => hg a b hv s s' hs

/-- Both scripts go on with what one run gives. -/
theorem lift_bind {m : Run α} (h : Run.Blind m) {g : α → Script γ} {g' : α → Script δ}
    (hg : ∀ a, Lockstep A B f n W F (g a) (g' a)) :
    Lockstep A B f n W F ((liftM m : Script α) >>= g) ((liftM m : Script α) >>= g') := by
  refine bind (lift h) fun a b hv => ?_
  cases hv
  exact hg a

/-- Both scripts go on with what comes of one call. -/
theorem call_bind {args : List Value} (hn : args.length = n)
    (hF : ∀ g g', A.Overflow B g g' → F g g') {g : Value → Script γ} {g' : Value → Script δ}
    (hg : ∀ v, Lockstep A B f n W F (g v) (g' v)) :
    Lockstep A B f n W F (ask (.apply A.pos f args) >>= g) (ask (.apply B.pos f args) >>= g') := by
  refine fun s s' hs => .call hn hs fun ending ending' hends => ?_
  cases hends with
  | ok hv hs =>
    cases hv
    exact hg _ _ _ hs
  | stop hs => exact .done (.stop hs)
  | fault hf hs => exact .done (.fault (hF _ _ hf) hs)

/-- The new arrays are one array, which comes from two places. -/
theorem newArray {V : Value → Value → Prop} {vs : Array Value} {p p' : Pos}
    (hV : ∀ r, V (.array r p) (.array r p')) :
    Lockstep A B f n V F (liftM (Run.newArray vs p)) (liftM (Run.newArray vs p')) := by
  rintro _ _ ⟨u, rfl, rfl⟩
  exact .done (.ok (hV _) ⟨{ u with store := (u.store.newArray vs).2 }, rfl, rfl⟩)

/-- **Walks over one array**, however it changes on the way. -/
theorem walk {r : ArrayRef} {visit visit' : α → Nat → Value → Script (ForInStep α)}
    (hvisit : ∀ b i v, Lockstep A B f n Eq F (visit b i v) (visit' b i v)) :
    ∀ fuel i b, Lockstep A B f n Eq F (Script.walk r visit fuel i b)
      (Script.walk r visit' fuel i b)
  | 0, _, _ => lift (.throw .outOfFuel)
  | fuel + 1, i, b => by
    refine lift_bind (basic_elements r).blind fun vs => ?_
    cases vs[i]? with
    | none => exact pure rfl
    | some v =>
      refine bind (hvisit b i v) fun step step' hstep => ?_
      cases hstep
      cases step with
      | done b => exact pure rfl
      | yield b => exact walk hvisit fuel (i + 1) b

end Script.Lockstep

end Vorn
