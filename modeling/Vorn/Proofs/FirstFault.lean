import Vorn.Proofs.Eval.History
import Vorn.Proofs.Eval.Strict

/-!
# The first fault ends everything

A fault that ends any task, however deep inside an evaluation, ends the whole evaluation: every
moment behind it is the end of a task with the same fault in the same state, and so is the end of
the evaluation itself. So nothing is printed, bound or changed any more. The step is
`Step.Strict.settled`, about one script; `Eval.settled_history` carries it through the nesting of
tasks, and `Eval.first_fault_wins` puts evaluations and programs together.
-/

namespace Vorn

/-- A task ends with the fault, in the state. -/
def Moment.FailsWith (f : Fault) (s : State) (m : Moment) : Prop :=
  ∃ t, m = .finished t (.error (.fault f) s)

/-- The fault that a task ends with. -/
def Moment.fault? : Moment → Option Fault
  | .finished _ (.error (.fault f) _) => some f
  | _ => none

theorem Moment.exists_failsWith {f : Fault} {m : Moment} (h : m.fault? = some f) :
    ∃ s, m.FailsWith f s := by
  unfold fault? at h
  split at h
  · cases h
    exact ⟨_, _, rfl⟩
  · cases h

/-- A fault among the moments is the ending, and nothing but the same fault comes behind it. -/
structure Settled {α : Type} (ms : List Moment) (ending : Ending α) : Prop where
  ends : ∀ m ∈ ms, ∀ f s, m.FailsWith f s → ending = .error (.fault f) s
  last : ms.Pairwise fun m m' => ∀ f s, m.FailsWith f s → m'.FailsWith f s

theorem Moment.not_failsWith_started {t : Task} {s s' : State} {f : Fault} :
    ¬ (Moment.started t s).FailsWith f s' := by
  rintro ⟨_, h⟩
  cases h

namespace Settled

variable {α β : Type}

theorem nil {ending : Ending α} : Settled [] ending := ⟨by simp, .nil⟩

/-- Behind moments that led to a value anything may follow. -/
theorem append {ms ms' : List Moment} {a : α} {s : State} {ending : Ending β}
    (h : Settled ms (.ok a s : Ending α)) (h' : Settled ms' ending) :
    Settled (ms ++ ms') ending := by
  have hnone : ∀ m ∈ ms, ∀ f s, ¬ m.FailsWith f s := by
    intro m hm f s hf
    cases h.ends m hm f s hf
  refine ⟨fun m hm f s hf => ?_, List.pairwise_append.mpr ⟨h.last, h'.last, ?_⟩⟩
  · rcases List.mem_append.mp hm with hm | hm
    · exact absurd hf (hnone m hm f s)
    · exact h'.ends m hm f s hf
  · intro m hm _ _ f s hf
    exact absurd hf (hnone m hm f s)

/-- The start of a task in front and its end behind. -/
theorem around {ms : List Moment} {t : Task} {s : State} {ending : Ending Value}
    (h : Settled ms ending) : Settled (.started t s :: (ms ++ [.finished t ending])) ending := by
  refine ⟨fun m hm f s hf => ?_, List.Pairwise.cons ?_ (List.pairwise_append.mpr
    ⟨h.last, List.pairwise_singleton _ _, ?_⟩)⟩
  · simp only [List.mem_cons, List.mem_append, List.not_mem_nil, or_false] at hm
    rcases hm with rfl | hm | rfl
    · exact absurd hf Moment.not_failsWith_started
    · exact h.ends m hm f s hf
    · obtain ⟨_, hf⟩ := hf
      cases hf
      rfl
  · exact fun _ _ _ _ hf => absurd hf Moment.not_failsWith_started
  · intro m hm m' hm' f s hf
    rw [List.mem_singleton.mp hm', h.ends m hm f s hf]
    exact ⟨t, rfl⟩

/-- The moments split at a fault: what is behind it, and how everything ends. -/
theorem split {before behind : List Moment} {t : Task} {f : Fault} {s : State} {ending : Ending α}
    (h : Settled (before ++ .finished t (.error (.fault f) s) :: behind) ending) :
    ending = .error (.fault f) s ∧ ∀ m ∈ behind, m.FailsWith f s := by
  refine ⟨h.ends _ (by simp) f s ⟨t, rfl⟩, fun m hm => ?_⟩
  have hpair := (List.pairwise_append.mp h.last).2.1
  exact List.rel_of_pairwise_cons hpair hm f s ⟨t, rfl⟩

end Settled

/-- A fault in the moments of a strict script is how the script ends. -/
theorem Step.Strict.settled {α : Type} {go : Task → Run Value}
    {tell : Task → State → List Moment} (htell : ∀ t s, Settled (tell t s) (go t s)) :
    ∀ {m : Step α}, m.Strict → Settled (m.history go tell) (m.play go)
  | .done _, _ => .nil
  | .ask t s resume, ⟨hstop, hok⟩ => by
    have ht := htell t s
    rw [Step.history, Step.play]
    cases hgo : go t s with
    | ok v s' =>
      rw [hgo] at ht
      exact ht.append ((hok v s').settled htell)
    | error stop s' =>
      rw [hgo] at ht
      obtain ⟨stop', hresume, hfault⟩ := hstop stop s'
      rw [hresume, Step.history, Step.play, List.append_nil]
      refine ⟨fun m hm f s hf => ?_, ht.last⟩
      have hend := ht.ends m hm f s hf
      injection hend with hstop hs
      rw [hfault f hstop, hs]

namespace Eval

variable (settings : Settings)

/-- **A fault in the moments of a task is how the task ends.** -/
theorem settled_history :
    ∀ depth t s, Settled (history settings depth t s) (eval settings depth t s)
  | 0, _, _ => Settled.around .nil
  | depth + 1, t, s =>
    Settled.around ((strict_runTask t s).settled fun t s => settled_history depth t s)

theorem settled_programHistory (p : Program) (s : State) :
    Settled (programHistory settings p s)
      ((runTopLevel .null p.statements).perform (eval settings settings.depth)
        (opened settings p s)) :=
  (strict_runTopLevel _).settled fun t s => settled_history settings settings.depth t s

/-- The first fault ends everything: wherever a task inside an evaluation ends with a fault, the
evaluation ends with this fault in the same state, and from then on tasks only end, all with
it. The same holds of a program, which still notes its end in the trace. -/
theorem first_fault_wins :
    (∀ depth t s before t' f s' behind,
      history settings depth t s = before ++ .finished t' (.error (.fault f) s') :: behind →
        eval settings depth t s = .error (.fault f) s' ∧ ∀ m ∈ behind, m.FailsWith f s') ∧
    ∀ p s before t' f s' behind,
      programHistory settings p s = before ++ .finished t' (.error (.fault f) s') :: behind →
        Session.run settings p s =
          (.fault f, Run.traced settings 1 ("program finished: " ++ f.shown) s') ∧
        ∀ m ∈ behind, m.FailsWith f s' := by
  refine ⟨fun depth t s before t' f s' behind h => ?_, fun p s before t' f s' behind h => ?_⟩
  · have hsettled := settled_history settings depth t s
    rw [h] at hsettled
    exact hsettled.split
  · have hsettled := settled_programHistory settings p s
    rw [h] at hsettled
    obtain ⟨hend, hbehind⟩ := hsettled.split
    unfold opened at hend
    exact ⟨by rw [Session.run, runProgram_eq, hend], hbehind⟩

/-- The first fault that a task ends with. -/
theorem exists_split (ms : List Moment) (text : String)
    (h : (ms.findSome? Moment.fault?).map Fault.shown = some text) :
    ∃ before t f s behind,
      ms = before ++ .finished t (.error (.fault f) s) :: behind ∧ f.shown = text := by
  obtain ⟨f, hf, rfl⟩ := Option.map_eq_some_iff.mp h
  obtain ⟨before, m, behind, rfl, hm, -⟩ := List.findSome?_eq_some_iff.mp hf
  match m, hm with
  | .finished t (.error (.fault f) s), rfl => exact ⟨before, t, f, s, behind, rfl, rfl⟩

/-- `[1].map(func(x) { return x + true; })`, whose callback is at fault. -/
def faultyCallback : Expr :=
  .method ⟨1, 6⟩ (.array ⟨1, 2⟩ [.int ⟨1, 3⟩ "1" 1]) ⟨1, 6⟩ "map" ⟨1, 9⟩
    [.func ⟨1, 10⟩ ["x"] (.mk ⟨1, 18⟩
      [.return ⟨1, 20⟩
        (some (.binary ⟨1, 29⟩ .add (.ident ⟨1, 27⟩ "x") (.bool ⟨1, 31⟩ true)))])]

/-- The fault of the callback is the fault of the expression and of the program around it. -/
theorem first_fault_wins_callback :
    (∃ before t f s behind,
      history {} 9 (.expr faultyCallback Scopes.root) {} =
        before ++ .finished t (.error (.fault f) s) :: behind ∧
      f.shown = "ERROR: [1:29] type mismatch: INTEGER + BOOLEAN" ∧
      eval {} 9 (.expr faultyCallback Scopes.root) {} = .error (.fault f) s) ∧
    ∃ before t f s behind,
      programHistory { depth := 9 } ⟨[.expr ⟨1, 2⟩ "[" faultyCallback]⟩ {} =
        before ++ .finished t (.error (.fault f) s) :: behind ∧
      f.shown = "ERROR: [1:29] type mismatch: INTEGER + BOOLEAN" ∧
      (Session.run { depth := 9 } ⟨[.expr ⟨1, 2⟩ "[" faultyCallback]⟩ {}).1 = .fault f := by
  constructor
  · obtain ⟨before, t, f, s, behind, h, hf⟩ := exists_split
      (history {} 9 (.expr faultyCallback Scopes.root) {})
      "ERROR: [1:29] type mismatch: INTEGER + BOOLEAN" (by decide +kernel)
    exact ⟨_, _, _, _, _, h, hf, ((first_fault_wins {}).1 _ _ _ _ _ _ _ _ h).1⟩
  · obtain ⟨before, t, f, s, behind, h, hf⟩ := exists_split
      (programHistory { depth := 9 } ⟨[.expr ⟨1, 2⟩ "[" faultyCallback]⟩ {})
      "ERROR: [1:29] type mismatch: INTEGER + BOOLEAN" (by decide +kernel)
    exact ⟨_, _, _, _, _, h, hf,
      congrArg Prod.fst ((first_fault_wins { depth := 9 }).2 _ _ _ _ _ _ _ h).1⟩

end Eval

end Vorn
