import Vorn.Proofs.Eval.Library

/-!
# Specifications of tasks

A specification says what a task needs of the state it starts in and what it promises about its
end, with or without a value (`TaskSpec`). A script meets it (`Step.Ensures`) if it hands out tasks
only where their need is met, and reaches its own promise from whatever they promise.

* `TaskSpec.Sound.eval`: if the script of each task meets the specification, then every task does,
  at every depth and through its whole history;
* `TaskSpec.Sound.program`: the same of the statements of a program.

Both ask for what a step relies on in the trees (`S` below) only of the tasks that are really
started, since a tree may be better than its type says.
-/

namespace Vorn

/-- What tasks need where they start, and what they promise where they end. -/
structure TaskSpec where
  Pre : Task → State → Prop
  Post : Task → State → Ending Value → Prop

/-- A started task satisfies `S`. -/
def Moment.Starts (S : Task → Prop) : Moment → Prop
  | started t _ => S t
  | finished _ _ => True

/-- At a start the need is met, and at an end the promise kept. -/
def TaskSpec.At (spec : TaskSpec) : Moment → Prop
  | .started t s => spec.Pre t s
  | .finished t ending => ∃ s, spec.Pre t s ∧ spec.Post t s ending

namespace Step

variable {α β : Type} {spec : TaskSpec} {post : Ending α → Prop}

/-- The steps hand out tasks where they may, and end with `post` whatever comes of the tasks. -/
def Ensures (spec : TaskSpec) (post : Ending α → Prop) : Step α → Prop
  | done ending => post ending
  | ask t s resume =>
    spec.Pre t s ∧ ∀ ending, spec.Post t s ending → (resume ending).Ensures spec post

namespace Ensures

theorem mono {post' : Ending α → Prop} (h : ∀ ending, post ending → post' ending) :
    ∀ {m : Step α}, m.Ensures spec post → m.Ensures spec post'
  | .done ending, hm => h ending hm
  | .ask _ _ _, ⟨hpre, hresume⟩ => ⟨hpre, fun ending hend => (hresume ending hend).mono h⟩

theorem bind {f : α → State → Step β} {post' : Ending β → Prop}
    (hf : ∀ a s, post (.ok a s) → (f a s).Ensures spec post')
    (hstop : ∀ stop s, post (.error stop s) → post' (.error stop s)) :
    ∀ {m : Step α}, m.Ensures spec post → (m.bind f).Ensures spec post'
  | .done (.ok a s), hm => hf a s hm
  | .done (.error stop s), hm => hstop stop s hm
  | .ask _ _ _, ⟨hpre, hresume⟩ => ⟨hpre, fun ending hend => (hresume ending hend).bind hf hstop⟩

/-- A play of the steps ends with `post`, if all that is handed out meets the specification. -/
theorem play {S : Task → Prop} {go : Task → Run Value} {tell : Task → State → List Moment}
    (hgo : ∀ t s, spec.Pre t s → (∀ m ∈ tell t s, m.Starts S) →
      spec.Post t s (go t s) ∧ ∀ m ∈ tell t s, spec.At m) :
    ∀ {m : Step α}, m.Ensures spec post → (∀ x ∈ m.history go tell, x.Starts S) →
      post (m.play go) ∧ ∀ x ∈ m.history go tell, spec.At x
  | .done _, hm, _ => ⟨hm, fun _ hx => nomatch hx⟩
  | .ask t s resume, ⟨hpre, hresume⟩, hstatic => by
    rw [history, List.forall_mem_append] at hstatic
    obtain ⟨hpost, hmoments⟩ := hgo t s hpre hstatic.1
    obtain ⟨hend, hrest⟩ := (hresume _ hpost).play hgo hstatic.2
    exact ⟨hend, List.forall_mem_append.mpr ⟨hmoments, hrest⟩⟩

end Ensures

end Step

namespace TaskSpec

variable {spec : TaskSpec} {settings : Settings} {S : Task → Prop}

/-- What a specification owes: the promise of a task that is nested too deeply, and the script of
each task. -/
structure Sound (spec : TaskSpec) (settings : Settings) (S : Task → Prop) : Prop where
  exhausted : ∀ t s, spec.Pre t s → spec.Post t s (.error .exhausted s)
  script : ∀ t s, S t → spec.Pre t s → (Eval.runTask settings t s).Ensures spec (spec.Post t s)

/-- **Every task meets the specification**, and so do all tasks inside it. -/
theorem Sound.eval (h : spec.Sound settings S) : ∀ depth t s, spec.Pre t s →
    (∀ m ∈ Eval.history settings depth t s, m.Starts S) →
    spec.Post t s (Eval.eval settings depth t s) ∧
      ∀ m ∈ Eval.history settings depth t s, spec.At m
  | 0, t, s, hpre, _ => by
    have hpost := h.exhausted t s hpre
    refine ⟨hpost, fun m hm => ?_⟩
    rw [Eval.history, List.mem_cons, List.mem_singleton] at hm
    rcases hm with rfl | rfl
    · exact hpre
    · exact ⟨s, hpre, hpost⟩
  | depth + 1, t, s, hpre, hstatic => by
    rw [Eval.history, List.forall_mem_cons, List.forall_mem_append] at hstatic
    obtain ⟨hself, hinner, -⟩ := hstatic
    obtain ⟨hpost, hmoments⟩ :=
      (h.script t s hself hpre).play (fun t s => h.eval depth t s) hinner
    refine ⟨hpost, ?_⟩
    rw [Eval.history, List.forall_mem_cons, List.forall_mem_append, List.forall_mem_singleton]
    exact ⟨hpre, hmoments, s, hpre, hpost⟩

/-- **The statements of a program end as their script does**, and all tasks in them meet the
specification. -/
theorem Sound.program (h : spec.Sound settings S) {p : Program} {s : State}
    {post : Ending Value → Prop}
    (hscript : (Eval.runTopLevel .null p.statements (Eval.opened settings p s)).Ensures spec post)
    (hstatic : ∀ m ∈ Eval.programHistory settings p s, m.Starts S) :
    post (Eval.ended settings p s) ∧ ∀ m ∈ Eval.programHistory settings p s, spec.At m :=
  hscript.play (fun t s => h.eval settings.depth t s) hstatic

end TaskSpec

/-! ## Outcomes -/

/-- The outcome of a program, from how its statements end. -/
theorem Session.run_eq (settings : Settings) (p : Program) (s : State) :
    run settings p s =
      match Eval.ended settings p s with
      | .ok v s' =>
        if 1 ≤ settings.traceLevel then
          match s'.store.inspect? v with
          | some text =>
            (.value v, { s' with trace := s'.trace.push ⟨1, "program finished: " ++ text⟩ })
          | none => (.cut .exhausted, s')
        else (.value v, s')
      | .error (.fault f) s' =>
        (.fault f, Run.traced settings 1 ("program finished: " ++ f.shown) s')
      | .error stop s' => (.cut stop, s') := by
  rw [run, Eval.runProgram_eq, Eval.ended, Eval.opened]
  generalize (Eval.runTopLevel .null p.statements).perform _ _ = ending
  match ending with
  | .ok v s' =>
    dsimp only
    rw [Run.run_bind, Run.run_trace_inspect settings 1 v ("program finished: " ++ ·)]
    by_cases hlevel : 1 ≤ settings.traceLevel
    · rw [if_pos hlevel, if_pos hlevel]
      cases s'.store.inspect? v <;> rfl
    · rw [if_neg hlevel, if_neg hlevel]
      rfl
  | .error (.fault f) s' => rfl
  | .error .exhausted s' | .error .outOfFuel s' | .error .incomplete s' => rfl

/-- What a program leaves is what its statements leave, but for the trace. -/
theorem Session.run_retraced (settings : Settings) (p : Program) (s : State) :
    ∃ lines, (run settings p s).2 = (Eval.ended settings p s).state.retraced lines := by
  rw [run_eq]
  match Eval.ended settings p s with
  | .ok v s' =>
    dsimp only
    split
    · split <;> exact ⟨_, rfl⟩
    · exact ⟨_, rfl⟩
  | .error (.fault f) s' =>
    dsimp only [Run.traced]
    split <;> exact ⟨_, rfl⟩
  | .error .exhausted s' | .error .outOfFuel s' | .error .incomplete s' => exact ⟨_, rfl⟩

/-- The last line of the trace does not touch the store, and a value is that of the statements. -/
theorem Eval.run_of_ended (settings : Settings) (p : Program) (s : State) :
    (Session.run settings p s).2.store = (ended settings p s).state.store ∧
      ∀ v, (Session.run settings p s).1 = .value v → ∃ s', ended settings p s = .ok v s' := by
  obtain ⟨lines, hlines⟩ := Session.run_retraced settings p s
  refine ⟨by rw [hlines]; rfl, fun u hu => ?_⟩
  rw [Session.run_eq] at hu
  match hend : ended settings p s with
  | .ok v s' =>
    rw [hend] at hu
    dsimp only at hu
    split at hu
    · split at hu <;> cases hu
      exact ⟨s', rfl⟩
    · cases hu
      exact ⟨s', rfl⟩
  | .error (.fault f) s' | .error .exhausted s' | .error .outOfFuel s' | .error .incomplete s' =>
    rw [hend] at hu
    cases hu

/-- A program that fails does so in its statements. -/
theorem Eval.ended_of_fault {settings : Settings} {p : Program} {s : State} {f : Fault}
    (h : (Session.run settings p s).1 = .fault f) :
    ∃ s', ended settings p s = .error (.fault f) s' := by
  rw [Session.run_eq] at h
  match hend : ended settings p s with
  | .error (.fault f') s' =>
    rw [hend] at h
    cases h
    exact ⟨s', rfl⟩
  | .ok v s' =>
    rw [hend] at h
    dsimp only at h
    split at h
    · split at h <;> cases h
    · cases h
  | .error .exhausted s' | .error .outOfFuel s' | .error .incomplete s' =>
    rw [hend] at h
    cases h

/-- A program that is cut off is so in its statements, or because its value cannot be shown in the
trace. -/
theorem Eval.ended_of_cut {settings : Settings} {p : Program} {s : State} {stop : Stop}
    (h : (Session.run settings p s).1 = .cut stop) :
    stop = .exhausted ∨ ∃ s', ended settings p s = .error stop s' := by
  rw [Session.run_eq] at h
  match hend : ended settings p s with
  | .ok v s' =>
    rw [hend] at h
    dsimp only at h
    split at h
    · split at h
      · cases h
      · cases h
        exact .inl rfl
    · cases h
  | .error (.fault f) s' =>
    rw [hend] at h
    cases h
  | .error .exhausted s' | .error .outOfFuel s' | .error .incomplete s' =>
    rw [hend] at h
    cases h
    exact .inr ⟨s', rfl⟩

end Vorn
