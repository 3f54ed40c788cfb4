import Vorn.Proofs.Eval.History
import Vorn.Proofs.Eval.Built
import Vorn.Proofs.Eval.Spec

/-!
# What scripts do between tasks

A drift is a way for states to change that can be gone on in. The steps of a script drift
(`Step.Drifts`) if they change the state in that way only, from the start to the first task, from
the end of a task to the next one, and to their end; what happens inside the tasks is not theirs.

* `Script.Library.drifts`, library scripts drift as their basic runs do;
* `Session.chain`, if a drift admits all that scripts do (`Drift.Natural`), then each state of a
  session leads to every later one.
-/

namespace Vorn

/-- A way for states to change. -/
structure Drift where
  Leads : State → State → Prop
  refl : ∀ s, Leads s s
  trans : ∀ {s t u}, Leads s t → Leads t u → Leads s u

/-- The drift admits all that scripts do between tasks. -/
structure Drift.Natural (D : Drift) : Prop where
  basic : ∀ {α : Type} {m : Run α}, Run.Basic .changing m → ∀ s, D.Leads s (Ending.state (m s))
  scopes : ∀ s scopes, D.Leads s { s with store := { s.store with scopes } }
  trace : ∀ s tr, D.Leads s (s.retraced tr)

/-- A task that calls a value that `C` holds of. -/
def Task.Calls (C : Value → Prop) : Task → Prop
  | .apply _ f _ => C f
  | _ => False

theorem Task.Calls.mono {C C' : Value → Prop} (h : ∀ f, C f → C' f) :
    ∀ t : Task, t.Calls C → t.Calls C'
  | .apply _ f _, ht => h f ht

/-! ## Steps -/

namespace Step

variable {α β : Type} {D : Drift} {T : Task → Prop}

/-- From a state on, the steps change it as `D` does and hand out tasks that `T` holds of. After a
task they go on from where it ended. -/
def Drifts (D : Drift) (T : Task → Prop) : State → Step α → Prop
  | base, done ending => D.Leads base ending.state
  | base, ask t s resume =>
    T t ∧ D.Leads base s ∧ ∀ ending : Ending Value, (resume ending).Drifts D T ending.state

namespace Drifts

theorem of_leads {base s : State} (h : D.Leads base s) :
    ∀ {m : Step α}, m.Drifts D T s → m.Drifts D T base
  | .done _, hm => D.trans h hm
  | .ask _ _ _, ⟨ht, hs, hresume⟩ => ⟨ht, D.trans h hs, hresume⟩

theorem mono {T' : Task → Prop} (h : ∀ t, T t → T' t) :
    ∀ {m : Step α} {base : State}, m.Drifts D T base → m.Drifts D T' base
  | .done _, _, hm => hm
  | .ask _ _ _, _, ⟨ht, hs, hresume⟩ => ⟨h _ ht, hs, fun ending => (hresume ending).mono h⟩

theorem bind {f : α → State → Step β} (hf : ∀ a s, (f a s).Drifts D T s) :
    ∀ {m : Step α} {base : State}, m.Drifts D T base → (m.bind f).Drifts D T base
  | .done (.ok a s), _, hm => (hf a s).of_leads hm
  | .done (.error _ _), _, hm => hm
  | .ask _ _ _, _, ⟨ht, hs, hresume⟩ => ⟨ht, hs, fun ending => (hresume ending).bind hf⟩

end Drifts

end Step

namespace Script

variable {α β : Type} {D : Drift} {T : Task → Prop}

/-- From any state on, the script drifts. -/
def Drifts (D : Drift) (T : Task → Prop) (m : Script α) : Prop := ∀ s, (m s).Drifts D T s

theorem Drifts.bind {m : Script α} {f : α → Script β} (hm : m.Drifts D T)
    (hf : ∀ a, (f a).Drifts D T) : (m >>= f).Drifts D T :=
  fun s => (hm s).bind hf

/-- A library script drifts as its basic runs do, and its tasks are calls. -/
theorem Library.drifts {k : Reach} {C : Value → Prop} {m : Script α}
    (hrun : ∀ {β : Type} {m : Run β}, Run.Basic k m → ∀ s, D.Leads s (Ending.state (m s)))
    (h : Library k C m) : m.Drifts D (Task.Calls C) := by
  induction h with
  | pure a => exact D.refl
  | lift h => exact hrun h
  | call h pos args => exact fun s => ⟨h, D.refl s, fun ending => D.refl _⟩
  | bind _ _ ihm ihf => exact .bind ihm ihf
  | @lift_bind _ _ m f hm _ ihf =>
    intro s
    have hs := hrun hm s
    rw [run_bind, run_lift]
    cases hend : m s with
    | error stop s' =>
      rw [hend] at hs
      exact hs
    | ok a s' =>
      rw [hend] at hs
      exact (ihf a s s' hend s').of_leads hs

end Script

/-! ## All scripts -/

namespace Drift.Natural

variable {α : Type} {D : Drift} (hD : D.Natural)
include hD

theorem run {m : Run α} (h : Run.Built m) (s : State) : D.Leads s (Ending.state (m s)) := by
  induction h generalizing s with
  | basic h => exact hD.basic h s
  | throw => exact D.refl s
  | enclose r => exact hD.scopes s _
  | bindName r name v => exact hD.scopes s _
  | @trace settings level line h =>
    unfold Run.trace
    split
    · have hline := hD.basic h.changing s
      rw [Run.run_bind]
      cases hrun : line s with
      | error stop s' =>
        rw [hrun] at hline
        exact hline
      | ok text s' =>
        rw [hrun] at hline
        exact D.trans hline (hD.trace s' _)
    · exact D.refl s
  | @bind _ _ m f _ _ ihm ihf =>
    have hm := ihm s
    rw [Run.run_bind]
    cases hrun : m s with
    | error stop s' =>
      rw [hrun] at hm
      exact hm
    | ok a s' =>
      rw [hrun] at hm
      exact D.trans hm (ihf a s')

theorem script {m : Script α} (h : Script.Built m) : m.Drifts D fun _ => True := by
  induction h with
  | pure a => exact D.refl
  | run h => exact hD.run h
  | ask t => exact fun s => ⟨trivial, D.refl s, fun ending => D.refl _⟩
  | body pos b scope =>
    refine fun s => ⟨trivial, D.refl s, fun ending => ?_⟩
    match ending with
    | .ok v s' => exact D.refl s'
    | .error .exhausted s' => exact D.refl s'
    | .error (.fault f) s' | .error .outOfFuel s' | .error .incomplete s' => exact D.refl s'
  | bind _ _ ihm ihf => exact .bind ihm ihf
  | @run_bind _ _ m f hm _ ihf =>
    intro s
    have hs := hD.run hm s
    rw [Script.run_bind, Script.run_lift]
    cases hend : m s with
    | error stop s' =>
      rw [hend] at hs
      exact hs
    | ok a s' =>
      rw [hend] at hs
      exact (ihf a s s' hend s').of_leads hs

end Drift.Natural

/-! ## Histories -/

namespace Drift

variable {D : Drift} {s t u : State} {ss ts : List State}

/-- From `s` through the states of the list to `t`, each leads to all that come later. -/
def Chain (D : Drift) (s : State) (ss : List State) (t : State) : Prop :=
  (s :: ss ++ [t]).Pairwise D.Leads

theorem Chain.single (h : D.Leads s t) : D.Chain s [] t := by simpa [Chain] using h

theorem Chain.cons (h : D.Leads s t) (hss : D.Chain t ss u) : D.Chain s (t :: ss) u := by
  refine List.pairwise_cons.mpr ⟨fun x hx => ?_, hss⟩
  rcases List.mem_cons.mp hx with rfl | hx
  · exact h
  · exact D.trans h (List.rel_of_pairwise_cons hss hx)

theorem Chain.append (h : D.Chain s ss t) (h' : D.Chain t ts u) : D.Chain s (ss ++ ts) u := by
  obtain ⟨hss, -, hlast⟩ := List.pairwise_append.mp h
  obtain ⟨hfirst, hts⟩ := List.pairwise_cons.mp h'
  unfold Chain
  rw [← List.cons_append, List.append_assoc]
  refine List.pairwise_append.mpr ⟨hss, hts, fun x hx y hy => ?_⟩
  exact D.trans (hlast x hx t (by simp)) (hfirst y hy)

end Drift

/-- The states of the moments of drifting steps are a chain, if those of each task are. -/
theorem Step.Drifts.chain {α : Type} {D : Drift} {T : Task → Prop} {go : Task → Run Value}
    {tell : Task → State → List Moment}
    (hgo : ∀ t s, D.Chain s ((tell t s).map (·.state)) (Ending.state (go t s))) :
    ∀ {m : Step α} {base : State}, m.Drifts D T base →
      D.Chain base ((m.history go tell).map (·.state)) (Ending.state (m.play go))
  | .done _, _, hm => .single hm
  | .ask t s resume, _, ⟨_, hs, hresume⟩ => by
    rw [history, List.map_append]
    have htask := hgo t s
    have hrest := (hresume (go t s)).chain hgo
    exact (Drift.Chain.single hs).append (htask.append hrest)

namespace Drift.Natural

variable {D : Drift} (hD : D.Natural) (settings : Settings)
include hD

theorem chain_eval : ∀ depth t s,
    D.Chain s ((Eval.history settings depth t s).map (·.state))
      (Ending.state (Eval.eval settings depth t s))
  | 0, _, s => .cons (D.refl s) (.cons (D.refl s) (.single (D.refl s)))
  | depth + 1, t, s => by
    have hinner := (hD.script (@Eval.built_runTask settings t) s).chain (chain_eval depth)
    rw [Eval.history, List.map_cons, List.map_append]
    refine .cons (D.refl s) (hinner.append ?_)
    exact .cons (D.refl _) (.single (D.refl _))

/-- The state in which a program starts leads on to its statements. -/
theorem leads_opened (p : Program) (s : State) : D.Leads s (Eval.opened settings p s) := by
  unfold Eval.opened Run.traced
  split
  · exact hD.trace s _
  · exact D.refl s

theorem leads_run (p : Program) (s : State) :
    D.Leads (Ending.state (Eval.ended settings p s)) (Session.run settings p s).2 := by
  obtain ⟨lines, hlines⟩ := Session.run_retraced settings p s
  rw [hlines]
  exact hD.trace _ lines

theorem chain_program (p : Program) (s : State) :
    D.Chain s ((Eval.programHistory settings p s).map (·.state)) (Session.run settings p s).2 := by
  have hstatements :=
    (hD.script (Eval.built_runTopLevel .null p.statements) (Eval.opened settings p s)).chain
      (hD.chain_eval settings settings.depth)
  have hopened := Chain.single (hD.leads_opened settings p s)
  have hclosed := Chain.single (hD.leads_run settings p s)
  have hall := hopened.append (hstatements.append hclosed)
  rwa [List.nil_append, List.append_nil] at hall

/-- **What all scripts do leads on**: in a session each state, at the start, at a moment, or at the
end, leads to every later one. -/
theorem chain_session : ∀ sources s,
    D.Chain s ((Session.history settings sources s).map (·.state))
      (Session.after settings sources s)
  | [], s => .single (D.refl s)
  | source :: rest, s => by
    have hstep : D.Chain s ((Session.moments settings source s).map (·.state))
        (Session.step settings source s).2 := by
      unfold Session.moments Session.step
      cases parse? source with
      | error errors => exact .single (D.refl s)
      | ok p => exact hD.chain_program settings p s
    rw [Session.history, List.map_append]
    exact hstep.append (chain_session rest _)

end Drift.Natural

end Vorn
