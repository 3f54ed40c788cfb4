import Vorn.Proofs.Eval.Frame
import Vorn.Proofs.Eval.Program
import Vorn.Proofs.IntegerRange

/-!
# Names come from declarations only

Evaluating anything but a declaration leaves the names of all scopes alone; a declaration adds its
own name to its own scope if it gives a value, and no name if it fails (`Eval.frame_eval`). For a
session this means that the names of the root scope only grow, and that they are those of the
declarations at the top level that were done (`Session.globals_eq_declared`).
-/

namespace Vorn

/-! ## Tasks -/

/-- Every reason to stop. -/
def Reasons.all : Reasons where
  Allows _ := True
  common _ := trivial

namespace Eval

variable {settings : Settings}

/-- **The frame of every task**: what it does to the names of scopes is settled by its form, at
every depth and however it ends. -/
theorem frame_eval (settings : Settings) (depth : Nat) (t : Task) (s : State) :
    t.Frame settings s (eval settings depth t s) := by
  have hfit : ∀ t : Task, t.Fit .all := fun _ => ⟨fun _ => trivial, .inr fun _ => trivial⟩
  have hpre : (names settings .all).Pre t s := .inr fun _ => trivial
  refine (sound_names.eval depth t s hpre fun m _ => ?_).1.1
  cases m with
  | started t s => exact hfit t
  | finished => trivial

/-- A task that fails adds no name anywhere. -/
theorem extends_of_fault {depth : Nat} {t : Task} {s s' : State} {f : Fault}
    (h : eval settings depth t s = .error (.fault f) s') :
    s.store.scopes.Extends s'.store.scopes := by
  rcases (frame_eval settings depth t s).stopped _ _ h with hext | ⟨_, _, _, hstop, _⟩
  · exact hext
  · cases hstop

end Eval

/-! ## Declarations in the root scope -/

/-- The task has bound the name in the root scope. It may have been cut off behind the binding,
while it wrote its line of the trace. -/
def Task.Declared (settings : Settings) (name : String) (t : Task) (ending : Ending Value) :
    Prop :=
  t.binding? = some (name, Scopes.root) ∧
    ((∃ v s, ending = .ok v s) ∨
      2 ≤ settings.traceLevel ∧ ∃ s, ending = .error .exhausted s ∧
        s.store.scopes.contains Scopes.root name = true)

/-- The root scope binds the name behind a task if it did so before, or if the task declared it. -/
theorem Task.Frame.contains_root_iff {settings : Settings} {t : Task} {s : State}
    {ending : Ending Value} (h : t.Frame settings s ending)
    (hroot : Scopes.root.index < s.store.scopes.size) (x : String) :
    ending.state.store.scopes.contains Scopes.root x = true ↔
      s.store.scopes.contains Scopes.root x = true ∨ t.Declared settings x ending := by
  cases ending with
  | ok v s' =>
    cases hbind : t.binding? with
    | none =>
      rw [(h.other hbind).contains_iff _ x hroot]
      simp [Declared, hbind]
    | some binding =>
      obtain ⟨name, r⟩ := binding
      obtain ⟨-, -, hdeclares⟩ := h.bound name r v s' hbind rfl
      refine (hdeclares.contains_iff _ x hroot).trans (or_congr_right ?_)
      constructor
      · rintro ⟨rfl, rfl⟩
        exact ⟨hbind, .inl ⟨v, s', rfl⟩⟩
      · rintro ⟨hbind', -⟩
        rw [hbind] at hbind'
        cases hbind'
        exact ⟨rfl, rfl⟩
  | error stop s' =>
    constructor
    · intro hx
      rcases h.stopped stop s' rfl with hext | ⟨name, r, hbind, rfl, hlevel, hdeclares⟩
      · exact .inl ((hext.contains_iff _ x hroot).mp hx)
      · rcases (hdeclares.contains_iff _ x hroot).mp hx with hx' | ⟨rfl, rfl⟩
        · exact .inl hx'
        · exact .inr ⟨hbind, .inr ⟨hlevel, s', rfl, hx⟩⟩
    · rintro (hx | ⟨-, ⟨v, s'', hend⟩ | ⟨-, s'', hend, hx⟩⟩)
      · rcases h.effect with hext | ⟨name, r, -, hdeclares⟩
        · exact (hext.contains_iff _ x hroot).mpr hx
        · exact (hdeclares.contains_iff _ x hroot).mpr (.inl hx)
      · cases hend
      · cases hend
        exact hx

/-! ## The top level -/

namespace Step

variable {α : Type} {go : Task → Run Value}

/-- The tasks that the steps themselves hand out, each with its end. -/
def asked (go : Task → Run Value) : Step α → List (Task × Ending Value)
  | done _ => []
  | ask t s resume => (t, go t s) :: (resume (go t s)).asked go

/-- The steps leave the state to the tasks that they hand out, end with a task that stops, and stop
by themselves for faults only. -/
def Relays : State → Step α → Prop
  | s, done (.ok _ s') => s' = s
  | s, done (.error stop s') => s' = s ∧ ∃ f, stop = .fault f
  | s, ask _ s' resume => s' = s ∧ (∀ v s', (resume (.ok v s')).Relays s') ∧
      ∀ stop s', resume (.error stop s') = done (.error stop s')

/-- The root scope binds what it did before and what was declared since. -/
theorem Relays.contains_root_iff {settings : Settings} {depth : Nat} (x : String) :
    ∀ {m : Step α} {s : State}, m.Relays s → Scopes.root.index < s.store.scopes.size →
      ((Ending.state (m.play (Eval.eval settings depth))).store.scopes.contains Scopes.root x = true ↔
        s.store.scopes.contains Scopes.root x = true ∨
          ∃ p ∈ m.asked (Eval.eval settings depth), p.1.Declared settings x p.2)
  | .done (.ok _ _), _, rfl, _ => by simp [play, asked, Ending.state]
  | .done (.error _ _), _, ⟨rfl, _⟩, _ => by simp [play, asked, Ending.state]
  | .ask t s resume, _, ⟨rfl, hok, hstop⟩, hroot => by
    have hframe := Eval.frame_eval settings depth t s
    have htask := hframe.contains_root_iff hroot x
    rw [play, asked]
    simp only [List.mem_cons, exists_eq_or_imp, ← or_assoc]
    rw [← htask]
    cases hend : Eval.eval settings depth t s with
    | error stop s' =>
      rw [hstop]
      simp [play, asked, Ending.state]
    | ok v s' =>
      have hsize := hframe.size_le
      rw [hend] at hsize
      exact (hok v s').contains_root_iff x (Nat.lt_of_lt_of_le hroot hsize)

theorem Relays.size_le {settings : Settings} {depth : Nat} : ∀ {m : Step α} {s : State},
    m.Relays s →
      s.store.scopes.size ≤ (Ending.state (m.play (Eval.eval settings depth))).store.scopes.size
  | .done (.ok _ _), _, rfl => Nat.le_refl _
  | .done (.error _ _), _, ⟨rfl, _⟩ => Nat.le_refl _
  | .ask t s resume, _, ⟨rfl, hok, hstop⟩ => by
    have hsize := (Eval.frame_eval settings depth t s).size_le
    rw [play]
    cases hend : Eval.eval settings depth t s with
    | error stop s' =>
      rw [hend] at hsize
      rw [hstop]
      exact hsize
    | ok v s' =>
      rw [hend] at hsize
      exact Nat.le_trans hsize (hok v s').size_le

/-- A task that stops ends the steps. -/
theorem Relays.play_eq_of_stopped {t : Task} {stop : Stop} {s' : State} :
    ∀ {m : Step α} {s : State}, m.Relays s → (t, .error stop s') ∈ m.asked go →
      m.play go = .error stop s'
  | .done _, _, _, h => nomatch h
  | .ask t' s resume, _, ⟨_, hok, hstop⟩, h => by
    rw [asked, List.mem_cons] at h
    rw [play]
    cases hend : go t' s with
    | error stop' s'' =>
      rw [hend, hstop] at h
      rw [hstop]
      rcases h with h | h
      · cases h
        rfl
      · cases h
    | ok v s'' =>
      rw [hend] at h
      rcases h with h | h
      · cases h
      · exact (hok v s'').play_eq_of_stopped h

end Step

namespace Eval

variable {settings : Settings}

theorem relays_runTopLevel {ss : List Stmt} : ∀ {last : Value} {s : State},
    (runTopLevel last ss s).Relays s := by
  induction ss with
  | nil => exact rfl
  | cons st ss ih =>
    refine ⟨rfl, fun v s' => ?_, fun _ _ => rfl⟩
    cases v with
    | returned => exact rfl
    | «break» => exact ⟨rfl, _, rfl⟩
    | «continue» => exact ⟨rfl, _, rfl⟩
    | _ => exact ih

/-- The statements of a program that were run, each with its end. -/
def topLevel (settings : Settings) (p : Program) (s : State) : List (Task × Ending Value) :=
  (runTopLevel .null p.statements (opened settings p s)).asked (eval settings settings.depth)

/-- What a program leaves in the root scope. -/
theorem contains_root_program_iff (p : Program) {s : State}
    (hroot : Scopes.root.index < s.store.scopes.size) (x : String) :
    (Session.run settings p s).2.store.scopes.contains Scopes.root x = true ↔
      s.store.scopes.contains Scopes.root x = true ∨
        ∃ d ∈ topLevel settings p s, d.1.Declared settings x d.2 := by
  have hopened : (opened settings p s).store = s.store := Run.traced_store ..
  rw [(run_of_ended settings p s).1, ← hopened]
  exact relays_runTopLevel.contains_root_iff x (by rw [hopened]; exact hroot)

theorem size_le_program (p : Program) (s : State) :
    s.store.scopes.size ≤ (Session.run settings p s).2.store.scopes.size := by
  have hopened : (opened settings p s).store = s.store := Run.traced_store ..
  rw [(run_of_ended settings p s).1, ← hopened]
  exact relays_runTopLevel.size_le

/-- A statement that is cut off at the top level cuts off the program. -/
theorem run_eq_cut {p : Program} {s s' : State} {t : Task}
    (h : (t, .error .exhausted s') ∈ topLevel settings p s) :
    (Session.run settings p s).1 = .cut .exhausted := by
  have hended : ended settings p s = .error .exhausted s' :=
    relays_runTopLevel.play_eq_of_stopped h
  rw [Session.run_eq, hended]

end Eval

/-! ## Sessions -/

theorem exists_stmt_of_binding {t : Task} {name : String} {r : ScopeRef}
    (h : t.binding? = some (name, r)) : ∃ st, t = .stmt st r ∧ st.binds? = some name := by
  cases t with
  | stmt st r' =>
    obtain ⟨x, hx, hpair⟩ := Option.map_eq_some_iff.mp h
    cases hpair
    exact ⟨st, rfl, hx⟩
  | _ => cases h

/-- The run was cut off. -/
def Answer.isCut : Answer → Bool
  | .ran (.cut _) => true
  | _ => false

theorem Scopes.mem_names_iff {α : Type} (sc : Scopes α) (r : ScopeRef) (x : String) :
    x ∈ sc.names r ↔ sc.contains r x = true := by
  unfold names contains getLocal?
  cases sc.cells[r.index]? with
  | none => simp
  | some cell => simp [Scope.find?, List.lookup_isSome_iff]

namespace Session

variable {settings : Settings}

theorem mem_globals_iff (s : State) (x : String) :
    x ∈ globals s ↔ s.store.scopes.contains Scopes.root x = true := by
  rw [globals, List.mem_mergeSort, Scopes.mem_names_iff]

/-- The statements at the top level of source texts that were run, each with its end. -/
def topLevel (settings : Settings) : List String → State → List (Task × Ending Value)
  | [], _ => []
  | source :: rest, s =>
    (match parse? source with
      | .error _ => []
      | .ok p => Eval.topLevel settings p s) ++ topLevel settings rest (step settings source s).2

theorem size_le_step (source : String) (s : State) :
    s.store.scopes.size ≤ (step settings source s).2.store.scopes.size := by
  unfold step
  cases parse? source with
  | error errors => exact Nat.le_refl _
  | ok p => exact Eval.size_le_program p s

/-- What source texts leave in the root scope. -/
theorem contains_root_after_iff (sources : List String) (x : String) : ∀ {s : State},
    Scopes.root.index < s.store.scopes.size →
      ((after settings sources s).store.scopes.contains Scopes.root x = true ↔
        s.store.scopes.contains Scopes.root x = true ∨
          ∃ d ∈ topLevel settings sources s, d.1.Declared settings x d.2) := by
  induction sources with
  | nil => simp [after, topLevel]
  | cons source rest ih =>
    intro s hroot
    have hrest := @ih (step settings source s).2 (Nat.lt_of_lt_of_le hroot (size_le_step source s))
    have hfirst : (step settings source s).2.store.scopes.contains Scopes.root x = true ↔
        s.store.scopes.contains Scopes.root x = true ∨
          ∃ d ∈ (match parse? source with
            | .error _ => []
            | .ok p => Eval.topLevel settings p s), d.1.Declared settings x d.2 := by
      unfold step
      cases parse? source with
      | error errors => simp
      | ok p => exact Eval.contains_root_program_iff p hroot x
    rw [after, List.foldl_cons, ← after, hrest, hfirst, topLevel]
    simp only [List.mem_append, or_and_right, exists_or, or_assoc]

/-- Whatever was cut off at the top level shows in an answer. -/
theorem exists_cut_answer {sources : List String} {t : Task} {s' : State} : ∀ {s : State},
    (t, .error .exhausted s') ∈ topLevel settings sources s →
      ∃ a ∈ answers settings sources s, a.1.isCut = true := by
  induction sources with
  | nil => exact fun h => nomatch h
  | cons source rest ih =>
    intro s h
    rw [topLevel, List.mem_append] at h
    rw [answers]
    rcases h with h | h
    · refine ⟨_, List.mem_cons_self, ?_⟩
      unfold step
      cases hparse : parse? source with
      | error errors =>
        rw [hparse] at h
        cases h
      | ok p =>
        rw [hparse] at h
        have hcut := Eval.run_eq_cut h
        dsimp only
        rw [hcut]
        rfl
    · obtain ⟨a, ha, hcut⟩ := ih h
      exact ⟨a, List.mem_cons_of_mem _ ha, hcut⟩

/-- **Names come from declarations only.** Every task respects its frame: what binds no name leaves
the names of all scopes that were there as they are, a declaration that gives a value gives `null`
and adds its own name to its own scope and nothing else, and what fails adds no name anywhere. So no
source text takes a name from the root scope, and behind any source texts, as long as none is cut
off, its names are those of the declarations at the top level that were done. -/
theorem globals_eq_declared (settings : Settings) :
    (∀ depth (t : Task) s, t.Frame settings s (Eval.eval settings depth t s)) ∧
      (∀ depth t s f s', Eval.eval settings depth t s = .error (.fault f) s' →
        s.store.scopes.Extends s'.store.scopes) ∧
      (∀ source s, globals s ⊆ globals (step settings source s).2) ∧
      ∀ sources,
        settings.traceLevel < 2 ∨ (∀ a ∈ answers settings sources start, a.1.isCut = false) →
        ∀ x, x ∈ globals (after settings sources start) ↔
          ∃ st v s, (.stmt st Scopes.root, .ok v s) ∈ topLevel settings sources start ∧
            st.binds? = some x := by
  refine ⟨Eval.frame_eval settings, fun _ _ _ _ _ h => Eval.extends_of_fault h,
    fun source s x hx => ?_, fun sources hcut x => ?_⟩
  · rw [mem_globals_iff] at hx ⊢
    exact (contains_root_after_iff [source] x (Scopes.lt_size_of_contains hx)).mpr (.inl hx)
  · rw [mem_globals_iff, contains_root_after_iff sources x (by decide)]
    constructor
    · rintro (hx | ⟨⟨t, ending⟩, hmem, hbind, ⟨v, s, rfl⟩ | ⟨hlevel, s, rfl, -⟩⟩)
      · cases hx
      · obtain ⟨st, rfl, hst⟩ := exists_stmt_of_binding hbind
        exact ⟨st, v, s, hmem, hst⟩
      · obtain ⟨a, ha, hisCut⟩ := exists_cut_answer hmem
        rcases hcut with hlow | hcut
        · omega
        · rw [hcut a ha] at hisCut
          cases hisCut
    · rintro ⟨st, v, s, hmem, hst⟩
      exact .inr ⟨(.stmt st Scopes.root, .ok v s), hmem, by simp [Task.binding?, hst],
        .inl ⟨v, s, rfl⟩⟩

/-- The second text fails at its first declaration, the third at its second one; an inner `let` of
the same name as the failed one does not count. -/
def declaringTexts : List String :=
  ["let a = 1; func f() \x7b let d = a; a = a + 1; return d; \x7d f();", "let a = 3; let b = 4;",
    "let c = f(); let d = nope; let e = 5;"]

theorem globals_declaringTexts :
    (after {} declaringTexts start).store.scopes.names Scopes.root = ["a", "f", "c"] ∧
      ∀ x, x ∈ ["a", "f", "c"] ↔
        ∃ st v s, (.stmt st Scopes.root, .ok v s) ∈ topLevel {} declaringTexts start ∧
          st.binds? = some x := by
  have hnames : (after {} declaringTexts start).store.scopes.names Scopes.root =
      ["a", "f", "c"] := by decide +kernel
  refine ⟨hnames, fun x => ?_⟩
  rw [← hnames, Scopes.mem_names_iff, ← mem_globals_iff]
  exact (globals_eq_declared {}).2.2.2 declaringTexts (.inl (by decide)) x

end Session

end Vorn
