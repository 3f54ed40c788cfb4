import Vorn.Proofs.Eval.NodeRule
import Vorn.Proofs.Eval.Program
import Vorn.Proofs.Eval.Unwind
import Vorn.Proofs.Eval.Values
import Vorn.Proofs.Grammar.Accepted

/-!
# Signals stay out of data

In a program whose conditionals, `break` and `continue` are statements of their own
(`Program.ControlPlaced`), signals never become data: no binding, element, key, argument, operand,
condition or result of a call is one. So every signal is taken where it is meant to be
(`Eval.signals_taken`): a `return` by the innermost call or the program, `break` and `continue` by
the innermost loop of the same call, or else they are faults.

The first part is a rule on nodes, `NodeRule.control`, under which no signal is admitted as data.
The second follows the tasks around a signal from the inside out: under the rule each stands where
it hands the signal on, up to the one that takes it.
-/

namespace Vorn

/-! ## Where control may stand -/

/-- Conditionals, `break` and `continue` occur only as statements of the program or of a block. -/
def Program.ControlPlaced (p : Program) : Prop := ∀ n ∈ p.nodes, n.placed = true

instance (p : Program) : Decidable p.ControlPlaced :=
  inferInstanceAs (Decidable (∀ n ∈ p.nodes, n.placed = true))

/-- Control is placed, and signals are not data. -/
def NodeRule.control : NodeRule where
  ints := .all
  Signals := False
  Keeps n := n.placed = true ∧ n.WellFormed
  literal _ := trivial
  placed _ := And.left
  Assumed _ := True
  sizes _ := Ints.sizes_all _

/-! ## Data -/

/-- All that is data at a moment: what a call is about, the value of an expression or a call, and
what the store holds. The value of a statement or a block is none. -/
def Moment.data : Moment → List Value
  | started t s => t.values ++ s.store.values
  | finished t (.ok v s) => if t.isPlain then v :: s.store.values else s.store.values
  | finished _ (.error _ s) => s.store.values

theorem Contract.At.data {C : Contract} {w : C.World} {m : Moment} (h : C.At w m) :
    ∀ v ∈ m.data, (C.law w).Admits v := by
  match m, h with
  | .started t s, ⟨hs, hneeds⟩ =>
    exact List.forall_mem_append.mpr ⟨hneeds.values, hs.admits.values⟩
  | .finished t (.ok v s), ⟨hs, _, _, _, hgives⟩ =>
    unfold Moment.data
    cases t with
    | expr | apply => exact List.forall_mem_cons.mpr ⟨hgives.yields, hs.admits.values⟩
    | stmt | block => exact hs.admits.values
  | .finished _ (.error _ s), (hs : C.Holds w s.store) => exact hs.admits.values

namespace NodeRule

/-- No admitted value is a signal. -/
theorem control_isSignal {w : control.contract.World} {v : Value}
    (h : (control.contract.law w).Admits v) : v.isSignal = false :=
  Law.Admits.isSignal (fun h => h) h

/-- An expression that is evaluated for its value is no conditional and no signal. -/
theorem control_isControl {w : control.contract.World} {e : Expr} {r : ScopeRef}
    (h : control.contract.Needs w (.expr e r)) : e.isControl = false :=
  h.control fun h => h

end NodeRule

/-! ## Jumps -/

/-- A `return`, `break` or `continue`. -/
def Stmt.isJump : Stmt → Bool
  | .return _ _ | .expr _ _ (.break _) | .expr _ _ (.continue _) => true
  | _ => false

/-- A task that may give a signal: all statements and blocks but those that can be the first clause
of a `for`. -/
def Task.mayJump : Task → Bool
  | .block _ _ => true
  | .stmt (.expr _ _ e) _ => e.isControl
  | .stmt s _ => !s.isClause && s.binds?.isNone
  | _ => false

theorem Stmt.mayJump_of_isJump {c : Stmt} {r : ScopeRef} (h : c.isJump = true) :
    (Task.stmt c r).mayJump = true := by
  unfold Stmt.isJump at h
  split at h <;> first | rfl | cases h

/-- A task around a jump is a call, or a signal can come out of it in turn. -/
theorem Task.mayJump_of_standsIn {child parent : Task} (h : child.standsIn parent = true)
    (hcall : parent.isCall = false) : parent.mayJump = true := by
  unfold Task.standsIn at h
  split at h
  case h_5 => cases hcall
  case h_6 => cases h
  all_goals rfl

namespace Eval

variable {settings : Settings}

/-- The first clause of a `for` gives no signal. -/
theorem mayJump_clause {w : NodeRule.control.contract.World} {pos : Pos} {c : Stmt}
    {condition update : Option Expr} {body : Block} {r r' : ScopeRef}
    (h : NodeRule.control.contract.Needs w (.stmt (.for pos (some c) condition update body) r)) :
    (Task.stmt c r').mayJump = false := by
  have hnodes : NodeRule.control.Nodes (Stmt.for pos (some c) condition update body).nodes := h
  obtain ⟨hplaced, hwellFormed⟩ := hnodes (.stmt (.for pos (some c) condition update body))
    (by simp [Stmt.nodes])
  have hclause : c.isClause = true := hwellFormed c rfl
  cases c with
  | expr p literal e =>
    simp only [Node.placed, Stmt.parts, Option.all_some, List.all_cons, List.all_nil, Bool.and_true,
      Bool.and_eq_true, Bool.not_eq_true'] at hplaced
    exact hplaced.1.1
  | declare => rfl
  | _ => cases hclause

/-- **Signals stand where they are meant to.** A task that may give a signal is a statement of a
block or the program, or a block of a conditional statement, a loop or a call. -/
theorem Sequel.stands {w : NodeRule.control.contract.World} {parent child : Task} {v : Value}
    {s : State} {step : Step Value} (h : Sequel settings (some parent) child v s step)
    (hneeds : NodeRule.control.contract.Needs w parent) (hjump : child.mayJump = true) :
    child.standsIn parent = true := by
  unfold Sequel at h
  split at h
  case h_1 heq => cases heq
  case h_3 heq =>
    cases heq
    subst h
    rw [mayJump_clause hneeds] at hjump
    cases hjump
  case h_5 heq =>
    -- The conditional would be an operand.
    cases heq
    cases NodeRule.control_isControl hneeds
  case h_2 heq | h_4 heq | h_6 heq | h_7 heq | h_8 heq =>
    cases heq
    rfl
  case h_9 | h_10 => exact h.elim
  case h_11 child _ _ hstmt hblock _ _ _ _ _ _ _ _ =>
    cases child with
    | stmt c r => exact (hstmt c r rfl).elim
    | block b r => exact (hblock b r rfl).elim
    | _ => cases hjump

/-- The task that takes a signal, the first of those that are still open, and what happens next: a
call and the program end with what the signal says, and a loop ends or goes on. -/
def Taken (settings : Settings) (final : Ending Value) (u : Value) (s : State) :
    List Task → List Moment → Prop
  | [], ms => ms = [] ∧ final = callEnding s u
  | .apply pos f args :: _, ms => ∃ rest,
    ms = .finished (.apply pos f args) (callEnding s u) :: rest
  | .stmt (.while pos condition body) r :: _, ms =>
    GoesOn settings final (LoopSequel settings "while" r condition none body u s)
      (some (.stmt (.while pos condition body) r)) ms
  | .stmt (.for pos init condition update body) r :: _, ms => ∃ r',
    GoesOn settings final (LoopSequel settings "for" r' condition update body u s)
      (some (.stmt (.for pos init condition update body) r)) ms
  | _, _ => False

/-- Behind the end of a statement with a signal the program ends with what the signal says. -/
theorem taken_program {final : Ending Value} {t : Task} {u : Value} {s : State} {ms : List Moment}
    (h : GoesOn settings final (Sequel settings none t u s) none ms) (hu : u.isSignal = true)
    (hjump : t.mayJump = true) : Taken settings final u s [] ms := by
  obtain ⟨depth, step, hstep, rfl, hfinal⟩ := h
  cases t with
  | stmt c r =>
    obtain rfl := hstep hu
    exact ⟨rfl, hfinal.symm⟩
  | block => cases hstep
  | expr | apply => cases hjump

/-- A task that does not hand a signal on takes it. -/
theorem taken_task {final : Ending Value} {t x : Task} {outer : List Task} {u : Value} {s : State}
    {ms : List Moment} (h : GoesOn settings final (Sequel settings (some x) t u s) (some x) ms)
    (hu : u.isSignal = true) (hstands : t.standsIn x = true) (hkeeps : x.passesOn u = false) :
    Taken settings final u s (x :: outer) ms := by
  unfold Task.standsIn at hstands
  split at hstands
  case h_3 => exact h
  case h_4 => exact ⟨_, h⟩
  case h_5 =>
    obtain ⟨depth, step, rest, hstep, rfl⟩ := h
    obtain rfl := hstep.call rfl
    exact ⟨rest, rfl⟩
  case h_6 => cases hstands
  all_goals simp [Task.passesOn, Task.isCall, Task.isLoop, hu] at hkeeps

/-- **A signal is taken by the first task that does not hand it on.** The induction is on the tasks
around it from the inside out. -/
theorem Linked.taken {final : Ending Value} {ms : List Moment} {u : Value} {s : State}
    (h : Linked settings final (Sequel settings) [] ms)
    (hneeds : ∀ t s, .started t s ∈ ms → NodeRule.control.contract.Needs () t)
    (hu : u.isSignal = true) : ∀ {stack : List Task} {before behind : List Moment} {t : Task},
    ms = before ++ .finished t (.ok u s) :: behind → openTasks before = t :: stack →
    t.mayJump = true →
    ∃ rest, behind = (stack.takeWhile (·.passesOn u)).map (.finished · (.ok u s)) ++ rest ∧
      Taken settings final u s (stack.dropWhile (·.passesOn u)) rest
  | [], before, behind, t, hms, hopen, hjump =>
    ⟨behind, rfl, taken_program (h _ _ _ _ _ _ hms hopen) hu hjump⟩
  | x :: outer, before, behind, t, hms, hopen, hjump => by
    have hgoes : GoesOn settings final (Sequel settings (some x) t u s) (some x) behind :=
      h _ _ _ _ _ _ hms hopen
    have hx : NodeRule.control.contract.Needs () x := by
      have hmem : x ∈ openFrom [] before := by
        rw [← openTasks, hopen]
        simp
      obtain ⟨s', hs'⟩ := (started_of_mem_openFrom hmem).resolve_left (by simp)
      exact hneeds x s' (hms ▸ List.mem_append_left _ hs')
    have hstands : t.standsIn x = true := by
      obtain ⟨_, _, _, hstep, -⟩ := hgoes
      exact hstep.stands hx hjump
    cases hpasses : x.passesOn u with
    | false =>
      rw [List.takeWhile_cons_of_neg (by simp [hpasses]),
        List.dropWhile_cons_of_neg (by simp [hpasses])]
      exact ⟨behind, rfl, taken_task hgoes hu hstands hpasses⟩
    | true =>
      have hcall : x.isCall = false := by
        simp only [Task.passesOn, Bool.and_eq_true, Bool.not_eq_true'] at hpasses
        exact hpasses.1.2
      obtain ⟨rest, rfl, hnext, hopen'⟩ := h.pass hms hopen hstands hpasses
      obtain ⟨rest', rfl, htaken⟩ :=
        Linked.taken h hneeds hu hnext hopen' (Task.mayJump_of_standsIn hstands hcall)
      rw [List.takeWhile_cons_of_pos hpasses, List.dropWhile_cons_of_pos hpasses]
      exact ⟨rest', rfl, htaken⟩

/-! ## What a jump gives -/

/-- The signal of a jump: `return` carries the value of its expression. -/
def Carries (before : List Moment) (r : ScopeRef) : Stmt → Value → Prop
  | .return pos e, u => ∃ id v, u = .returned id v pos ∧ Given before r e v
  | .expr _ _ (.break pos), u => ∃ id, u = .break id pos
  | .expr _ _ (.continue pos), u => ∃ id, u = .continue id pos
  | _, _ => False

theorem carries_of_jump {ms before behind : List Moment} {c : Stmt} {r : ScopeRef} {u : Value}
    {s : State} (h : Closed settings ms)
    (hms : ms = before ++ .finished (.stmt c r) (.ok u s) :: behind) (hjump : c.isJump = true) :
    Carries before r c u := by
  unfold Stmt.isJump at hjump
  split at hjump
  case h_1 => exact given_of_return h hms
  case h_2 | h_3 =>
    obtain ⟨depth, s₀, front, -, hplay⟩ := exists_steps_of_closed h hms
    cases hplay
    exact ⟨_, rfl⟩
  case h_4 => cases hjump

theorem Carries.isSignal {before : List Moment} {r : ScopeRef} {c : Stmt} {u : Value}
    (h : Carries before r c u) : u.isSignal = true := by
  unfold Carries at h
  split at h
  case h_1 =>
    obtain ⟨id, v, rfl, -⟩ := h
    rfl
  case h_2 | h_3 =>
    obtain ⟨id, rfl⟩ := h
    rfl
  case h_4 => exact h.elim

/-! ## Programs -/

/-- Each jump ends the tasks around it, up to the one that takes its signal. -/
def JumpsTaken (settings : Settings) (final : Ending Value) (ms : List Moment) : Prop :=
  ∀ before c r u s behind, ms = before ++ .finished (.stmt c r) (.ok u s) :: behind →
    c.isJump = true → Carries before r c u ∧
      ∃ stack rest, openTasks before = .stmt c r :: stack ∧
        behind = (stack.takeWhile (·.passesOn u)).map (.finished · (.ok u s)) ++ rest ∧
        Taken settings final u s (stack.dropWhile (·.passesOn u)) rest

theorem jumpsTaken {final : Ending Value} {ms : List Moment}
    (hlinked : Linked settings final (Sequel settings) [] ms) (hclosed : Closed settings ms)
    (hneeds : ∀ t s, .started t s ∈ ms → NodeRule.control.contract.Needs () t) :
    JumpsTaken settings final ms := by
  intro before c r u s behind hms hjump
  have hcarries : Carries before r c u := carries_of_jump hclosed hms hjump
  obtain ⟨stack, hopen⟩ := openTasks_eq_cons hclosed hms
  obtain ⟨rest, hrest, htaken⟩ :=
    hlinked.taken hneeds hcarries.isSignal hms hopen (Stmt.mayJump_of_isJump hjump)
  exact ⟨hcarries, stack, rest, hopen, hrest, htaken⟩

/-- **Signals stay out of data, and every jump is taken** where it is meant to be. At no moment is a
signal data, nor is one in the store or the value that the program leaves; conditionals, `break` and
`continue` are never evaluated for their value. -/
theorem signals_taken {source : String} {p : Program} (settings : Settings)
    (hparse : parse? source = .ok p) (hplaced : p.ControlPlaced) :
    (∀ m ∈ programHistory settings p Session.start, ∀ v ∈ m.data, v.isSignal = false) ∧
      (∀ v ∈ (Session.run settings p Session.start).2.store.values, v.isSignal = false) ∧
      (∀ v, (Session.run settings p Session.start).1 = .value v → v.isSignal = false) ∧
      (∀ e r s, .started (.expr e r) s ∈ programHistory settings p Session.start →
        e.isControl = false) ∧
      JumpsTaken settings (ended settings p Session.start)
        (programHistory settings p Session.start) := by
  have hstart : NodeRule.control.contract.Holds () Session.start.store :=
    ⟨Law.admitsStore_start, trivial⟩
  have hseq : NodeRule.control.contract.Seq () p.statements Scopes.root :=
    NodeRule.seq fun n hn => ⟨hplaced n hn, wellFormed_of_accepted hparse n hn⟩
  obtain ⟨⟨⟩, halong, hstore, hvalue⟩ := @Contract.Discipline.program NodeRule.control.contract
    settings () _ NodeRule.discipline p hstart hseq fun _ _ => trivial
  have hat : ∀ m ∈ programHistory settings p Session.start, NodeRule.control.contract.At () m := by
    intro m hm
    obtain ⟨⟨⟩, -, -, hat⟩ := halong.at_of_mem hm
    exact hat
  refine ⟨fun m hm v hv => NodeRule.control_isSignal ((hat m hm).data v hv),
    fun v hv => NodeRule.control_isSignal (hstore.admits.values v hv),
    fun v hv => NodeRule.control_isSignal (hvalue v hv),
    fun e r s hm => NodeRule.control_isControl (hat _ hm).2, ?_⟩
  exact jumpsTaken (linked_sequel p _) (closed_programHistory p _) fun t s hm => (hat _ hm).2

/-- The end of a jump. -/
def endsJump : Moment → Bool
  | .finished (.stmt c _) (.ok _ _) => c.isJump
  | _ => false

/-- A `break`, two times `continue` and a `return` in a call, and a `break` outside of it. -/
def jumps : String :=
  "func f(n) \x7b for (let i = 0; true; i++) \x7b if (i < n) \x7b continue; \x7d " ++
    "while (true) \x7b break; \x7d return [i]; \x7d \x7d " ++
    "let x = f(2)[0]; if (x == 2) \x7b break; \x7d"

/-- All five are taken. -/
theorem signals_taken_in_loops :
    ∃ p, parse? jumps = .ok p ∧ p.ControlPlaced ∧
      (programHistory {} p Session.start).countP endsJump = 5 ∧
      JumpsTaken {} (ended {} p Session.start) (programHistory {} p Session.start) := by
  obtain ⟨herrors, hplaced, hcount⟩ : (parse jumps).2 = [] ∧ (parse jumps).1.ControlPlaced ∧
      (programHistory {} (parse jumps).1 Session.start).countP endsJump = 5 := by
    decide +kernel
  have hparse : parse? jumps = .ok (parse jumps).1 := parse?_eq_ok.mpr (Prod.ext rfl herrors)
  exact ⟨_, hparse, hplaced, hcount, (signals_taken {} hparse hplaced).2.2.2.2⟩

end Eval

end Vorn
