import Mathlib.Data.List.Chain
import Vorn.Proofs.Eval.Sequel

/-!
# Signals on their way out

A signal that a statement gives ends the tasks around the statement one after the other, as long as
each stands as a statement in a block, or as a block of a conditional statement, a loop or a call
(`Task.standsIn`), and the task around it hands this signal on (`Task.passesOn`).
`Eval.Linked.unwinds` says so: nothing but the ends of these tasks comes next, all with the signal
and in the same state.
-/

namespace Vorn

namespace Task

/-- The child is a statement of a block, or the block of a conditional statement, a loop or a
function. The first clause of a `for` is none, and neither is the block of a conditional inside an
expression. -/
def standsIn : (child parent : Task) → Bool
  | .stmt _ _, .block _ _ => true
  | .block _ _, .stmt (.expr _ _ (.cond _ _ _ _)) _ => true
  | .block _ _, .stmt (.while _ _ _) _ => true
  | .block _ _, .stmt (.for _ _ _ _ _) _ => true
  | .block _ _, .apply _ (.function _) _ => true
  | _, _ => false

/-- A loop. -/
def isLoop : Task → Bool
  | .stmt (.while _ _ _) _ | .stmt (.for _ _ _ _ _) _ => true
  | _ => false

/-- A call. -/
def isCall : Task → Bool
  | .apply _ _ _ => true
  | _ => false

/-- A signal from inside ends the task, which gives the signal itself: a call keeps all signals to
itself, and a loop hands on only a `return`. -/
def passesOn (v : Value) (t : Task) : Bool :=
  v.isSignal && !t.isCall && (!t.isLoop || (Eval.loopEnd? v).any Value.isSignal)

theorem isCall_of_standsIn {child parent : Task} (h : child.standsIn parent = true) :
    child.isCall = false := by
  cases child with
  | apply => cases h
  | _ => rfl

end Task

/-- Each of the tasks stands in the next one. -/
def Standing (path : List Task) : Prop := path.IsChain fun c parent => c.standsIn parent = true

instance (path : List Task) : Decidable (Standing path) :=
  inferInstanceAs (Decidable (List.IsChain _ path))

/-- Only the last of the tasks can be a call. -/
theorem Standing.isCall_of_mem {path : List Task} {last : Task} (h : Standing (path ++ [last])) :
    ∀ t ∈ path, t.isCall = false := by
  induction path with
  | nil => nofun
  | cons t path ih =>
    obtain ⟨next, rest, hnext⟩ : ∃ next rest, path ++ [last] = next :: rest :=
      List.exists_cons_of_ne_nil (by simp)
    rw [Standing, List.cons_append, hnext, List.isChain_cons_cons, ← hnext] at h
    exact List.forall_mem_cons.mpr ⟨Task.isCall_of_standsIn h.1, ih h.2⟩

namespace Eval

variable {settings : Settings}

/-- A loop hands on the signals that it gives itself. -/
theorem LoopSequel.passes {word : String} {scope : ScopeRef} {condition update : Option Expr}
    {body : Block} {v : Value} {s : State} {step : Step Value}
    (h : LoopSequel settings word scope condition update body v s step)
    (hv : (loopEnd? v).any Value.isSignal = true) : step = .done (.ok v s) := by
  cases v with
  | returned => exact h
  | _ => cases hv

theorem Sequel.passes {parent child : Task} {v : Value} {s : State} {step : Step Value}
    (h : Sequel settings (some parent) child v s step) (hstands : child.standsIn parent = true)
    (hpasses : parent.passesOn v = true) : step = .done (.ok v s) := by
  simp only [Task.passesOn, Bool.and_eq_true, Bool.or_eq_true, Bool.not_eq_true'] at hpasses
  obtain ⟨⟨hsignal, hcall⟩, hloop⟩ := hpasses
  unfold Task.standsIn at hstands
  split at hstands
  · exact h hsignal
  · exact h
  · exact LoopSequel.passes h (hloop.resolve_left (by simp [Task.isLoop]))
  · exact LoopSequel.passes h (hloop.resolve_left (by simp [Task.isLoop]))
  · cases hcall
  · cases hstands

/-- A call ends with what the signal says. -/
theorem Sequel.call {pos : Pos} {f : Value} {args : List Value} {child : Task} {v : Value}
    {s : State} {step : Step Value} (h : Sequel settings (some (.apply pos f args)) child v s step)
    (hstands : child.standsIn (.apply pos f args) = true) : step = .done (callEnding s v) := by
  cases child with
  | block b r =>
    cases f with
    | function c => exact h
    | _ => cases hstands
  | _ => cases hstands

/-- One task more ends with the signal. -/
theorem Linked.pass {final : Ending Value} {ms before behind : List Moment} {v : Value} {s : State}
    {t x : Task} {outer : List Task} (h : Linked settings final (Sequel settings) [] ms)
    (hms : ms = before ++ .finished t (.ok v s) :: behind)
    (hopen : openTasks before = t :: x :: outer) (hstands : t.standsIn x = true)
    (hpasses : x.passesOn v = true) :
    ∃ rest, behind = .finished x (.ok v s) :: rest ∧
      ms = (before ++ [.finished t (.ok v s)]) ++ .finished x (.ok v s) :: rest ∧
      openTasks (before ++ [.finished t (.ok v s)]) = x :: outer := by
  obtain ⟨depth, step, rest, hstep, hbehind⟩ := h _ _ _ _ _ _ hms hopen
  obtain rfl := hstep.passes hstands hpasses
  rw [Step.history, List.nil_append, Step.play] at hbehind
  refine ⟨rest, hbehind, ?_, ?_⟩
  · rw [hms, hbehind, List.append_assoc]
    rfl
  · rw [openTasks, openFrom_append]
    change (openTasks before).tail = _
    rw [hopen]
    rfl

/-- **A signal ends the tasks around it**, up to the first one that does not hand it on. The
induction is on the tasks from the inside out. -/
theorem Linked.unwinds {final : Ending Value} {ms : List Moment} {v : Value} {s : State}
    (h : Linked settings final (Sequel settings) [] ms) {outer : List Task} :
    ∀ {inner : List Task} {before : List Moment} {t : Task} {behind : List Moment},
    ms = before ++ .finished t (.ok v s) :: behind → openTasks before = t :: (inner ++ outer) →
    Standing (t :: inner) → (∀ x ∈ inner, x.passesOn v = true) →
    ∃ before' t' rest, (t :: inner).getLast? = some t' ∧
      ms = before' ++ .finished t' (.ok v s) :: rest ∧ openTasks before' = t' :: outer ∧
      behind = inner.map (.finished · (.ok v s)) ++ rest
  | [], before, t, behind, hms, hopen, _, _ => ⟨before, t, behind, rfl, hms, hopen, rfl⟩
  | x :: inner, before, t, behind, hms, hopen, hchain, hpasses => by
    rw [Standing, List.isChain_cons_cons] at hchain
    rw [List.forall_mem_cons] at hpasses
    obtain ⟨rest, rfl, hnext, hopen'⟩ := h.pass hms hopen hchain.1 hpasses.1
    obtain ⟨before', t', rest', hlast, hms', hopen'', hrest⟩ :=
      Linked.unwinds h hnext hopen' hchain.2 hpasses.2
    exact ⟨before', t', rest', by rw [List.getLast?_cons_cons, hlast], hms', hopen'',
      by rw [hrest]; rfl⟩

/-! ## What a `return` gives -/

/-- The value that the last of the moments gave for the expression of a `return` in the scope, and
`null` for a `return` without one. -/
def Given (ms : List Moment) (r : ScopeRef) : Option Expr → Value → Prop
  | none, v => v = .null
  | some e, v => ∃ front s, ms = front ++ [.finished (.expr e r) (.ok v s)]

/-- What a `return` gives. -/
theorem given_of_return {ms before behind : List Moment} {pos : Pos} {e : Option Expr}
    {r : ScopeRef} {u : Value} {s : State} (h : Closed settings ms)
    (hms : ms = before ++ .finished (.stmt (.return pos e) r) (.ok u s) :: behind) :
    ∃ id v, u = .returned id v pos ∧ Given before r e v := by
  obtain ⟨depth, s₀, front, hbefore, hplay⟩ := exists_steps_of_closed h hms
  cases e with
  | none =>
    cases hplay
    exact ⟨_, .null, rfl, rfl⟩
  | some e =>
    rw [runTask, runStmt, Script.play_ask_bind] at hplay
    rw [runTask, runStmt, Script.history_ask_bind] at hbefore
    cases heval : eval settings depth (.expr e r) s₀ with
    | ok v s₁ =>
      rw [heval] at hplay hbefore
      cases hplay
      obtain ⟨inner, hinner, -⟩ := @exists_history_eq settings depth (.expr e r) s₀
      refine ⟨_, v, rfl, front ++ .started (.stmt (.return pos (some e)) r) s₀ ::
        .started (.expr e r) s₀ :: inner, s₁, ?_⟩
      rw [hbefore, hinner, heval]
      change front ++ .started _ s₀ :: ((.started _ s₀ :: (inner ++ [_])) ++ []) = _
      simp
    | error stop s₁ =>
      rw [heval] at hplay
      cases hplay

end Eval

end Vorn
