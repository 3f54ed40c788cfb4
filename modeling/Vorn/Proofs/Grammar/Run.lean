import Vorn.Grammar.Reader
import Vorn.Grammar.Scope

/-!
# What a reader does to its state

One equation for each single step of a reader, and for the ways to put readers together. Later
proofs run a reader with these and do not look into the monad. Blocks and whole texts read their
statements in one way (`Parse.listed`).
-/

namespace Vorn

/-- Moving on leads to the token that was next. -/
@[simp] theorem Stream.current_advance (s : Stream) : s.advance.current = s.peek := by
  obtain ⟨current, rest⟩ := s
  cases rest <;> rfl

@[simp] theorem Stream.peek_cons (current t : Token) (rest : List Token) :
    Stream.peek ⟨current, t :: rest⟩ = t := rfl

@[simp] theorem Stream.advance_cons (current t : Token) (rest : List Token) :
    Stream.advance ⟨current, t :: rest⟩ = ⟨t, rest⟩ := rfl

namespace Reader

variable {α β : Type} (s : ReaderState)

theorem run_bind (r : Reader α) (f : α → Reader β) :
    (r >>= f) s =
      match r s with
      | .ok a s' => f a s'
      | .error e s' => .error e s' := by
  simp only [bind, EStateM.bind]
  cases r s <;> rfl

theorem run_map (g : α → β) (r : Reader α) :
    (g <$> r) s =
      match r s with
      | .ok a s' => .ok (g a) s'
      | .error e s' => .error e s' := by
  simp only [Functor.map, EStateM.map]
  cases r s <;> rfl

theorem run_bind_ok {r : Reader α} {f : α → Reader β} {s s' : ReaderState} {a : α}
    (h : r s = .ok a s') : (r >>= f) s = f a s' := by
  rw [run_bind, h]

@[simp] theorem run_pure (a : α) : (pure a : Reader α) s = .ok a s := rfl

@[simp] theorem run_throw (e : Failure) : (throw e : Reader α) s = .error e s := rfl

@[simp] theorem run_current : current s = .ok s.stream.current s := rfl

@[simp] theorem run_peek : peek s = .ok s.stream.peek s := rfl

@[simp] theorem run_currentIs (k : Kind) :
    currentIs k s = .ok (decide (s.stream.current.kind = k)) s := rfl

@[simp] theorem run_peekIs (k : Kind) :
    peekIs k s = .ok (decide (s.stream.peek.kind = k)) s := rfl

@[simp] theorem run_advance : advance s = .ok () { s with stream := s.stream.advance } := rfl

@[simp] theorem run_report (errors : List ParseError) :
    report errors s = .ok () { s with errors := errors.reverse ++ s.errors } := rfl

@[simp] theorem run_skipToSemicolon :
    skipToSemicolon s =
      .ok () { s with stream := .toSemicolon s.stream.current s.stream.rest } := rfl

@[simp] theorem run_fail (pos : Pos) (m : Misfit) :
    (fail pos m : Reader α) s =
      .error .misfit { s with errors := .grammar pos m :: s.errors } := rfl

theorem run_expectPeek (k : Kind) :
    expectPeek k s =
      if s.stream.peek.kind = k then .ok () { s with stream := s.stream.advance }
      else .error .misfit
        { s with errors := .grammar s.stream.peek.pos (.expected k s.stream.peek.kind) :: s.errors } := by
  rw [expectPeek, run_bind, run_peek]
  dsimp only
  split <;> simp

theorem run_skipPeek (k : Kind) :
    skipPeek k s =
      if s.stream.peek.kind = k then .ok true { s with stream := s.stream.advance }
      else .ok false s := by
  rw [skipPeek, run_bind, run_peekIs]
  by_cases hk : s.stream.peek.kind = k
  · simp [hk, run_bind]
  · simp [hk]

theorem run_attempt (r : Reader α) :
    attempt r s =
      match r s with
      | .ok a s' => .ok (some a) s'
      | .error .misfit s' => .ok none s'
      | .error .outOfFuel s' => .error .outOfFuel s' := rfl

theorem run_attempt_ok {r : Reader α} {s s' : ReaderState} {a : α} (h : r s = .ok a s') :
    attempt r s = .ok (some a) s' := by
  rw [run_attempt, h]

@[simp] theorem run_require_some (a : α) : require (some a) s = .ok a s := rfl

@[simp] theorem run_require_none : (require none : Reader α) s = .error .misfit s := rfl

end Reader

/-- A statement of a list and the statements behind it, in a scope with the frame `own` so far.
After one that does not fit, the reading goes on behind the next token. -/
def Parse.listed (fs : Frames) (own : Frame) (one : Reader (Option Stmt))
    (rest : Frame → Reader (List Stmt)) : Reader (List Stmt) := do
  match ← Reader.attempt one with
  | some (some s) =>
    Reader.report (Frames.check own fs s)
    Reader.advance
    return s :: (← rest (own.add s))
  | _ =>
    Reader.advance
    rest own

end Vorn
