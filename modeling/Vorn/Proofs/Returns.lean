import Vorn.Proofs.Eval.Unwind
import Vorn.Proofs.Grammar.Accepted

/-!
# What `return` ends

A `return` that stands as a statement in the body of a function, in however many conditional
statements and loops, ends the call: the tasks between the two end one after the other, nothing
else happens, and the call gives the value (`Eval.return_ends_call`). Inside an expression a
`return` is a value like any other, so that the function goes on behind it
(`Eval.return_in_declaration`).
-/

namespace Vorn

/-- The end of a `return` with a value. -/
def Moment.isReturn : Moment → Bool
  | .finished (.stmt (.return _ _) _) (.ok _ _) => true
  | _ => false

theorem Moment.exists_of_isReturn {m : Moment} (h : m.isReturn = true) :
    ∃ pos e r u s, m = .finished (.stmt (.return pos e) r) (.ok u s) := by
  unfold Moment.isReturn at h
  split at h
  · exact ⟨_, _, _, _, _, rfl⟩
  · cases h

theorem Task.exists_of_isCall {t : Task} (h : t.isCall = true) :
    ∃ pos f args, t = .apply pos f args := by
  cases t with
  | apply pos f args => exact ⟨pos, f, args, rfl⟩
  | _ => cases h

namespace Eval

variable {settings : Settings}

/-- **A `return` in statement position ends the call.** Behind it only the tasks around it end, up
to the innermost call, and the call gives the value. -/
theorem return_ends_call {p : Program} {s s' : State} {before behind : List Moment} {pos : Pos}
    {e : Option Expr} {r : ScopeRef} {u : Value} {inner outer : List Task} {callPos : Pos}
    {f : Value} {args : List Value}
    (hsplit : programHistory settings p s =
      before ++ .finished (.stmt (.return pos e) r) (.ok u s') :: behind)
    (hopen : openTasks before =
      .stmt (.return pos e) r :: (inner ++ .apply callPos f args :: outer))
    (hstands : Standing (.stmt (.return pos e) r :: (inner ++ [.apply callPos f args]))) :
    ∃ id v rest, u = .returned id v pos ∧ Given before r e v ∧
      behind = inner.map (.finished · (.ok u s')) ++
        .finished (.apply callPos f args) (.ok v s') :: rest := by
  obtain ⟨id, v, rfl, hgiven⟩ := given_of_return (closed_programHistory p s) hsplit
  have hlinked := @linked_sequel settings p s
  rw [← List.cons_append] at hstands
  have hpasses : ∀ t ∈ inner, t.passesOn (.returned id v pos) = true := by
    intro t ht
    simp [Task.passesOn, hstands.isCall_of_mem t (List.mem_cons_of_mem _ ht), loopEnd?,
      Value.isSignal]
  rw [Standing, List.isChain_append] at hstands
  obtain ⟨before', t, rest, hlast, hsplit', hopen', hbehind⟩ :=
    hlinked.unwinds hsplit hopen hstands.1 hpasses
  obtain ⟨depth, step, rest', hstep, hrest⟩ := hlinked _ _ _ _ _ _ hsplit' hopen'
  obtain rfl := hstep.call (hstands.2.2 t hlast (.apply callPos f args) rfl)
  exact ⟨id, v, rest', rfl, hgiven, by rw [hbehind, hrest]; rfl⟩

/-- Some `return` among the moments has its call `n` tasks further out, with only statements and
blocks between the two. -/
def endsCall (n : Nat) (ms : List Moment) : Bool :=
  (List.range ms.length).any fun i =>
    (ms[i]?).any Moment.isReturn && ((openTasks (ms.take i))[n + 1]?).any Task.isCall &&
      decide (Standing ((openTasks (ms.take i)).take (n + 2)))

theorem exists_of_endsCall {ms : List Moment} {n : Nat} (hclosed : Closed settings ms)
    (h : endsCall n ms = true) :
    ∃ before pos e r u s behind inner callPos f args outer,
      ms = before ++ .finished (.stmt (.return pos e) r) (.ok u s) :: behind ∧
      openTasks before = .stmt (.return pos e) r :: (inner ++ .apply callPos f args :: outer) ∧
      inner.length = n ∧
      Standing (.stmt (.return pos e) r :: (inner ++ [.apply callPos f args])) := by
  simp only [endsCall, List.any_eq_true, Bool.and_eq_true, Option.any_eq_true,
    decide_eq_true_eq] at h
  obtain ⟨i, -, ⟨⟨m, hm, hreturn⟩, call, hcall, hisCall⟩, hstands⟩ := h
  obtain ⟨pos, e, r, u, s, rfl⟩ := m.exists_of_isReturn hreturn
  obtain ⟨callPos, f, args, rfl⟩ := call.exists_of_isCall hisCall
  obtain ⟨hi, hm⟩ := List.getElem?_eq_some_iff.mp hm
  have hms : ms = ms.take i ++ .finished (.stmt (.return pos e) r) (.ok u s) :: ms.drop (i + 1) := by
    rw [← hm, ← List.drop_eq_getElem_cons hi, List.take_append_drop]
  obtain ⟨stack, hopen⟩ := openTasks_eq_cons hclosed hms
  rw [hopen, List.getElem?_cons_succ] at hcall
  rw [hopen, List.take_succ_cons, List.take_add_one, hcall] at hstands
  obtain ⟨hn, hget⟩ := List.getElem?_eq_some_iff.mp hcall
  refine ⟨_, pos, e, r, u, s, _, stack.take n, callPos, f, args, stack.drop (n + 1), hms, ?_,
    List.length_take_of_le (by omega), hstands⟩
  rw [hopen, ← hget, ← List.drop_eq_getElem_cons hn, List.take_append_drop]

/-- A `return` in a conditional statement in a loop in a loop. -/
def earlyReturn : String :=
  "func f(n) \x7b for (let i = 0; true; i++) \x7b while (true) \x7b if (i == n) \x7b return [i]; \x7d " ++
    "break; \x7d \x7d \x7d f(1)[0]"

/-- It ends the call from seven tasks further in. -/
theorem return_ends_call_in_loops :
    ∃ p before pos e r u s' behind inner callPos f args outer id v rest,
      parse? earlyReturn = .ok p ∧
      programHistory {} p Session.start =
        before ++ .finished (.stmt (.return pos e) r) (.ok u s') :: behind ∧
      openTasks before = .stmt (.return pos e) r :: (inner ++ .apply callPos f args :: outer) ∧
      inner.length = 7 ∧ u = .returned id v pos ∧ Given before r e v ∧
      behind = inner.map (.finished · (.ok u s')) ++
        .finished (.apply callPos f args) (.ok v s') :: rest := by
  obtain ⟨herrors, hfound⟩ : (parse earlyReturn).2 = [] ∧
      endsCall 7 (programHistory {} (parse earlyReturn).1 Session.start) = true := by
    decide +kernel
  have hparse : parse? earlyReturn = .ok (parse earlyReturn).1 :=
    parse?_eq_ok.mpr (Prod.ext rfl herrors)
  obtain ⟨before, pos, e, r, u, s', behind, inner, callPos, f, args, outer, hsplit, hopen, hlength,
    hstands⟩ := exists_of_endsCall (closed_programHistory _ _) hfound
  obtain ⟨id, v, rest, hu, hgiven, hbehind⟩ := return_ends_call hsplit hopen hstands
  exact ⟨_, before, pos, e, r, u, s', behind, inner, callPos, f, args, outer, id, v, rest, hparse,
    hsplit, hopen, hlength, hu, hgiven, hbehind⟩

/-- The value that a `return` carries, if it can be a key. -/
def returnedKey? : Moment → Option Key
  | .finished (.stmt (.return _ _) _) (.ok (.returned _ v _) _) => v.key?
  | _ => none

/-- The value that a call gives, if it can be a key. -/
def callKey? : Moment → Option Key
  | .finished (.apply _ _ _) (.ok v _) => v.key?
  | _ => none

/-- A `return` in the conditional that a declaration takes its value from. -/
def returnInDeclaration : String :=
  "func f() \x7b let x = if (true) \x7b return 5; \x7d; return 6; \x7d f()"

/-- It does not end the call: the function goes on to another `return`, and the call gives the
value of that one. -/
theorem return_in_declaration :
    (parse returnInDeclaration).2 = [] ∧
      (programHistory {} (parse returnInDeclaration).1 Session.start).filterMap returnedKey? =
        [.int 5, .int 6] ∧
      (programHistory {} (parse returnInDeclaration).1 Session.start).filterMap callKey? =
        [.int 6] := by
  decide +kernel

end Eval

end Vorn
