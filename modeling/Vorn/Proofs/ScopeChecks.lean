import Vorn.Proofs.Grammar.Accepted
import Vorn.Proofs.Grammar.Follows
import Vorn.Proofs.Grammar.Provenance

/-!
# Names are checked as if afterwards

The rules on names are checked while a text is read, on trees that are not finished, against the
scopes that are open at the moment. `scope_checks_separate` says that this is the same as a pass over
the finished tree, and that it does not matter that the scopes are linked objects with a pointer to
the current one: every function of the grammar puts the pointer back.
-/

namespace Vorn

namespace Linked

/-- At the start the scope of the program is empty. -/
theorem State.stands_ofTokens (ts : List Token) : (State.ofTokens ts).Stands 0 [] none {} :=
  ⟨rfl, rfl, [], rfl⟩

/-- The scope of the program is the current one again at the end. -/
theorem programStatements_ofTokens (n : Nat) (ts : List Token) :
    (ending (programStatements n 0 (.ofTokens ts))).scope = some 0 ∧ run n ts = Parse.run n ts := by
  have hrun := followsIn_programStatements 0 n {} [] none _ (State.stands_ofTokens ts) rfl
  rw [run, Parse.run]
  revert hrun
  cases programStatements n 0 (.ofTokens ts) with
  | ok ss t =>
    rintro ⟨hrun, own, -, ht⟩
    have hplain : Parse.programStatements n {} { stream := .ofTokens ts } = .ok ss t.toReaderState :=
      hrun
    exact ⟨ht.scope, by rw [hplain]⟩
  | error e t =>
    rintro ⟨hrun, own, ht⟩
    have hplain : Parse.programStatements n {} { stream := .ofTokens ts } = .error e t.toReaderState :=
      hrun
    exact ⟨ht.scope, by rw [hplain]⟩

end Linked

/-- **Names are checked as if afterwards.** If the grammar finds nothing wrong with a text, then the
errors that are recorded while the text is read are, with their places and in their order, those of
a pass over the finished tree, in which each declaration is held against the declarations before it
in its own list and each assignment against the nearest region that declares its name.

The text may as well be read with linked scopes and a pointer to the current one; the result is the
same. Called in any state whose pointer leads to a scope, every function of the grammar does what it
does inside the frames that the links lead to, and however it ends, the pointer is where it was and
no scope that existed has changed. -/
theorem scope_checks_separate (source : String) :
    (Clean (parse source).2 → (parse source).2 = (parse source).1.nameErrors) ∧
    (∀ n, (Linked.ending (Linked.programStatements n 0 (.ofTokens (tokens source)))).scope = some 0 ∧
      Linked.run n (tokens source) = Parse.run n (tokens source)) ∧
    ∀ n (s : Linked.State), s.Sound → ∀ {α : Type} (c : Parse.Call α),
      Linked.plain (Linked.call n c s) = c.reader n s.frames s.toReaderState ∧
        s.Kept (Linked.ending (Linked.call n c s)) := by
  refine ⟨fun hclean => ?_, fun n => Linked.programStatements_ofTokens n _, fun n s hs α c => ?_⟩
  · rw [Program.nameErrors_eq]
    exact (reads_of_parse hclean).errors
  · exact (Linked.agree n).call c s.frames s hs rfl

/-- Names in every kind of scope: a second declaration, a parameter over a constant, a constant of a
loop, and an assignment that comes before the declaration in its own list. -/
def scopedText : String :=
  "const c = 1; let c = func(c) \x7b c = 2; \x7d; for (const i = 0; true; i++) \x7b i = c; \x7d " ++
    "if (c) \x7b c = 3; const c = 4; c++; \x7d else if (c) \x7b c = 5; \x7d"

theorem scope_checks_separate_scopedText :
    (parse scopedText).2 = (parse scopedText).1.nameErrors ∧ (parse scopedText).2.length = 6 ∧
      (Linked.State.ofTokens (tokens scopedText)).Kept
        (Linked.ending (Linked.call 99 .statement (.ofTokens (tokens scopedText)))) := by
  obtain ⟨hpass, -, hcalls⟩ := scope_checks_separate scopedText
  have hsound := (Linked.State.stands_ofTokens (tokens scopedText)).sound
  exact ⟨hpass (by unfold Clean; decide +kernel), by decide +kernel,
    (hcalls 99 _ hsound .statement).2⟩

end Vorn
