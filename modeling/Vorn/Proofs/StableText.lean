import Vorn.Proofs.RoundTrip
import Vorn.Proofs.Tree.Regroup

/-!
# Printing what was printed

Reading the source form of a program and printing the result again gives the same text
(`text_parse_text`), although the tree may be another one: a call of an assignment comes back as
the assignment of a call. Three things stand in the way, and each is seen on a program of one line
(`text_changed_by_reading`):

* an assignment as the left operand, what is indexed or the receiver, also one with a call behind
  it: it is printed without parentheses and takes the operator for its own;
* an integer as the receiver of a member: the point is read as a decimal point;
* a called assignment to a const, which only in its new form counts as an assignment.
-/

namespace Vorn

/-- **The printed text is stable.** The text of an accepted program is accepted again and printed
as it was, if the program has plain heads and breaks no rule on names once its calls of assignments
are moved into the assigned values. What is read is the program with these calls moved. -/
theorem text_parse_text {source : String} {p : Program} (h : parse? source = .ok p)
    (hp : p.regroup.PlainHeads) (hs : p.regroup.scopeErrors = []) :
    ∃ q, parse? p.text = .ok q ∧ q.text = p.text ∧ q.shape = p.regroup.shape := by
  have hprintable : Printable p.regroup.nodes :=
    ⟨Program.wellFormed_regroup (wellFormed_of_accepted h), hp⟩
  obtain ⟨q, hq, hshape⟩ :=
    parse_of_tokens (Program.bare_text hprintable) (Program.reread hprintable hs)
  rw [Program.text_regroup] at hq
  exact ⟨q, hq, (Program.text_eq_of_shape hshape).trans p.text_regroup, hshape⟩

/-- A function that is called where it is assigned, as an operand and as an argument. -/
def calledAssignments : String :=
  "let f = 0; 2 + (f = func(a) \x7b return a; \x7d)((f = f)(1));"

theorem text_parse_text_called_assignments :
    ∃ p, parse? calledAssignments = .ok p ∧ ¬ p.PlainHeads ∧ p.regroup.PlainHeads ∧
      p.regroup.scopeErrors = [] ∧
      ∃ q, parse? p.text = .ok q ∧ q.text = p.text ∧ q.shape = p.regroup.shape := by
  obtain ⟨herrors, hheads, hp, hs⟩ : (parse calledAssignments).2 = [] ∧
      ¬ (parse calledAssignments).1.PlainHeads ∧
      (parse calledAssignments).1.regroup.PlainHeads ∧
      (parse calledAssignments).1.regroup.scopeErrors = [] := by decide +kernel
  have h : parse? calledAssignments = .ok (parse calledAssignments).1 :=
    parse?_eq_ok.mpr (Prod.ext rfl herrors)
  exact ⟨_, h, hheads, hp, hs, text_parse_text h hp hs⟩

/-- The text of the first program is accepted and printed differently, and those of the other two
are rejected. -/
theorem text_changed_by_reading :
    ((parse "let x = 0; (x = 1) + 2;").2 = [] ∧
        (parse (parse "let x = 0; (x = 1) + 2;").1.text).2 = [] ∧
        (parse "let x = 0; (x = 1) + 2;").1.text = "let x = 0;\n(x = 1 + 2);" ∧
        (parse (parse "let x = 0; (x = 1) + 2;").1.text).1.text = "let x = 0;\nx = (1 + 2);") ∧
      ((parse "1 .x").2 = [] ∧ (parse (parse "1 .x").1.text).2 ≠ []) ∧
      ((parse "const f = len; (f = f)([])").2 = [] ∧
        (parse (parse "const f = len; (f = f)([])").1.text).2 ≠ []) := by
  decide +kernel

end Vorn
