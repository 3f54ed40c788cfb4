import Vorn.Proofs.Grammar.Accepted
import Vorn.Proofs.Grammar.Positions
import Vorn.Proofs.Grammar.Reread
import Vorn.Proofs.Tree.Text

/-!
# Printing and reading again

The source form of an accepted program is accepted again and says the same (`shape_parse_text`),
if no assignment and no integer stands where the text behind it would become part of it
(`Program.PlainHeads`). What changes are marks: positions, and the first token that an expression
statement remembers, since an operator is printed with parentheses around it
(`literal_changed_by_parentheses`).

The proof goes through the tokens: the text of the program falls into the tokens of its tree
(`Program.bare_text`), these are read as the tree (`Program.reread`), and the positions of the
tokens do not matter (`parse_of_bare`).
-/

namespace Vorn

theorem printable_of_accepted {source : String} {p : Program} (h : parse? source = .ok p)
    (hp : p.PlainHeads) : Printable p.nodes :=
  ⟨wellFormed_of_accepted h, hp⟩

/-- What is read from a text whose tokens, without their places, are those of a program. -/
theorem parse_of_tokens {source : String} {p : Program} (hts : Scan.bare source.toList = p.tokens)
    (hrun : Parse.run (Parse.fuel p.tokens) p.tokens = some (p.mark .printed, [])) :
    ∃ q, parse? source = .ok q ∧ q.shape = p.shape := by
  obtain ⟨q, hparse, hmark⟩ := parse_of_bare hts hrun
  refine ⟨q, parse?_eq_ok.mpr hparse, ?_⟩
  calc q.shape = (q.mark (.moved fun _ => .start)).shape := (Program.shape_mark _ _).symm
    _ = (p.mark .printed).shape := by rw [hmark]
    _ = p.shape := p.shape_mark _

/-- **Round trip.** The text of an accepted program whose heads are plain is accepted, and its tree
has the same nodes with the same names, operators, spellings, values and clauses. -/
theorem shape_parse_text {source : String} {p : Program} (h : parse? source = .ok p)
    (hp : p.PlainHeads) : ∃ q, parse? p.text = .ok q ∧ q.shape = p.shape := by
  have hprintable := printable_of_accepted h hp
  exact parse_of_tokens (Program.bare_text hprintable)
    (Program.reread hprintable (scopeErrors_of_accepted h))

/-- A function with a compound assignment, a method, an index and an `else if`. -/
def sample : String :=
  "func f(a) \x7b if (a) \x7b \x7d else if (1) \x7b a += -a.g()[0] \x7d \x7d"

theorem shape_parse_text_sample :
    ∃ p, parse? sample = .ok p ∧ p.PlainHeads ∧ p.nodes.length = 16 ∧
      ∃ q, parse? p.text = .ok q ∧ q.shape = p.shape := by
  obtain ⟨herrors, hp, hlength⟩ : (parse sample).2 = [] ∧ (parse sample).1.PlainHeads ∧
      (parse sample).1.nodes.length = 16 := by decide +kernel
  have h : parse? sample = .ok (parse sample).1 := parse?_eq_ok.mpr (Prod.ext rfl herrors)
  exact ⟨_, h, hp, hlength, shape_parse_text h hp⟩

/-- The first token of `1 + 2` is a number, and that of its text `(1 + 2)` a parenthesis: without
their positions the two trees still differ. -/
theorem literal_changed_by_parentheses :
    (parse "1 + 2;").2 = [] ∧ (parse "1 + 2;").1.PlainHeads ∧
      (parse (parse "1 + 2;").1.text).1.mark (.moved fun _ => .start) ≠
        (parse "1 + 2;").1.mark (.moved fun _ => .start) := by
  refine ⟨by decide +kernel, by decide +kernel, fun h => ?_⟩
  exact absurd (congrArg Program.literal h) (by decide +kernel)

end Vorn
