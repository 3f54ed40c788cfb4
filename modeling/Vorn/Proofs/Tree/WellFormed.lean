import Vorn.Number.Decimal
import Vorn.Number.Numeral
import Vorn.Proofs.Token.Lexing
import Vorn.Proofs.Tree.Nodes

/-!
# Well-formed trees

A node is well-formed if its names, digits and texts can be written as tokens, its number is the
one that its digits stand for, the part that an `if` or `while` cannot do without is there, and
the first clause of a `for` is one that may stand there.
Every node of an accepted program is (`Vorn.Proofs.Grammar.Accepted`).

A node has a plain head if the source form of its first operand cannot run into what follows it:
an assignment takes all that follows for its own value, and a point behind an integer is taken for
a decimal point.
-/

namespace Vorn

/-- The statements that may be the first clause of a `for`. -/
def Stmt.isClause : Stmt → Bool
  | .expr _ _ _ | .declare _ _ _ _ => true
  | _ => false

namespace Node

def WellFormed : Node → Prop
  | expr (.ident _ name) => IsName name
  | expr (.int _ written value) => IsWhole written ∧ Numeral.read? written = some value
  | expr (.float _ written value) =>
    IsFraction written ∧ value = (Decimal.read? written).getD 0
  | expr (.string _ value) => '"' ∉ value.toList
  | expr (.func _ params _) => ∀ x ∈ params, IsName x
  | expr (.cond _ condition _ _) => condition.isSome = true
  | expr (.member _ _ _ name) => IsName name
  | expr (.method _ _ _ name _ _) => IsName name
  | expr (.assign _ name _) => IsName name
  | expr (.step _ _ name _) => IsName name
  | stmt (.declare _ _ name _) => IsName name
  | stmt (.while _ condition _) => condition.isSome = true
  | stmt (.for _ init _ _ _) => ∀ s ∈ init, s.isClause = true
  | stmt (.func _ name params _) => IsName name ∧ ∀ x ∈ params, IsName x
  | _ => True

end Node

def Expr.isAssign : Expr → Bool
  | .assign _ _ _ => true
  | _ => false

def Expr.isInt : Expr → Bool
  | .int _ _ _ => true
  | _ => false

/-- No assignment is the left operand of an operator, what is indexed, what is called or the
receiver of a member, and no integer is the receiver of a member. -/
def Node.plainHead : Node → Bool
  | expr (.binary _ _ left _) => !left.isAssign
  | expr (.call _ callee _) => !callee.isAssign
  | expr (.index _ collection _) => !collection.isAssign
  | expr (.member _ receiver _ _) => !receiver.isAssign && !receiver.isInt
  | expr (.method _ receiver _ _ _ _) => !receiver.isAssign && !receiver.isInt
  | _ => true

/-- Every node has a plain head. -/
def Program.PlainHeads (p : Program) : Prop := ∀ n ∈ p.nodes, n.plainHead = true

instance (p : Program) : Decidable p.PlainHeads :=
  inferInstanceAs (Decidable (∀ n ∈ p.nodes, n.plainHead = true))

/-- All of the nodes are well-formed and have plain heads. -/
structure Printable (ns : List Node) : Prop where
  wellFormed : ∀ n ∈ ns, n.WellFormed
  plainHead : ∀ n ∈ ns, n.plainHead = true

namespace Printable

variable {n : Node} {ms ns : List Node}

@[simp] theorem nil : Printable [] := ⟨by simp, by simp⟩

theorem cons_iff :
    Printable (n :: ns) ↔ (n.WellFormed ∧ n.plainHead = true) ∧ Printable ns := by
  constructor
  · rintro ⟨hw, hp⟩
    exact ⟨⟨hw n (by simp), hp n (by simp)⟩, fun m hm => hw m (by simp [hm]),
      fun m hm => hp m (by simp [hm])⟩
  · rintro ⟨⟨hw, hp⟩, hws, hps⟩
    exact ⟨List.forall_mem_cons.mpr ⟨hw, hws⟩, List.forall_mem_cons.mpr ⟨hp, hps⟩⟩

theorem append_iff : Printable (ms ++ ns) ↔ Printable ms ∧ Printable ns := by
  constructor
  · rintro ⟨hw, hp⟩
    rw [List.forall_mem_append] at hw hp
    exact ⟨⟨hw.1, hp.1⟩, ⟨hw.2, hp.2⟩⟩
  · rintro ⟨hm, hn⟩
    exact ⟨List.forall_mem_append.mpr ⟨hm.1, hn.1⟩, List.forall_mem_append.mpr ⟨hm.2, hn.2⟩⟩

end Printable

end Vorn
