/-!
# Positions in source text

Every token, tree node and runtime value knows where in the source it came from. Lines count
from 1. Columns count the characters read so far on the line plus one, so the first character
of a line stands in column 2.
-/

namespace Vorn

/-- A place in source text. -/
structure Pos where
  line : Nat
  column : Nat
deriving DecidableEq, Repr, Inhabited

namespace Pos

/-- Where the first character of a text stands. -/
def start : Pos := ⟨1, 2⟩

/-- The place that the shared values `null`, `true` and `false` report. -/
def shared : Pos := ⟨1, 1⟩

/-- The place that values without a source text (the built-in functions) report. -/
def unknown : Pos := ⟨0, 0⟩

/-- The place behind the character `c` that stands at `p`. -/
def next (p : Pos) (c : Char) : Pos :=
  if c = '\n' then ⟨p.line + 1, 2⟩ else ⟨p.line, p.column + 1⟩

/-- The place behind the text `cs` that starts at `p`. -/
def after (p : Pos) (cs : List Char) : Pos := cs.foldl next p

/-- The written form, `[line:column]`. -/
def text (p : Pos) : String := s!"[{p.line}:{p.column}]"

@[simp] theorem after_nil (p : Pos) : p.after [] = p := rfl

@[simp] theorem after_cons (p : Pos) (c : Char) (cs : List Char) :
    p.after (c :: cs) = (p.next c).after cs := rfl

theorem after_append (p : Pos) (cs ds : List Char) :
    p.after (cs ++ ds) = (p.after cs).after ds := by
  simp [after]

end Pos

end Vorn
