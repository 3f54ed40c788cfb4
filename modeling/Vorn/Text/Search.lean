/-!
# Searching, splitting and replacing

Occurrences of a text are found from the left and do not overlap.
-/

namespace Vorn.Text

/-- `sub` occurs somewhere in the text. -/
def occurs (sub : List Char) : List Char → Bool
  | [] => sub.isEmpty
  | c :: cs => sub.isPrefixOf (c :: cs) || occurs sub cs

/-- The parts between the occurrences of the separator `s :: sep`; `part` is the part read so far
and `parts` are those before it, both reversed. -/
def splitFrom (s : Char) (sep part : List Char) (parts : List (List Char)) :
    List Char → List (List Char)
  | [] => (part.reverse :: parts).reverse
  | c :: cs =>
    if (s :: sep).isPrefixOf (c :: cs) then
      splitFrom s sep [] (part.reverse :: parts) (cs.drop sep.length)
    else splitFrom s sep (c :: part) parts cs
termination_by input => input.length
decreasing_by all_goals (simp only [List.length_drop, List.length_cons]; omega)

/-- The parts of a text between the occurrences of a separator. The empty separator gives the
single characters. -/
def split (sep input : List Char) : List (List Char) :=
  match sep with
  | [] => input.map ([·])
  | s :: sep => splitFrom s sep [] [] input

/-- Puts `new` in place of each occurrence of `s :: old`; `done` is the result so far,
reversed. -/
def replaceFrom (s : Char) (old new done : List Char) : List Char → List Char
  | [] => done.reverse
  | c :: cs =>
    if (s :: old).isPrefixOf (c :: cs) then
      replaceFrom s old new (new.reverse ++ done) (cs.drop old.length)
    else replaceFrom s old new (c :: done) cs
termination_by input => input.length
decreasing_by all_goals (simp only [List.length_drop, List.length_cons]; omega)

/-- Puts `new` in place of each occurrence of `old`. The empty text occurs before every character
and at the end. -/
def replace (old new input : List Char) : List Char :=
  match old with
  | [] => new ++ input.flatMap (fun c => c :: new)
  | s :: old => replaceFrom s old new [] input

end Vorn.Text
