import Mathlib.Data.List.Infix
import Vorn.Text.Search

/-!
# Occurrences in a text

What the parts of a text are is said by `Cut`: the first part ends where the separator first occurs,
and what stands behind that occurrence is cut in the same way; a text in which the separator does
not occur is one part. Splitting, replacing and testing are all described by it.

* `cut_split`: splitting cuts a text.
* `Cut.intercalate_eq`, `Cut.two_le_length_iff`: what the parts say about the text.
* `replace_eq_intercalate`: replacing puts the new text between the parts.
* `occurs_iff`: the test finds an occurrence wherever it stands.

The proofs go along the text: an occurrence at its head is taken as a whole, any other character by
itself (`search_induction`).
-/

namespace Vorn.Text

/-- A text is read from the left, occurrence by occurrence and character by character. -/
theorem search_induction {sep : List Char} (hsep : sep ≠ []) {motive : List Char → Prop}
    (nil : motive []) (occurrence : ∀ rest, motive rest → motive (sep ++ rest))
    (skip : ∀ c cs, ¬ sep <+: c :: cs → motive cs → motive (c :: cs)) (text : List Char) :
    motive text := by
  match text with
  | [] => exact nil
  | c :: cs =>
    by_cases hprefix : sep <+: c :: cs
    · obtain ⟨rest, hrest⟩ := hprefix
      have hlength : rest.length < cs.length + 1 := by
        have hpos : 0 < sep.length := List.length_pos_iff.mpr hsep
        have hsum := congrArg List.length hrest
        rw [List.length_append, List.length_cons] at hsum
        omega
      rw [← hrest]
      exact occurrence rest (search_induction hsep nil occurrence skip rest)
    · exact skip c cs hprefix (search_induction hsep nil occurrence skip cs)
termination_by text.length

/-! ## Splitting, step by step -/

section

variable (s : Char) (sep : List Char)

/-- What was read before stands in front of the parts that come. -/
theorem splitFrom_eq (part : List Char) (parts : List (List Char)) (input : List Char) :
    splitFrom s sep part parts input =
      parts.reverse ++ (split (s :: sep) input).modifyHead (part.reverse ++ ·) := by
  change _ = parts.reverse ++ (splitFrom s sep [] [] input).modifyHead (part.reverse ++ ·)
  generalize hn : input.length = n
  induction n using Nat.strongRecOn generalizing part parts input with
  | ind n ih =>
    match input with
    | [] => simp [splitFrom]
    | c :: cs =>
      have hcs : cs.length < n := by rw [← hn, List.length_cons]; omega
      have hdrop : (cs.drop sep.length).length < n := by rw [List.length_drop]; omega
      rw [splitFrom, splitFrom]
      split
      · rw [ih _ hdrop [] _ _ rfl, ih _ hdrop [] [[].reverse] _ rfl]
        simp
      · rw [ih _ hcs (c :: part) _ _ rfl, ih _ hcs [c] _ _ rfl]
        simp [List.modifyHead_modifyHead, Function.comp_def]

/-- What was written before stands in front. -/
theorem replaceFrom_eq (new done input : List Char) :
    replaceFrom s sep new done input = done.reverse ++ replace (s :: sep) new input := by
  change _ = done.reverse ++ replaceFrom s sep new [] input
  generalize hn : input.length = n
  induction n using Nat.strongRecOn generalizing done input with
  | ind n ih =>
    match input with
    | [] => simp [replaceFrom]
    | c :: cs =>
      have hcs : cs.length < n := by rw [← hn, List.length_cons]; omega
      have hdrop : (cs.drop sep.length).length < n := by rw [List.length_drop]; omega
      rw [replaceFrom, replaceFrom]
      split
      · rw [ih _ hdrop (new.reverse ++ done) _ rfl, ih _ hdrop (new.reverse ++ []) _ rfl]
        simp
      · rw [ih _ hcs (c :: done) _ rfl, ih _ hcs [c] _ rfl]
        simp

end

section

variable {sep old new : List Char}

theorem split_nil (hsep : sep ≠ []) : split sep [] = [[]] := by
  cases sep with
  | nil => exact absurd rfl hsep
  | cons s sep => simp [split, splitFrom]

theorem split_append (hsep : sep ≠ []) (rest : List Char) :
    split sep (sep ++ rest) = [] :: split sep rest := by
  cases sep with
  | nil => exact absurd rfl hsep
  | cons s sep =>
    have hprefix : (s :: sep).isPrefixOf (s :: (sep ++ rest)) = true :=
      List.isPrefixOf_iff_prefix.mpr ⟨rest, rfl⟩
    conv_lhs => rw [split, List.cons_append, splitFrom]
    rw [if_pos hprefix, List.drop_left, splitFrom_eq]
    change [[]] ++ (split (s :: sep) rest).modifyHead id = _
    rw [List.modifyHead_id]
    rfl

theorem split_cons {c : Char} {cs : List Char} (h : ¬ sep <+: c :: cs) :
    split sep (c :: cs) = (split sep cs).modifyHead (c :: ·) := by
  cases sep with
  | nil => exact absurd (List.nil_prefix) h
  | cons s sep =>
    have hprefix : ¬ (s :: sep).isPrefixOf (c :: cs) = true := by
      rwa [List.isPrefixOf_iff_prefix]
    conv_lhs => rw [split, splitFrom]
    rw [if_neg hprefix, splitFrom_eq]
    rfl

theorem replace_nil (hold : old ≠ []) : replace old new [] = [] := by
  cases old with
  | nil => exact absurd rfl hold
  | cons s old => simp [replace, replaceFrom]

theorem replace_append (hold : old ≠ []) (rest : List Char) :
    replace old new (old ++ rest) = new ++ replace old new rest := by
  cases old with
  | nil => exact absurd rfl hold
  | cons s old =>
    have hprefix : (s :: old).isPrefixOf (s :: (old ++ rest)) = true :=
      List.isPrefixOf_iff_prefix.mpr ⟨rest, rfl⟩
    conv_lhs => rw [replace, List.cons_append, replaceFrom]
    rw [if_pos hprefix, List.drop_left, replaceFrom_eq]
    simp

theorem replace_cons {c : Char} {cs : List Char} (h : ¬ old <+: c :: cs) :
    replace old new (c :: cs) = c :: replace old new cs := by
  cases old with
  | nil => exact absurd (List.nil_prefix) h
  | cons s old =>
    have hprefix : ¬ (s :: old).isPrefixOf (c :: cs) = true := by
      rwa [List.isPrefixOf_iff_prefix]
    conv_lhs => rw [replace, replaceFrom]
    rw [if_neg hprefix, replaceFrom_eq]
    rfl

end

/-! ## The parts of a text -/

/-- The parts of a text between the occurrences of the separator that are found from the left and
do not overlap. -/
inductive Cut (sep : List Char) : List Char → List (List Char) → Prop
  | whole {text : List Char} (h : ¬ sep <:+: text) : Cut sep text [text]
  /-- Behind `part` the separator occurs, and nowhere before. -/
  | first {part rest : List Char} {parts : List (List Char)}
      (hfirst : ∀ a b, part ++ sep ++ rest = a ++ sep ++ b → part.length ≤ a.length)
      (h : Cut sep rest parts) : Cut sep (part ++ sep ++ rest) (part :: parts)

section

variable {sep old new text : List Char} {parts : List (List Char)}

/-- A character that starts no occurrence belongs to the first part. -/
theorem Cut.cons {c : Char} (h : ¬ sep <+: c :: text) (hcut : Cut sep text parts) :
    Cut sep (c :: text) (parts.modifyHead (c :: ·)) := by
  cases hcut with
  | whole hnone => exact .whole fun hinfix => (List.infix_cons_iff.mp hinfix).elim h hnone
  | @first part rest parts hfirst hrest =>
    change Cut sep (c :: part ++ sep ++ rest) ((c :: part) :: parts)
    refine .first (fun a b heq => ?_) hrest
    cases a with
    | nil => exact absurd ⟨b, heq.symm⟩ h
    | cons a as =>
      have htail : part ++ sep ++ rest = as ++ sep ++ b := (List.cons.inj heq).2
      exact Nat.succ_le_succ (hfirst as b htail)

/-- **Splitting cuts a text at the occurrences of the separator.** -/
theorem cut_split (hsep : sep ≠ []) (text : List Char) : Cut sep text (split sep text) := by
  induction text using search_induction hsep with
  | nil => exact split_nil hsep ▸ .whole fun hinfix => hsep (List.infix_nil.mp hinfix)
  | occurrence rest ih =>
    rw [split_append hsep]
    change Cut sep ([] ++ sep ++ rest) ([] :: split sep rest)
    exact .first (fun _ _ _ => Nat.zero_le _) ih
  | skip c cs hprefix ih =>
    rw [split_cons hprefix]
    exact ih.cons hprefix

theorem Cut.ne_nil (h : Cut sep text parts) : parts ≠ [] := by
  cases h <;> exact List.cons_ne_nil _ _

/-- The parts with separators between them are the text. -/
theorem Cut.intercalate_eq (h : Cut sep text parts) : sep.intercalate parts = text := by
  induction h with
  | whole => exact List.intercalate_singleton
  | first _ h ih => rw [List.intercalate_cons_of_ne_nil h.ne_nil, ih]

/-- There is more than one part exactly if the separator occurs. -/
theorem Cut.two_le_length_iff (h : Cut sep text parts) : 2 ≤ parts.length ↔ sep <:+: text := by
  cases h with
  | whole hnone => simpa using hnone
  | first _ h =>
    have hpos : 0 < _ := List.length_pos_iff.mpr h.ne_nil
    refine ⟨fun _ => ⟨_, _, rfl⟩, fun _ => ?_⟩
    rw [List.length_cons]
    omega

theorem intercalate_characters (text : List Char) : [].intercalate (text.map ([·])) = text := by
  induction text with
  | nil => rfl
  | cons c cs ih =>
    cases cs with
    | nil => rfl
    | cons d cs =>
      rw [List.map_cons] at ih ⊢
      rw [List.map_cons, List.intercalate_cons_cons, ih]
      rfl

/-- Separators between the parts give the text back; so does the empty one, whose parts are the
single characters. -/
theorem intercalate_split (sep text : List Char) : sep.intercalate (split sep text) = text := by
  by_cases hsep : sep = []
  · subst hsep
    exact intercalate_characters text
  · exact (cut_split hsep text).intercalate_eq

/-- A character in front of the first part stands in front of all. -/
theorem intercalate_modifyHead {c : Char} (hparts : parts ≠ []) :
    sep.intercalate (parts.modifyHead (c :: ·)) = c :: sep.intercalate parts := by
  cases parts with
  | nil => exact absurd rfl hparts
  | cons part parts =>
    cases parts with
    | nil => simp
    | cons => simp [List.intercalate_cons_cons]

/-- **Replacing puts the new text between the parts.** -/
theorem replace_eq_intercalate (hold : old ≠ []) (new text : List Char) :
    replace old new text = new.intercalate (split old text) := by
  induction text using search_induction hold with
  | nil => simp [replace_nil hold, split_nil hold]
  | occurrence rest ih =>
    rw [replace_append hold, split_append hold,
      List.intercalate_cons_of_ne_nil (cut_split hold rest).ne_nil, ih]
    rfl
  | skip c cs hprefix ih =>
    rw [replace_cons hprefix, split_cons hprefix,
      intercalate_modifyHead (cut_split hold cs).ne_nil, ih]

theorem occurs_iff : occurs sep text = true ↔ sep <:+: text := by
  induction text with
  | nil => rw [occurs, List.isEmpty_iff, List.infix_nil]
  | cons c cs ih =>
    rw [occurs, Bool.or_eq_true, List.isPrefixOf_iff_prefix, ih, List.infix_cons_iff]

end

end Vorn.Text
