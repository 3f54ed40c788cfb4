import Vorn.Proofs.Eval.Run
import Vorn.Proofs.Store.Growth
import Vorn.Proofs.Text.Occurrences

/-!
# Splitting and joining

The methods `split`, `join`, `replace` and `contains` fit together (`split_join_replace_contains`).
The parts that `split` gives are those of `Text.Cut`; joining them with the separator gives the text
back, joining them with another text replaces the separator, and there are two or more of them
exactly if the text contains the separator.
-/

namespace Vorn

open Run Eval

namespace Text

/-- The parts of a text as values that come from `pos`. -/
def partValues (pos : Pos) (parts : List (List Char)) : Array Value :=
  (parts.map fun cs => Value.string (.ofList cs) pos).toArray

/-- `text.split(sep).join(glue)` -/
def splitJoin (settings : Settings) (namePos pos p q : Pos) (text sep glue : String) :
    Script Value := do
  let parts ← callMethod settings (.string text pos) namePos "split" [.string sep p]
  callMethod settings parts namePos "join" [.string glue q]

end Text

theorem Store.inspect?_string (s : Store) (text : String) (pos : Pos) :
    s.inspect? (.string text pos) = some text := by
  rw [inspect?, snapshot?]
  cases s.collections <;> rfl

theorem Run.mapM_inspect_strings (pos : Pos) (parts : List (List Char)) (s : State) :
    (Text.partValues pos parts).toList.mapM inspect s = .ok (parts.map String.ofList) s := by
  rw [Text.partValues]
  induction parts with
  | nil => rfl
  | cons part parts ih =>
    rw [List.map_cons, List.mapM_cons, run_bind, run_inspect (s.store.inspect?_string _ pos)]
    dsimp only
    rw [run_bind, ih]
    rfl

namespace Eval

variable (settings : Settings) (namePos pos p q : Pos) (s : State) (text sep glue : String)

theorem callMethod_split :
    callMethod settings (.string text pos) namePos "split" [.string sep p] s =
      .done (.ok (.array ⟨s.store.arrays.size⟩ pos)
        { s with store := (s.store.newArray
          (Text.partValues pos (Text.split sep.toList text.toList))).2 }) := rfl

theorem callMethod_join {r : ArrayRef} {parts : List (List Char)}
    (hparts : s.store.array r = Text.partValues p parts) :
    callMethod settings (.array r pos) namePos "join" [.string glue q] s =
      .done (.ok (.string (.ofList (glue.toList.intercalate parts)) pos) s) := by
  have htext : String.intercalate glue (parts.map String.ofList) =
      .ofList (glue.toList.intercalate parts) := by
    rw [← String.toList_inj, String.toList_intercalate, String.toList_ofList, List.map_map]
    simp [Function.comp_def]
  have hjoined : ArrayMethod.joined r glue pos s =
      .ok (.string (.ofList (glue.toList.intercalate parts)) pos) s := by
    rw [ArrayMethod.joined, run_bind, show elements r s = .ok (s.store.array r) s from rfl]
    dsimp only
    rw [run_bind, hparts, mapM_inspect_strings]
    dsimp only
    rw [htext]
    rfl
  exact congrArg Step.done hjoined

theorem run_splitJoin :
    Text.splitJoin settings namePos pos p q text sep glue s =
      .done (.ok (.string (.ofList (glue.toList.intercalate
        (Text.split sep.toList text.toList))) pos)
          { s with store := (s.store.newArray
            (Text.partValues pos (Text.split sep.toList text.toList))).2 }) := by
  rw [Text.splitJoin, Script.run_bind, callMethod_split]
  exact callMethod_join settings namePos pos pos q _ glue (s.store.array_newArray _)

end Eval

/-- **Splitting, joining, replacing and testing fit together.** Splitting a text and joining the
parts with the same separator gives the text, also if the separator or the text is empty. For a
separator that is not empty the parts are those between its occurrences, taken from the left and
without overlap; replacing the separator by a text is joining the parts with that text, and the text
contains the separator exactly if there are two parts or more. Only the array of the parts is new in
the state. -/
theorem split_join_replace_contains (settings : Settings) (namePos pos p q : Pos) (s : State)
    (text : String) :
    (∀ sep : String, ∃ parts : Array Value,
      Text.splitJoin settings namePos pos p q text sep sep s =
        .done (.ok (.string text pos) { s with store := (s.store.newArray parts).2 })) ∧
    ∀ old : String, old ≠ "" → ∃ parts, Text.Cut old.toList text.toList parts ∧
      let split : State :=
        { s with store := (s.store.newArray (Text.partValues pos parts)).2 }
      callMethod settings (.string text pos) namePos "split" [.string old p] s =
        .done (.ok (.array ⟨s.store.arrays.size⟩ pos) split) ∧
      (∀ new : String, ∃ result,
        callMethod settings (.string text pos) namePos "replace" [.string old p, .string new q] s =
          .done (.ok (.string result pos) s) ∧
        Text.splitJoin settings namePos pos p q text old new s =
          .done (.ok (.string result pos) split)) ∧
      callMethod settings (.string text pos) namePos "contains" [.string old p] s =
        .done (.ok (.bool (decide (2 ≤ parts.length))) s) := by
  refine ⟨fun sep => ⟨Text.partValues pos (Text.split sep.toList text.toList), ?_⟩,
    fun old hold => ⟨Text.split old.toList text.toList, ?_⟩⟩
  · rw [run_splitJoin, Text.intercalate_split, String.ofList_toList]
  · have hold' : old.toList ≠ [] := by
      rwa [Ne, String.toList_eq_nil_iff]
    have hcut := Text.cut_split hold' text.toList
    have hcontains : Text.occurs old.toList text.toList =
        decide (2 ≤ (Text.split old.toList text.toList).length) := by
      rw [Bool.eq_iff_iff, Text.occurs_iff, decide_eq_true_iff, hcut.two_le_length_iff]
    refine ⟨hcut, callMethod_split settings namePos pos p s text old, fun new => ⟨_, rfl, ?_⟩, ?_⟩
    · rw [run_splitJoin, Text.replace_eq_intercalate hold']
    · rw [← hcontains]
      rfl

/-- A separator that overlaps itself and stands at both ends of the text. -/
theorem split_join_replace_contains_overlapping :
    ("aa" : String) ≠ "" ∧ ∃ parts split, Text.Cut "aa".toList "aaabaaa".toList parts ∧
      callMethod {} (.string "aaabaaa" .start) .start "replace"
        [.string "aa" .start, .string "x" .start] default =
          .done (.ok (.string "xabxa" .start) default) ∧
      Text.splitJoin {} .start .start .start .start "aaabaaa" "aa" "x" default =
        .done (.ok (.string "xabxa" .start) split) := by
  have hold : ("aa" : String) ≠ "" := by decide
  have hresult : Text.replace "aa".toList "x".toList "aaabaaa".toList = "xabxa".toList := by
    simp [Text.replace, Text.replaceFrom]
  obtain ⟨parts, hcut, -, hreplace, -⟩ :=
    (split_join_replace_contains {} .start .start .start .start default "aaabaaa").2 "aa" hold
  obtain ⟨result, hcall, hjoin⟩ := hreplace "x"
  have htext : callMethod {} (.string "aaabaaa" .start) .start "replace"
      [.string "aa" .start, .string "x" .start] default =
        .done (.ok (.string "xabxa" .start) default) := by
    change Step.done (.ok (Value.string (.ofList (Text.replace "aa".toList "x".toList
      "aaabaaa".toList)) .start) default) = _
    rw [hresult]
    rfl
  rw [htext] at hcall
  cases hcall
  exact ⟨hold, parts, _, hcut, htext, hjoin⟩

end Vorn
