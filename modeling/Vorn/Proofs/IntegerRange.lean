import Vorn.Proofs.Eval.NodeRule
import Vorn.Proofs.Eval.Program
import Vorn.Proofs.Eval.Values
import Vorn.Proofs.Grammar.Accepted

/-!
# Integers keep to 64 bits

Every integer that occurs while source texts run, in a binding, an array, a hash, an argument or a
result, lies between the least and the greatest number of 64 bits, as long as no array and no text
is longer than the greatest one (`Session.integers_inRange`).

Integers come from the literals of an accepted program, which are in range, from arithmetic, which
wraps, and from lengths and indices. The rule behind it (`NodeRule.word`) asks of each node that a
literal is in range.
-/

namespace Vorn

/-! ## Values -/

/-- The integer in a value. -/
def Value.ints : Value → List Int
  | .int n _ => [n]
  | .returned _ v _ => v.ints
  | _ => []

/-- The text in a value. -/
def Value.texts : Value → List String
  | .string s _ => [s]
  | .returned _ v _ => v.texts
  | _ => []

namespace Moment

/-- No array and no text is longer than an integer can count. -/
structure Moderate (m : Moment) : Prop where
  arrays : ∀ vs ∈ m.state.store.arrays, vs.size < 2 ^ 63
  texts : ∀ v ∈ m.values, ∀ t ∈ v.texts, t.length < 2 ^ 63

instance (m : Moment) : Decidable m.Moderate :=
  decidable_of_iff ((∀ vs ∈ m.state.store.arrays, vs.size < 2 ^ 63) ∧
      ∀ v ∈ m.values, ∀ t ∈ v.texts, t.length < 2 ^ 63)
    ⟨fun ⟨h₁, h₂⟩ => ⟨h₁, h₂⟩, fun ⟨h₁, h₂⟩ => ⟨h₁, h₂⟩⟩

end Moment

/-- The value of a program that ran to its end. -/
def Answer.values : Answer → List Value
  | .ran (.value v) => [v]
  | _ => []

/-- How source texts fare one after the other, and the state behind each. -/
def Session.answers (settings : Settings) : List String → State → List (Answer × State)
  | [], _ => []
  | source :: rest, s =>
    step settings source s :: answers settings rest (step settings source s).2

/-! ## Trees -/

/-- The literal is an integer of 64 bits. -/
def Node.InRange : Node → Prop
  | .expr (.int _ _ n) => Word.InRange n
  | _ => True

theorem Node.WellFormed.inRange {n : Node} (h : n.WellFormed) : n.InRange := by
  cases n with
  | stmt s => trivial
  | expr e =>
    cases e with
    | int pos written value => exact Numeral.inRange_of_read? h.2
    | _ => trivial

/-- Integers are of 64 bits, and so are the literals in all trees. -/
def NodeRule.word : NodeRule where
  ints := .word
  Signals := True
  Keeps := Node.InRange
  literal h := h
  placed h := absurd trivial h
  Assumed := Ints.word.Sizes
  sizes h := h

/-! ## Moments -/

section

variable {L : Law}

/-- The integers of an admitted value are integers of the law. -/
theorem Law.Admits.ints : ∀ {v : Value}, L.Admits v → ∀ n ∈ v.ints, L.ints.Holds n
  | .int n _, h => fun m hm => by
    rw [List.mem_singleton.mp hm]
    exact h
  | .returned _ v _, h => fun n hn => Law.Admits.ints (v := v) h.2 n hn
  | .null, _ | .bool _, _ | .float _ _, _ | .string _ _, _ | .array _ _, _ | .hash _ _, _
  | .function _, _ | .builtin _, _ | .break _ _, _ | .continue _ _, _ => by simp [Value.ints]

end

theorem Contract.At.admits {C : Contract} (hsignals : C.Signals) {w : C.World} {m : Moment}
    (h : C.At w m) : ∀ v ∈ m.values, (C.law w).Admits v := by
  match m, h with
  | .started t s, ⟨hs, hneeds⟩ =>
    exact List.forall_mem_append.mpr ⟨hneeds.values, hs.admits.values⟩
  | .finished t (.ok v s), ⟨hs, _, _, _, hgives⟩ =>
    exact List.forall_mem_cons.mpr ⟨hgives.yields.of_signals hsignals, hs.admits.values⟩
  | .finished _ (.error _ s), (hs : C.Holds w s.store) => exact hs.admits.values

namespace Moment.Moderate

theorem holds_length {n : Nat} (h : n < 2 ^ 63) : Ints.word.Holds n := by
  simp only [Ints.word, Word.InRange, Word.min, Word.max]
  omega

variable {m : Moment}

theorem sized (h : m.Moderate) : Ints.word.Sized m.state.store := fun vs hvs _ hi =>
  holds_length (Nat.lt_of_le_of_lt hi (h.arrays vs hvs))

theorem fits (h : m.Moderate) {v : Value} (hv : v ∈ m.values) : Ints.word.Fits v := by
  cases v with
  | string s pos => exact holds_length (h.texts _ hv s (by simp [Value.texts]))
  | _ => trivial

theorem sizes (h : m.Moderate) : Ints.word.Sizes m := by
  match m, h with
  | .started (.apply _ _ _) _, h =>
    exact ⟨h.sized, fun v hv => h.fits (by simp [values, Task.values, hv])⟩
  | .started (.expr _ _) _, h | .started (.stmt _ _) _, h | .started (.block _ _) _, h =>
    exact h.sized
  | .finished _ (.ok _ _), h => exact ⟨h.sized, h.fits (by simp [values])⟩
  | .finished _ (.error _ _), _ => trivial

end Moment.Moderate

/-! ## Sessions -/

namespace Session

variable {settings : Settings}

/-- One source text, accepted or refused. -/
theorem keeps_step {source : String} {s : State} (hs : NodeRule.word.contract.Holds () s.store)
    (hmoderate : ∀ m ∈ moments settings source s, m.Moderate) :
    (∀ m ∈ moments settings source s, NodeRule.word.contract.At () m) ∧
      NodeRule.word.contract.Holds () (step settings source s).2.store ∧
      ∀ v ∈ (step settings source s).1.values, (NodeRule.word.contract.law ()).Admits v := by
  unfold moments step at *
  cases hparse : parse? source with
  | error errors => exact ⟨by simp, hs, by simp [Answer.values]⟩
  | ok p =>
    rw [hparse] at hmoderate
    have hseq : NodeRule.word.contract.Seq () p.statements Scopes.root :=
      NodeRule.seq fun n hn => (wellFormed_of_accepted hparse n hn).inRange
    obtain ⟨⟨⟩, halong, hstore, hvalue⟩ := NodeRule.discipline.program hs hseq
      fun m hm => (hmoderate m hm).sizes
    refine ⟨fun m hm => ?_, hstore, ?_⟩
    · obtain ⟨_, -, -, hat⟩ := halong.at_of_mem hm
      exact hat
    · dsimp only
      cases houtcome : (run settings p s).1 with
      | value v => simpa [Answer.values] using hvalue v houtcome
      | _ => simp [Answer.values]

/-- What a session keeps to, from a state that keeps to it. -/
theorem keeps_session {sources : List String} {s : State}
    (hs : NodeRule.word.contract.Holds () s.store)
    (hmoderate : ∀ m ∈ history settings sources s, m.Moderate) :
    (∀ m ∈ history settings sources s, NodeRule.word.contract.At () m) ∧
      ∀ a ∈ answers settings sources s,
        ∀ v ∈ a.1.values ++ a.2.store.values, (NodeRule.word.contract.law ()).Admits v := by
  induction sources generalizing s with
  | nil => simp [history, answers]
  | cons source rest ih =>
    rw [history, List.forall_mem_append] at hmoderate
    obtain ⟨hmoments, hstore, hvalues⟩ := keeps_step hs hmoderate.1
    obtain ⟨hhistory, hanswers⟩ := ih hstore hmoderate.2
    rw [history, answers, List.forall_mem_append, List.forall_mem_cons]
    exact ⟨⟨hmoments, hhistory⟩,
      List.forall_mem_append.mpr ⟨hvalues, hstore.admits.values⟩, hanswers⟩

/-- All integers are of 64 bits: whatever source texts run one after the other, every integer in
any value at any moment, in an answer or in the state behind it, is in range, if no array and no
text at those moments is too long to be counted. -/
theorem integers_inRange (settings : Settings) (sources : List String)
    (hmoderate : ∀ m ∈ history settings sources start, m.Moderate) :
    (∀ m ∈ history settings sources start, ∀ v ∈ m.values, ∀ n ∈ v.ints, Word.InRange n) ∧
      ∀ a ∈ answers settings sources start, ∀ v ∈ a.1.values ++ a.2.store.values,
        ∀ n ∈ v.ints, Word.InRange n := by
  have hstart : NodeRule.word.contract.Holds () start.store := ⟨Law.admitsStore_start, trivial⟩
  obtain ⟨hhistory, hanswers⟩ := keeps_session hstart hmoderate
  exact ⟨fun m hm v hv => ((hhistory m hm).admits trivial v hv).ints,
    fun a ha v hv => (hanswers a ha v hv).ints⟩

/-- The greatest integer and one more, in two source texts. -/
theorem integers_inRange_overflow :
    (answers {} ["let x = 9223372036854775807;", "[x++, x].pop()"] start).map
        (fun a => a.1.values.flatMap Value.ints) = [[], [-9223372036854775808]] ∧
      ∀ m ∈ history {} ["let x = 9223372036854775807;", "[x++, x].pop()"] start,
        ∀ v ∈ m.values, ∀ n ∈ v.ints, Word.InRange n :=
  ⟨by decide +kernel, (integers_inRange {} _ (by decide +kernel)).1⟩

end Session

end Vorn
