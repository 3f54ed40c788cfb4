import Vorn.Proofs.Number.Rounding
import Vorn.Proofs.Sorting

/-!
# Sorting integers

Without a callback `sort` compares integers as floats, while `<` compares the integers themselves.
The two agree as long as the floats tell the integers apart (`ArrayMethod.sort_integers`). Beyond
`2 ^ 53` they need not, and then the sorted array need not go up
(`ArrayMethod.sorted_integers_go_down`).
-/

namespace Vorn

/-- The value is an integer of 64 bits. -/
def Value.IsWord (v : Value) : Prop := ∃ n p, v = .int n p ∧ Word.InRange n

/-- Two integers that round to the same float, one of them too large to be exact. -/
def Value.Rounded (v w : Value) : Prop :=
  ∃ m p n q, v = .int m p ∧ w = .int n q ∧ Rounding.nearest m = Rounding.nearest n ∧
    (2 ^ 53 < m.natAbs ∨ 2 ^ 53 < n.natAbs)

theorem Value.Rounded.symm {v w : Value} : v.Rounded w → w.Rounded v := by
  rintro ⟨m, p, n, q, hv, hw, hsame, hlarge⟩
  exact ⟨n, q, m, p, hw, hv, hsame.symm, hlarge.symm⟩

namespace ArrayMethod

open Run Script Vorn.Order

/-- On integers the natural order is that of the numbers they round to. -/
theorem naturalLe_int {m n : Int} (hm : Word.InRange m) (hn : Word.InRange n) (p q : Pos) :
    naturalLe (.int m p) (.int n q) = decide (Rounding.nearest m ≤ Rounding.nearest n) := by
  simp only [Word.InRange, Word.min, Word.max] at hm hn
  have hlt := Rounding.ofInt_lt_ofInt (a := n) (b := m) (by omega) (by omega)
  simp only [naturalLe, Value.number?, hlt, ← decide_not, Int.not_lt]

theorem totalPreorderOn_naturalLe {vs : List Value} (hvs : ∀ v ∈ vs, v.IsWord) :
    TotalPreorderOn naturalLe vs where
  total x hx y hy := by
    obtain ⟨m, p, rfl, hm⟩ := hvs x hx
    obtain ⟨n, q, rfl, hn⟩ := hvs y hy
    rw [naturalLe_int hm hn, naturalLe_int hn hm, decide_eq_true_iff, decide_eq_true_iff]
    omega
  trans x hx y hy z hz := by
    obtain ⟨m, p, rfl, hm⟩ := hvs x hx
    obtain ⟨n, q, rfl, hn⟩ := hvs y hy
    obtain ⟨k, r, rfl, hk⟩ := hvs z hz
    rw [naturalLe_int hm hn, naturalLe_int hn hk, naturalLe_int hm hk, decide_eq_true_iff,
      decide_eq_true_iff, decide_eq_true_iff]
    omega

/-- What is not greater in the natural order is not greater as an integer, unless both round to the
same float. -/
theorem not_lt_of_naturalLe {v w : Value} (hv : v.IsWord) (hw : w.IsWord)
    (h : naturalLe v w = true) (pos : Pos) :
    Operator.binary pos .lt w v = .ok (.bool false) ∨ v.Rounded w := by
  obtain ⟨m, p, rfl, hm⟩ := hv
  obtain ⟨n, q, rfl, hn⟩ := hw
  rw [naturalLe_int hm hn, decide_eq_true_iff] at h
  by_cases hlt : n < m
  · have hmono := Rounding.nearest_mono (Int.le_of_lt hlt)
    have hsame : Rounding.nearest m = Rounding.nearest n := Int.le_antisymm h hmono
    refine .inr ⟨m, p, n, q, rfl, rfl, hsame, ?_⟩
    by_cases hsmall : m.natAbs ≤ 2 ^ 53 ∧ n.natAbs ≤ 2 ^ 53
    · rw [Rounding.nearest_eq hsmall.1, Rounding.nearest_eq hsmall.2] at hsame
      omega
    · omega
  · exact .inl (congrArg (fun b => (Except.ok (.bool b) : Operator.Result)) (decide_eq_false hlt))

/-- Integers can be compared. -/
theorem not_stopped_of_words {vs : List Value} (hvs : ∀ v ∈ vs, v.IsWord) (s : State) (stop : Stop)
    (u : State) : ¬ Stopped naturalLess vs s stop u := by
  rintro ⟨t, -, x, hx, y, hy, hless⟩
  obtain ⟨m, p, rfl, -⟩ := hvs x hx
  obtain ⟨n, q, rfl, -⟩ := hvs y hy
  cases hless

theorem ordering_natural (pos : Pos) {descending : Bool} {args : List Value} (s : State)
    (hargs : args = [.bool descending] ∨ args = [] ∧ descending = false) :
    ordering pos args s = .ok (fun x y => naturalLess x y, descending) s := by
  rcases hargs with rfl | ⟨rfl, rfl⟩ <;> rfl

/-- **Sorted integers go up as far as floats tell them apart.** Without a callback a call of `sort`
on integers gives a new array, and nothing else changes. The array has the elements of the receiver,
and of any two of them the later one is not less than the earlier one, or not greater if the order
is descending, unless both round to the same float and one of them is beyond `2 ^ 53`. -/
theorem sort_integers (settings : Settings) (depth : Nat) (r : ArrayRef) (pos namePos : Pos)
    (descending : Bool) (args : List Value) (s : State)
    (hargs : args = [.bool descending] ∨ args = [] ∧ descending = false)
    (hwords : ∀ v ∈ (s.store.array r).toList, v.IsWord) :
    ∃ result : Array Value,
      (Eval.callMethod settings (.array r pos) namePos "sort" args).perform
        (Eval.eval settings depth) s = .ok (.array ⟨s.store.arrays.size⟩ pos)
          { s with store := (s.store.newArray result).2 } ∧
      result.toList.Perm (s.store.array r).toList ∧
      result.toList.Pairwise fun v w => ∀ pos,
        (if descending then Operator.binary pos .lt v w else Operator.binary pos .lt w v) =
          .ok (.bool false) ∨ v.Rounded w := by
  have hordering := ordering_natural pos s hargs
  have hplain : ∀ f ∈ args, f.isCallable = false := by
    rcases hargs with rfl | ⟨rfl, rfl⟩ <;> simp [Value.isCallable]
  have hensures := ensures_sortDirected naturalLess (s.store.array r).toList descending s naturalLe
  cases hrun : sortDirected naturalLess (s.store.array r).toList descending s with
  | error stop u => exact absurd (hensures.of_error hrun) (not_stopped_of_words hwords s stop u)
  | ok result t =>
    obtain ⟨hcompared, hperm, hsorted⟩ := hensures.of_ok hrun
    obtain rfl : t = s := eq_of_compared (Eval.eval settings depth) hordering hplain hcompared
    have hcall : (sorted r pos args).perform (Eval.eval settings depth) t =
        .ok (.array ⟨t.store.arrays.size⟩ pos)
          { t with store := (t.store.newArray result).2 } := by
      rw [run_sorted hordering, Run.run_bind]
      simp only [perform_lift]
      rw [hrun]
      rfl
    have hresult : ∀ v ∈ result.toList, v.IsWord := fun v hv => hwords v (hperm.mem_iff.mp hv)
    refine ⟨result, hcall, hperm, ?_⟩
    have hpairs := (hsorted (totalPreorderOn_naturalLe hwords) (agrees_naturalLe _ _)).sorted
    refine hpairs.imp_of_mem fun hv hw hle pos => ?_
    cases descending with
    | false => exact not_lt_of_naturalLe (hresult _ hv) (hresult _ hw) hle pos
    | true =>
      exact (not_lt_of_naturalLe (hresult _ hw) (hresult _ hv) hle pos).imp_right Value.Rounded.symm

/-- A state with the array `[3, 1, 2]`. -/
def threeIntegers : State :=
  { store := { arrays := #[#[.int 3 .start, .int 1 .start, .int 2 .start]] } }

theorem sort_integers_three : ∃ result : Array Value,
    (Eval.callMethod {} (.array ⟨0⟩ .start) .start "sort" []).perform (Eval.eval {} 0)
        threeIntegers = .ok (.array ⟨1⟩ .start)
      { threeIntegers with store := (threeIntegers.store.newArray result).2 } ∧
    result.toList.Perm [.int 3 .start, .int 1 .start, .int 2 .start] ∧
    result.toList.Pairwise fun v w => ∀ pos,
      Operator.binary pos .lt w v = .ok (.bool false) ∨ v.Rounded w := by
  have hwords : ∀ v ∈ (threeIntegers.store.array ⟨0⟩).toList, v.IsWord := by
    intro v hv
    change v ∈ [.int 3 .start, .int 1 .start, .int 2 .start] at hv
    simp only [List.mem_cons, List.not_mem_nil, or_false] at hv
    rcases hv with rfl | rfl | rfl <;> exact ⟨_, _, rfl, by decide⟩
  exact sort_integers {} 0 ⟨0⟩ .start .start false [] threeIntegers (.inr ⟨rfl, rfl⟩) hwords

/-- The source text is accepted and its value is `true`. -/
def yieldsTrue (source : String) : Bool :=
  match parse? source with
  | .ok p =>
    match (Session.run {} p Session.start).1 with
    | .value (.bool b) => b
    | _ => false
  | .error _ => false

/-- Two integers that round to the same float stay as they are, although the second is less than
the first. -/
theorem sorted_integers_go_down :
    yieldsTrue "let a = [9007199254740993, 9007199254740992].sort(); a[1] < a[0]" = true := by
  decide +kernel

end ArrayMethod

end Vorn
