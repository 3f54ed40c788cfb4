import Vorn.Proofs.Arithmetic
import Vorn.Proofs.Number.Rounds
import Vorn.Proofs.SortedIntegers

/-!
# The mean of integers

The mean of an array of integers is the quotient of two floats: that of the sum, which is wrapped,
and that of the count. As long as the sum is in range, the mean is between the floats of the least
and the greatest element, or next to one of them (`mean_near_extremes`). It can only leave them if
the sum has more bits than a float.

Two roundings are between the sum and the mean. Each moves a number by less than the gap that
floats keep from each other, so both together cannot pass a whole float (`Rounds.quotient_le`).
-/

namespace Vorn

open Run Script

/-! ## Two roundings -/

namespace Rounding

variable {n : ℕ} {sum bound : ℤ} {rounded v b y : ℚ}

/-- Let a sum of `n` numbers up to `bound` be rounded, divided and rounded again. No float above
that of the bound is below the result. -/
theorem Rounds.quotient_le (hn : 0 < n) (hle : sum ≤ n * bound) (hsum : Rounds sum rounded)
    (hv : Rounds (rounded / n) v) (hb : Rounds bound b) (hy : IsFloat y) (hlt : b < y) : v ≤ y := by
  have hn : (0 : ℚ) < n := by exact_mod_cast hn
  by_contra! hyv
  have hbound := hb.two_mul_le_add hy hlt
  have hquotient := hv.add_le_two_mul hy hyv
  -- the greatest sum there can be, and what it is rounded to
  obtain ⟨p, hp⟩ : ∃ p, Rounds ((n * bound : ℤ) : ℚ) p := ⟨_, rounds_nearest _⟩
  have hgreatest : rounded / n ≤ p / n :=
    div_le_div_of_nonneg_right (hsum.mono hp (by exact_mod_cast hle)) hn.le
  rcases eq_or_ne bound 0 with rfl | hne
  · have hzero : p = 0 := hp.unique (by simpa using Rounds.zero)
    have hbzero : b = 0 := hb.unique (by simpa using Rounds.zero)
    rw [hzero, zero_div] at hgreatest
    linarith
  · -- the rounded sum adds less to the bound than half the way from `b` over `y` to `v`
    have hshare : 2 ^ 53 * (p / n - bound) < |(bound : ℚ)| := by
      have herror := hp.error (mul_ne_zero (by exact_mod_cast hn.ne') hne)
      push_cast at herror
      rw [abs_mul, abs_of_pos hn] at herror
      have hscaled : n * (2 ^ 53 * (p / n - bound)) = 2 ^ 53 * (p - n * bound) := by field_simp
      have hle := le_abs_self (p - n * bound)
      exact lt_of_mul_lt_mul_left (by linarith) hn.le
    have hgap := hb.isFloat.gap hy hlt.ne
    have hgap' := hy.gap hv.isFloat hyv.ne
    rw [abs_of_pos (sub_pos.mpr hlt)] at hgap
    rw [abs_of_pos (sub_pos.mpr hyv)] at hgap'
    have hbabs := abs_le.mp hgap
    have hyabs := abs_le.mp hgap'
    rcases abs_cases (bound : ℚ) with ⟨habs, -⟩ | ⟨habs, -⟩ <;> rw [habs] at hshare <;> linarith

theorem Rounds.le_quotient (hn : 0 < n) (hle : n * bound ≤ sum) (hsum : Rounds sum rounded)
    (hv : Rounds (rounded / n) v) (hb : Rounds bound b) (hy : IsFloat y) (hlt : y < b) : y ≤ v := by
  have hsum' : Rounds ((-sum : ℤ) : ℚ) (-rounded) := by exact_mod_cast hsum.neg
  have hv' : Rounds (-rounded / n) (-v) := by rw [neg_div]; exact hv.neg
  have hb' : Rounds ((-bound : ℤ) : ℚ) (-b) := by exact_mod_cast hb.neg
  have hle' : -sum ≤ n * -bound := by linarith
  exact neg_le_neg_iff.mp (hsum'.quotient_le hn hle' hv' hb' hy.neg (neg_lt_neg hlt))

theorem abs_nearest_le (h : Word.InRange sum) : |nearest sum| ≤ 2 ^ 63 := by
  have hlow : nearest Word.min ≤ nearest sum := nearest_mono h.1
  have hhigh : nearest sum ≤ nearest Word.max := nearest_mono h.2
  rw [show nearest Word.min = -2 ^ 63 by decide +kernel] at hlow
  rw [show nearest Word.max = 2 ^ 63 by decide +kernel] at hhigh
  exact abs_le.mpr ⟨hlow, hhigh⟩

/-- A sum of 64 bits and a count can be divided without leaving the floats. -/
theorem hasValue_quotient (hsum : Word.InRange sum) (hn : 0 < n) (hbits : n ≤ 2 ^ 53) :
    ∃ v, HasValue (.ofInt sum / .ofNat n) v ∧ Rounds (nearest sum / n) v := by
  have hsumvalue : HasValue (.ofInt sum) (nearest sum) :=
    hasValue_ofInt (by simp only [Word.InRange, Word.min, Word.max] at hsum; omega)
  have hn : (1 : ℚ) ≤ n := by exact_mod_cast hn
  have hbitsq : (n : ℚ) ≤ 2 ^ (53 : ℤ) := by exact_mod_cast hbits
  refine hsumvalue.div (hasValue_ofNat hbits) (by linarith) (fun hne => ?_) ?_
  · have hone : (1 : ℚ) ≤ |(nearest sum : ℚ)| := by
      exact_mod_cast Int.one_le_abs (by exact_mod_cast hne)
    calc (2 : ℚ) ^ (-1000 : ℤ) ≤ 2 ^ (-53 : ℤ) := zpow_le_zpow_right₀ one_le_two (by norm_num)
      _ = 1 / 2 ^ (53 : ℤ) := by rw [zpow_neg, one_div]
      _ ≤ |(nearest sum : ℚ)| / n := by gcongr
  · have hle : |(nearest sum : ℚ)| ≤ 2 ^ (63 : ℤ) := by exact_mod_cast abs_nearest_le hsum
    calc |(nearest sum : ℚ)| / n ≤ |(nearest sum : ℚ)| := div_le_self (abs_nonneg _) hn
      _ ≤ 2 ^ (63 : ℤ) := hle
      _ ≤ 2 ^ (900 : ℤ) := zpow_le_zpow_right₀ one_le_two (by norm_num)

end Rounding

/-! ## Sums and means -/

namespace Value

theorem IsWord.isInt {v : Value} (h : v.IsWord) : v.IsInt :=
  have ⟨n, p, hv, _⟩ := h
  ⟨n, p, hv⟩

/-- The mean of integers: the sum is wrapped, and sum and count are divided as floats. -/
def mean (vs : List Value) : Float := .ofInt (Word.wrap (exactSum vs)) / .ofNat vs.length

/-- The least and the greatest of the integers in a list. -/
structure Extremes (vs : List Value) (least greatest : Int) : Prop where
  least_mem : ∃ p, .int least p ∈ vs
  greatest_mem : ∃ p, .int greatest p ∈ vs
  bounds : ∀ n p, .int n p ∈ vs → least ≤ n ∧ n ≤ greatest

theorem exactSum_cons (n : Int) (p : Pos) (vs : List Value) :
    exactSum (.int n p :: vs) = n + exactSum vs := by
  simp [exactSum]

/-- The sum of integers is between the multiples of their bounds. -/
theorem exactSum_bounds {vs : List Value} {low high : Int} (hvs : ∀ v ∈ vs, v.IsInt)
    (hbounds : ∀ n p, .int n p ∈ vs → low ≤ n ∧ n ≤ high) :
    vs.length * low ≤ exactSum vs ∧ exactSum vs ≤ vs.length * high := by
  induction vs with
  | nil => simp [exactSum]
  | cons v vs ih =>
    obtain ⟨⟨n, p, rfl⟩, hrest⟩ := List.forall_mem_cons.mp hvs
    obtain ⟨hlow, hhigh⟩ := hbounds n p (by simp)
    have hsum := ih hrest fun n p hn => hbounds n p (List.mem_cons_of_mem _ hn)
    rw [exactSum_cons, List.length_cons]
    push_cast
    constructor <;> linarith

end Value

namespace Builtin

variable (settings : Settings) (pos : Pos) (s : State)

/-- **The mean of integers**, of which there is at least one. -/
theorem apply_mean {r : ArrayRef} (hne : (s.store.array r).toList ≠ [])
    (hints : ∀ v ∈ (s.store.array r).toList, v.IsInt) (p : Pos) :
    Eval.apply settings pos (.builtin .mean) [.array r p] s =
      .done (.ok (.float (Value.mean (s.store.array r).toList) pos)
        (traced settings 2 "call builtin mean" s)) := by
  have hstore := traced_store s settings 2 "call builtin mean"
  have htotal := total_ints pos (traced settings 2 "call builtin mean" s) _ {} hints rfl
  have hempty : (s.store.array r).isEmpty = false := by
    rw [Array.isEmpty_eq_false_iff]
    exact fun h => hne (by rw [h])
  have hmean : meanOf pos (.array r p) (traced settings 2 "call builtin mean" s) =
      .ok (.float (Value.mean (s.store.array r).toList) pos)
        (traced settings 2 "call builtin mean" s) := by
    rw [meanOf, Run.run_bind, show elements r (traced settings 2 "call builtin mean" s) =
      .ok ((traced settings 2 "call builtin mean" s).store.array r) _ from rfl, hstore]
    dsimp only
    rw [hempty, if_neg (by decide), Run.run_bind, htotal, Int.zero_add]
    rfl
  rw [apply_eq settings pos s rfl, run]
  exact congrArg Step.done hmean

end Builtin

namespace Value

open Rounding

variable {vs : List Value} {least greatest : Int}

theorem Extremes.inRange (h : Extremes vs least greatest) (hwords : ∀ v ∈ vs, v.IsWord) :
    Word.InRange least ∧ Word.InRange greatest := by
  obtain ⟨p, hp⟩ := h.least_mem
  obtain ⟨q, hq⟩ := h.greatest_mem
  obtain ⟨_, _, hleast, hin⟩ := hwords _ hp
  obtain ⟨_, _, hgreatest, hin'⟩ := hwords _ hq
  cases hleast
  cases hgreatest
  exact ⟨hin, hin'⟩

theorem mean_bounds (hne : vs ≠ []) (hwords : ∀ v ∈ vs, v.IsWord)
    (hsum : Word.InRange (exactSum vs)) (hcount : vs.length ≤ 2 ^ 53)
    (h : Extremes vs least greatest) :
    (∀ y, y < Float.ofInt least → y ≤ mean vs) ∧ (∀ y, Float.ofInt greatest < y → mean vs ≤ y) ∧
      (nearest (exactSum vs) = exactSum vs →
        Float.ofInt least ≤ mean vs ∧ mean vs ≤ Float.ofInt greatest) := by
  have hvalue {a : Int} (ha : Word.InRange a) : HasValue (.ofInt a) (nearest a) :=
    hasValue_ofInt (by simp only [Word.InRange, Word.min, Word.max] at ha; omega)
  obtain ⟨hleast, hgreatest⟩ := h.inRange hwords
  obtain ⟨hlow, hhigh⟩ := exactSum_bounds (fun v hv => (hwords v hv).isInt) h.bounds
  have hpos : 0 < vs.length := List.length_pos_of_ne_nil hne
  obtain ⟨v, hmean, hv⟩ := hasValue_quotient hsum hpos hcount
  rw [mean, Word.wrap_eq_self hsum]
  refine ⟨fun y hy => ?_, fun y hy => ?_, fun hexact => ?_⟩
  · exact (hvalue hleast).ge_of_gt hmean (fun b hb hlt =>
      (rounds_nearest _).le_quotient hpos hlow hv (rounds_nearest _) hb hlt) hy
  · exact (hvalue hgreatest).le_of_lt hmean (fun b hb hlt =>
      (rounds_nearest _).quotient_le hpos hhigh hv (rounds_nearest _) hb hlt) hy
  · have hlength : (0 : ℚ) < vs.length := by exact_mod_cast hpos
    have hlow' : (least : ℚ) ≤ exactSum vs / vs.length := by
      rw [le_div_iff₀' hlength]
      exact_mod_cast hlow
    have hhigh' : (exactSum vs : ℚ) / vs.length ≤ greatest := by
      rw [div_le_iff₀' hlength]
      exact_mod_cast hhigh
    rw [hexact] at hv
    exact ⟨((hvalue hleast).le_iff hmean).mpr ((rounds_nearest _).mono hv hlow'),
      (hmean.le_iff (hvalue hgreatest)).mpr (hv.mono (rounds_nearest _) hhigh')⟩

end Value

open Rounding in
/-- **The mean of integers is between them**, but for rounding. The mean of an array of integers is
a float, that of the wrapped sum divided by that of the count. Let the sum be in range, whatever
happens on the way to it, and the count have no more bits than a float. Then no float below that of
the least element is above the mean, and none above that of the greatest is below it. If the sum is
a float itself, the mean is between the floats of the two. -/
theorem mean_near_extremes (settings : Settings) (pos : Pos) (s : State) {r : ArrayRef} (p : Pos)
    {vs : List Value} (hvs : (s.store.array r).toList = vs) (hne : vs ≠ [])
    (hwords : ∀ v ∈ vs, v.IsWord) :
    Eval.apply settings pos (.builtin .mean) [.array r p] s =
      .done (.ok (.float (Value.mean vs) pos) (traced settings 2 "call builtin mean" s)) ∧
    (Word.InRange (Value.exactSum vs) → vs.length ≤ 2 ^ 53 →
      ∀ least greatest, Value.Extremes vs least greatest →
        (∀ y, y < Float.ofInt least → y ≤ Value.mean vs) ∧
        (∀ y, Float.ofInt greatest < y → Value.mean vs ≤ y) ∧
        (nearest (Value.exactSum vs) = Value.exactSum vs →
          Float.ofInt least ≤ Value.mean vs ∧ Value.mean vs ≤ Float.ofInt greatest)) := by
  subst hvs
  exact ⟨Builtin.apply_mean settings pos s hne (fun v hv => (hwords v hv).isInt) p,
    fun hsum hcount least greatest h => Value.mean_bounds hne hwords hsum hcount h⟩

/-- A state with one array. -/
def State.ofArray (vs : List Value) : State := { store := { arrays := #[vs.toArray] } }

theorem State.array_ofArray (vs : List Value) : ((ofArray vs).store.array ⟨0⟩).toList = vs := rfl

/-- The greatest integer, one and the least integer: the sum is zero, and leaves the range on the
way. -/
def Value.wrappedTwice : List Value :=
  [.int 0x7fffffffffffffff .start, .int 1 .start, .int (-0x8000000000000000) .start]

theorem mean_near_extremes_wrapped :
    Value.wrappedTwice ≠ [] ∧ (∀ v ∈ Value.wrappedTwice, v.IsWord) ∧
    Eval.apply {} .start (.builtin .mean) [.array ⟨0⟩ .start] (State.ofArray Value.wrappedTwice) =
      .done (.ok (.float (Value.mean Value.wrappedTwice) .start)
        (State.ofArray Value.wrappedTwice)) ∧
    Float.ofInt (-0x8000000000000000) ≤ Value.mean Value.wrappedTwice ∧
      Value.mean Value.wrappedTwice ≤ Float.ofInt 0x7fffffffffffffff := by
  have hne : Value.wrappedTwice ≠ [] := nofun
  have hwords : ∀ v ∈ Value.wrappedTwice, v.IsWord := by
    intro v hv
    simp only [Value.wrappedTwice, List.mem_cons, List.not_mem_nil, or_false] at hv
    rcases hv with rfl | rfl | rfl <;> exact ⟨_, _, rfl, by decide⟩
  have hextremes :
      Value.Extremes Value.wrappedTwice (-0x8000000000000000) 0x7fffffffffffffff := by
    refine ⟨⟨.start, by simp [Value.wrappedTwice]⟩, ⟨.start, by simp [Value.wrappedTwice]⟩,
      fun n p hn => ?_⟩
    obtain ⟨_, _, hint, hrange⟩ := hwords _ hn
    cases hint
    exact hrange
  obtain ⟨hmean, hbounds⟩ :=
    mean_near_extremes {} .start _ .start (State.array_ofArray _) hne hwords
  obtain ⟨-, -, hexact⟩ := hbounds (by decide) (by decide) _ _ hextremes
  exact ⟨hne, hwords, hmean, hexact (by decide)⟩

/-- The mean of copies of one integer. -/
theorem apply_mean_replicate {count : Nat} (hcount : count ≠ 0) (n : Int) :
    Eval.apply {} .start (.builtin .mean) [.array ⟨0⟩ .start]
        (State.ofArray (.replicate count (.int n .start))) =
      .done (.ok (.float (Value.mean (.replicate count (.int n .start))) .start)
        (State.ofArray (.replicate count (.int n .start)))) := by
  refine Builtin.apply_mean {} .start (State.ofArray _) ?_ (fun v hv => ?_) .start
  · rw [State.array_ofArray, ne_eq, List.replicate_eq_nil_iff]
    exact hcount
  · rw [State.array_ofArray] at hv
    exact ⟨n, .start, List.eq_of_mem_replicate hv⟩

/-- **The mean of equal integers can be another float.** Three times a number with 54 bits is
rounded up, and a third of it too; twice the greatest integer is wrapped to minus two. -/
theorem mean_of_equal_integers :
    Eval.apply {} .start (.builtin .mean) [.array ⟨0⟩ .start]
        (State.ofArray (.replicate 3 (.int 0x20000000000001 .start))) =
      .done (.ok (.float 9007199254740994 .start)
        (State.ofArray (.replicate 3 (.int 0x20000000000001 .start)))) ∧
    Float.ofInt 0x20000000000001 < 9007199254740994 ∧
    Eval.apply {} .start (.builtin .mean) [.array ⟨0⟩ .start]
        (State.ofArray (.replicate 2 (.int 0x7fffffffffffffff .start))) =
      .done (.ok (.float (-1) .start)
        (State.ofArray (.replicate 2 (.int 0x7fffffffffffffff .start)))) ∧
    (-1 : Float) < Float.ofInt 0x7fffffffffffffff := by
  have hrounded : Value.mean (.replicate 3 (.int 0x20000000000001 .start)) = 9007199254740994 :=
    Float.toBits_inj.mp (by decide +kernel)
  have hwrapped : Value.mean (.replicate 2 (.int 0x7fffffffffffffff .start)) = -1 :=
    Float.toBits_inj.mp (by decide +kernel)
  refine ⟨?_, by decide +kernel, ?_, by decide +kernel⟩
  · rw [apply_mean_replicate (by decide), hrounded]
  · rw [apply_mean_replicate (by decide), hwrapped]

end Vorn
