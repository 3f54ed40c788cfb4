import Mathlib
import Vorn.Number.Shortest

/-!
# The float nearest to a rational number

A rational number is rounded to a multiple of a power of two that has a mantissa of 53 bits, or to a
multiple of the least power, `2 ^ -1074`. Of two multiples that are equally near, the even one is
taken.

* `RoundsTo r m q`: the number `r` is rounded to `m * 2 ^ q`. The result is unique
  (`RoundsTo.unique`) and canonical (`RoundsTo.canonical`).
* `roundsTo_iff`: the numbers that are rounded to a float are those of its interval.
-/

namespace Vorn

namespace Shortest.Interval

/-- The number lies in the interval, in units of `2 ^ e`. -/
def Contains (i : Interval) (e : ℤ) (r : ℚ) : Prop :=
  if i.closed then i.low ≤ r / 2 ^ e ∧ r / 2 ^ e ≤ i.high
  else i.low < r / 2 ^ e ∧ r / 2 ^ e < i.high

theorem Contains.bounds {i : Interval} {e : ℤ} {r : ℚ} (h : i.Contains e r) :
    i.low ≤ r / 2 ^ e ∧ r / 2 ^ e ≤ i.high := by
  unfold Contains at h
  split at h
  · exact h
  · exact ⟨h.1.le, h.2.le⟩

end Shortest.Interval

namespace Rounding

open Shortest

/-- The whole number nearest to `r`, the even one of two. -/
def IsNearest (r : ℚ) (n : ℕ) : Prop :=
  if n % 2 = 0 then 2 * n - 1 ≤ 2 * r ∧ 2 * r ≤ 2 * n + 1
  else 2 * n - 1 < 2 * r ∧ 2 * r < 2 * n + 1

/-- The exponent at which the number has a mantissa of 53 bits, but no exponent below the least. -/
structure AtScale (r : ℚ) (t : ℤ) : Prop where
  least : -1074 ≤ t
  lt : r / 2 ^ t < 2 ^ 53
  le : -1074 < t → 2 ^ 52 ≤ r / 2 ^ t

/-- The number is rounded to the mantissa and the exponent. -/
inductive RoundsTo (r : ℚ) : ℕ → ℤ → Prop
  | within {n : ℕ} {t : ℤ} (hscale : AtScale r t) (hn : IsNearest (r / 2 ^ t) n)
      (hlt : n < 2 ^ 53) : RoundsTo r n t
  /-- A mantissa that is rounded up to 54 bits loses its last zero. -/
  | carried {t : ℤ} (hscale : AtScale r t) (hn : IsNearest (r / 2 ^ t) (2 ^ 53)) :
      RoundsTo r (2 ^ 52) (t + 1)

/-- A mantissa has 53 bits, or fewer at the least exponent. -/
structure Canonical (m : ℕ) (q : ℤ) : Prop where
  pos : 0 < m
  lt : m < 2 ^ 53
  least : -1074 ≤ q
  le : -1074 < q → 2 ^ 52 ≤ m

section

variable {r : ℚ} {m n : ℕ} {q t t' : ℤ}

theorem IsNearest.bounds (h : IsNearest r n) : 2 * n - 1 ≤ 2 * r ∧ 2 * r ≤ 2 * n + 1 := by
  unfold IsNearest at h
  split at h
  · exact h
  · exact ⟨h.1.le, h.2.le⟩

theorem IsNearest.le_of_lt (h : IsNearest r n) (hr : r < m) : n ≤ m := by
  by_contra! hlt
  have hcast : (m : ℚ) + 1 ≤ n := by exact_mod_cast hlt
  linarith [h.bounds.1]

theorem IsNearest.ge_of_le (h : IsNearest r n) (hr : m ≤ r) : m ≤ n := by
  by_contra! hlt
  have hcast : (n : ℚ) + 1 ≤ m := by exact_mod_cast hlt
  linarith [h.bounds.2]

theorem IsNearest.not_lt (hm : IsNearest r m) (hn : IsNearest r n) : ¬ m < n := by
  intro hlt
  have hcast : (m : ℚ) + 1 ≤ n := by exact_mod_cast hlt
  have hhigh := hm.bounds.2
  have hlow := hn.bounds.1
  -- both are equally near, so they are neighbours and one of them is odd
  have hnext : n = m + 1 := by
    have hcast' : (n : ℚ) ≤ m + 1 := by linarith
    exact Nat.le_antisymm (by exact_mod_cast hcast') hlt
  subst hnext
  unfold IsNearest at hm hn
  push_cast at hn hlow
  split at hm <;> split at hn
  · omega
  · linarith [hn.1]
  · linarith [hm.2]
  · linarith [hm.2, hn.1]

theorem IsNearest.unique (hm : IsNearest r m) (hn : IsNearest r n) : m = n :=
  Nat.le_antisymm (Nat.not_lt.mp (hn.not_lt hm)) (Nat.not_lt.mp (hm.not_lt hn))

/-- A quotient of whole numbers is the whole quotient and a fraction. -/
theorem div_eq_add_fraction {num den : ℕ} (hden : 0 < den) :
    (num : ℚ) / den = (num / den : ℕ) + ((num % den : ℕ) : ℚ) / den := by
  have hne : (den : ℚ) ≠ 0 := by exact_mod_cast hden.ne'
  have hnum : (num : ℚ) = den * (num / den : ℕ) + (num % den : ℕ) := by
    exact_mod_cast (Nat.div_add_mod num den).symm
  rw [div_eq_iff hne, add_mul, div_mul_cancel₀ _ hne, mul_comm, ← hnum]

/-- The same number at another exponent. -/
theorem div_two_zpow (r : ℚ) (t t' : ℤ) : r / 2 ^ t = r / 2 ^ t' * 2 ^ (t' - t) := by
  rw [zpow_sub₀ two_ne_zero]
  field_simp

theorem div_two_zpow_sub_one (r : ℚ) (t : ℤ) : r / 2 ^ (t - 1) = r / 2 ^ t * 2 := by
  rw [div_two_zpow r (t - 1) t, sub_sub_cancel, zpow_one]

theorem div_two_zpow_sub_two (r : ℚ) (t : ℤ) : r / 2 ^ (t - 2) = r / 2 ^ t * 4 := by
  rw [div_two_zpow r (t - 2) t, sub_sub_cancel, show (2 : ℚ) ^ (2 : ℤ) = 4 by norm_num]

theorem AtScale.not_lt (h : AtScale r t) (h' : AtScale r t') : ¬ t < t' := by
  intro hlt
  have hle := h'.le (by have := h.least; omega)
  have hpow : (2 : ℚ) ^ (1 : ℤ) ≤ 2 ^ (t' - t) := zpow_le_zpow_right₀ one_le_two (by omega)
  have hmul : (2 ^ 52 : ℚ) * 2 ^ (1 : ℤ) ≤ r / 2 ^ t' * 2 ^ (t' - t) :=
    mul_le_mul hle hpow (by positivity) (by linarith)
  rw [← div_two_zpow] at hmul
  have hbound := h.lt
  norm_num at hmul hbound
  linarith

theorem AtScale.unique (h : AtScale r t) (h' : AtScale r t') : t = t' :=
  Int.le_antisymm (Int.not_lt.mp (h'.not_lt h)) (Int.not_lt.mp (h.not_lt h'))

/-- **A number is rounded to one float.** -/
theorem RoundsTo.unique {q' : ℤ} (h : RoundsTo r m q) (h' : RoundsTo r n q') :
    m = n ∧ q = q' := by
  cases h with
  | within hscale hn hlt =>
    cases h' with
    | within hscale' hn' hlt' =>
      obtain rfl := hscale.unique hscale'
      exact ⟨hn.unique hn', rfl⟩
    | carried hscale' hn' =>
      obtain rfl := hscale.unique hscale'
      exact absurd (hn.unique hn') hlt.ne
  | carried hscale hn =>
    cases h' with
    | within hscale' hn' hlt' =>
      obtain rfl := hscale.unique hscale'
      exact absurd (hn'.unique hn) hlt'.ne
    | carried hscale' hn' => exact ⟨rfl, by rw [hscale.unique hscale']⟩

theorem AtScale.le_of_isNearest (h : AtScale r t) (hn : IsNearest (r / 2 ^ t) n) : n ≤ 2 ^ 53 :=
  hn.le_of_lt (by exact_mod_cast h.lt)

/-- The result of rounding is canonical. -/
theorem RoundsTo.canonical (h : RoundsTo r m q) (hpos : 0 < m) : Canonical m q := by
  cases h with
  | within hscale hn hlt =>
    exact ⟨hpos, hlt, hscale.least, fun hq => hn.ge_of_le (by exact_mod_cast hscale.le hq)⟩
  | carried hscale =>
    have := hscale.least
    exact ⟨hpos, by norm_num, by omega, fun _ => le_rfl⟩

theorem low_interval (hpos : 0 < m) : ((interval m q).low : ℚ) =
    if m = 2 ^ 52 ∧ -1074 < q then 4 * (m : ℚ) - 1 else 4 * (m : ℚ) - 2 := by
  have hlow : (interval m q).low = if m = 2 ^ 52 ∧ -1074 < q then 4 * m - 1 else 4 * m - 2 := rfl
  rw [hlow]
  split <;> rw [Nat.cast_sub (by omega)] <;> norm_num

/-- Membership in the interval of a float, in units of its last place. -/
theorem contains_interval_iff (hpos : 0 < m) : (interval m q).Contains (q - 2) r ↔
    IsNearest (r / 2 ^ q) m ∧ (m = 2 ^ 52 ∧ -1074 < q → 4 * m - 1 ≤ r / 2 ^ q * 4) := by
  have hhigh : ((interval m q).high : ℚ) = 4 * m + 2 := by simp [interval]
  have hclosed : (interval m q).closed = decide (m % 2 = 0) := rfl
  unfold Interval.Contains IsNearest
  simp only [hclosed, decide_eq_true_eq]
  rw [div_two_zpow_sub_two, hhigh, low_interval hpos]
  by_cases hedge : m = 2 ^ 52 ∧ -1074 < q
  · have heven : m % 2 = 0 := by omega
    rw [if_pos hedge, if_pos heven, if_pos heven]
    constructor
    · rintro ⟨hlow, hhigh⟩
      exact ⟨⟨by linarith, by linarith⟩, fun _ => hlow⟩
    · rintro ⟨⟨-, hhigh⟩, hlow⟩
      exact ⟨hlow hedge, by linarith⟩
  · simp only [hedge, if_false, false_imp_iff, and_true]
    split <;> constructor <;> rintro ⟨hlow, hhigh⟩ <;> exact ⟨by linarith, by linarith⟩

/-- A number lies in the interval of the float that it is rounded to. -/
theorem RoundsTo.contains (h : RoundsTo r m q) (hpos : 0 < m) :
    (interval m q).Contains (q - 2) r := by
  rw [contains_interval_iff hpos]
  cases h with
  | within hscale hn hlt =>
    refine ⟨hn, fun ⟨hm, hq⟩ => ?_⟩
    have hle := hscale.le hq
    have hcast : (m : ℚ) = 2 ^ 52 := by exact_mod_cast hm
    linarith
  | @carried t hscale hn =>
    have hlow := hn.bounds.1
    have hlt := hscale.lt
    rw [← add_sub_cancel_right t 1, div_two_zpow_sub_one] at hlow hlt
    push_cast at hlow ⊢
    refine ⟨?_, fun _ => by linarith⟩
    rw [IsNearest, if_pos (by norm_num)]
    push_cast
    exact ⟨by linarith, by linarith⟩

/-- Below the least mantissa the numbers are twice as dense, so a number there is rounded at the
exponent below and carried. -/
theorem roundsTo_of_lt (hq : -1074 < q) (hlt : r / 2 ^ q < 2 ^ 52)
    (hlow : 4 * 2 ^ 52 - 1 ≤ r / 2 ^ q * 4) : RoundsTo r (2 ^ 52) q := by
  rw [← sub_add_cancel q 1]
  refine .carried ⟨by omega, ?_, fun _ => ?_⟩ ?_
  · rw [div_two_zpow_sub_one]
    linarith
  · rw [div_two_zpow_sub_one]
    linarith
  · rw [IsNearest, if_pos (by norm_num), div_two_zpow_sub_one]
    push_cast
    exact ⟨by linarith, by linarith⟩

/-- **The numbers that are rounded to a float are those of its interval.** -/
theorem roundsTo_iff (h : Canonical m q) :
    RoundsTo r m q ↔ (interval m q).Contains (q - 2) r := by
  refine ⟨fun hround => hround.contains h.pos, fun hcontains => ?_⟩
  obtain ⟨hn, hedge⟩ := (contains_interval_iff h.pos).mp hcontains
  by_cases hsmall : r / 2 ^ q < 2 ^ 52 ∧ -1074 < q
  · obtain rfl : m = 2 ^ 52 :=
      Nat.le_antisymm (hn.le_of_lt (by exact_mod_cast hsmall.1)) (h.le hsmall.2)
    exact roundsTo_of_lt hsmall.2 hsmall.1 (by exact_mod_cast hedge ⟨rfl, hsmall.2⟩)
  · have hm : (m : ℚ) + 1 ≤ 2 ^ 53 := by exact_mod_cast h.lt
    refine .within ⟨h.least, by linarith [hn.bounds.2], fun hq => ?_⟩ hn h.lt
    exact not_lt.mp fun hlt => hsmall ⟨hlt, hq⟩

end

end Rounding

end Vorn
