import Vorn.Proofs.Number.Packing

/-!
# The numbers that floats stand for

Finite floats compare as the numbers that they stand for (`HasValue.lt_iff`, `HasValue.le_iff`).
These numbers have mantissas of 53 bits (`IsFloat`), and neighbours among them keep a distance
(`IsFloat.gap`).
-/

namespace Vorn.Rounding

open Float.Model Float.Model.UnpackedFloat

/-! ## Values -/

/-- The float is finite and stands for the number. -/
inductive HasValue (x : Float) : ℚ → Prop
  | zero {s : Sign} (h : x.toModel.unpack = .zero s) : HasValue x 0
  | positive {m : ℕ} {q : ℤ} {hpos : 0 < m} (h : x.toModel.unpack = .finite .positive m q hpos)
      (hcanonical : Canonical m q) : HasValue x (m * 2 ^ q)
  | negative {m : ℕ} {q : ℤ} {hpos : 0 < m} (h : x.toModel.unpack = .finite .negative m q hpos)
      (hcanonical : Canonical m q) : HasValue x (-(m * 2 ^ q))

theorem lt_iff (x y : Float) :
    x < y ↔ x.toModel.unpack.compare y.toModel.unpack = some .lt := by
  change decide ((x.toModel.unpack.compare y.toModel.unpack == some .lt) = true) = true ↔ _
  simp

theorem le_iff (x y : Float) :
    x ≤ y ↔ (x.toModel.unpack.compare y.toModel.unpack).any Ordering.isLE = true := by
  change decide ((x.toModel.unpack.compare y.toModel.unpack).any Ordering.isLE = true) = true ↔ _
  rw [decide_eq_true_iff]

/-- A float is finite, or infinite, or no number. -/
theorem exists_hasValue (x : Float) :
    (∃ a, HasValue x a) ∨ (∃ s, x.toModel.unpack = .infinity s) ∨
      x.toModel.unpack = .notANumber := by
  cases hunpack : x.toModel.unpack with
  | notANumber => exact .inr (.inr rfl)
  | infinity s => exact .inr (.inl ⟨s, rfl⟩)
  | zero => exact .inl ⟨0, .zero hunpack⟩
  | finite s m q hpos =>
    have hfloat : Binary.ofFloat x = .finite (isNegative s) m q := by rw [ofFloat_eq, hunpack]; rfl
    have hcanonical := (canonical_of_ofFloat hfloat hpos).1
    cases s with
    | positive => exact .inl ⟨_, .positive hunpack hcanonical⟩
    | negative => exact .inl ⟨_, .negative hunpack hcanonical⟩

section Compare

variable {m₁ m₂ : ℕ} {q₁ q₂ : ℤ}

/-- Mantissas of 53 bits end where the next exponent begins. -/
theorem two_pow_mul_two_zpow_le (h : q₁ < q₂) : (2 : ℚ) ^ 53 * 2 ^ q₁ ≤ 2 ^ 52 * 2 ^ q₂ := by
  calc (2 : ℚ) ^ 53 * 2 ^ q₁ = 2 ^ 52 * 2 ^ (q₁ + 1) := by rw [zpow_add_one₀ two_ne_zero]; ring
    _ ≤ 2 ^ 52 * 2 ^ q₂ := by gcongr <;> norm_num; omega

/-- The greater exponent decides. -/
theorem Canonical.lt_of_exponent_lt (h₁ : Canonical m₁ q₁) (h₂ : Canonical m₂ q₂) (h : q₁ < q₂) :
    (m₁ : ℚ) * 2 ^ q₁ < m₂ * 2 ^ q₂ := by
  have hlt : (m₁ : ℚ) < 2 ^ 53 := by exact_mod_cast h₁.lt
  have hle : (2 : ℚ) ^ 52 ≤ m₂ := by exact_mod_cast h₂.le (by have := h₁.least; omega)
  calc (m₁ : ℚ) * 2 ^ q₁ < 2 ^ 53 * 2 ^ q₁ := by gcongr
    _ ≤ 2 ^ 52 * 2 ^ q₂ := two_pow_mul_two_zpow_le h
    _ ≤ m₂ * 2 ^ q₂ := by gcongr

theorem Canonical.compare_then (h₁ : Canonical m₁ q₁) (h₂ : Canonical m₂ q₂) :
    (compare q₁ q₂).then (compare m₁ m₂) = compare ((m₁ : ℚ) * 2 ^ q₁) (m₂ * 2 ^ q₂) := by
  rcases lt_trichotomy q₁ q₂ with hq | rfl | hq
  · rw [compare_lt_iff_lt.mpr hq, compare_lt_iff_lt.mpr (h₁.lt_of_exponent_lt h₂ hq)]
    rfl
  · rw [compare_eq_iff_eq.mpr rfl, Ordering.eq_then]
    have hpow : (0 : ℚ) < 2 ^ q₁ := by positivity
    rcases lt_trichotomy m₁ m₂ with hm | rfl | hm
    · rw [compare_lt_iff_lt.mpr hm, compare_lt_iff_lt.mpr (by gcongr)]
    · rw [compare_eq_iff_eq.mpr rfl, compare_eq_iff_eq.mpr rfl]
    · rw [compare_gt_iff_gt.mpr hm, compare_gt_iff_gt.mpr (by gcongr)]
  · rw [compare_gt_iff_gt.mpr hq, compare_gt_iff_gt.mpr (h₂.lt_of_exponent_lt h₁ hq)]
    rfl

theorem compare_neg_neg (a b : ℚ) : compare (-a) (-b) = (compare a b).swap := by
  rcases lt_trichotomy a b with h | rfl | h
  · rw [compare_lt_iff_lt.mpr h, compare_gt_iff_gt.mpr (neg_lt_neg h)]
    rfl
  · rw [compare_eq_iff_eq.mpr rfl, compare_eq_iff_eq.mpr rfl]
    rfl
  · rw [compare_gt_iff_gt.mpr h, compare_lt_iff_lt.mpr (neg_lt_neg h)]
    rfl

end Compare

/-- A positive mantissa makes a positive number. -/
theorem Canonical.value_pos {m : ℕ} {q : ℤ} (h : Canonical m q) : (0 : ℚ) < m * 2 ^ q := by
  have := h.pos
  positivity

namespace HasValue

variable {x y : Float} {a b : ℚ}

/-- **Finite floats compare as their values.** -/
theorem compare_eq (hx : HasValue x a) (hy : HasValue y b) :
    x.toModel.unpack.compare y.toModel.unpack = some (compare a b) := by
  cases hx with
  | zero hx =>
    rw [hx]
    cases hy with
    | zero hy => rw [hy, compare_eq_iff_eq.mpr rfl]; rfl
    | positive hy hc => rw [hy, compare_lt_iff_lt.mpr hc.value_pos]; rfl
    | negative hy hc => rw [hy, compare_gt_iff_gt.mpr (neg_neg_of_pos hc.value_pos)]; rfl
  | positive hx hc₁ =>
    rw [hx]
    cases hy with
    | zero hy => rw [hy, compare_gt_iff_gt.mpr hc₁.value_pos]; rfl
    | positive hy hc₂ => rw [hy, ← hc₁.compare_then hc₂]; rfl
    | negative hy hc₂ =>
      rw [hy, compare_gt_iff_gt.mpr (by linarith [hc₁.value_pos, hc₂.value_pos])]
      rfl
  | negative hx hc₁ =>
    rw [hx]
    cases hy with
    | zero hy => rw [hy, compare_lt_iff_lt.mpr (neg_neg_of_pos hc₁.value_pos)]; rfl
    | positive hy hc₂ =>
      rw [hy, compare_lt_iff_lt.mpr (by linarith [hc₁.value_pos, hc₂.value_pos])]
      rfl
    | negative hy hc₂ => rw [hy, compare_neg_neg, ← hc₁.compare_then hc₂]; rfl

theorem lt_iff (hx : HasValue x a) (hy : HasValue y b) : x < y ↔ a < b := by
  rw [Rounding.lt_iff, hx.compare_eq hy, Option.some.injEq, compare_lt_iff_lt]

theorem le_iff (hx : HasValue x a) (hy : HasValue y b) : x ≤ y ↔ a ≤ b := by
  rw [Rounding.le_iff, hx.compare_eq hy, Option.any_some]
  rcases lt_trichotomy a b with h | rfl | h
  · rw [compare_lt_iff_lt.mpr h]
    exact iff_of_true rfl h.le
  · rw [compare_eq_iff_eq.mpr rfl]
    exact iff_of_true rfl le_rfl
  · rw [compare_gt_iff_gt.mpr h]
    exact iff_of_false nofun h.not_ge

end HasValue

/-! ## Numbers of 53 bits -/

/-- The number has a mantissa of at most 53 bits and no exponent below the least. -/
def IsFloat (a : ℚ) : Prop := ∃ (n t : ℤ), |n| < 2 ^ 53 ∧ -1074 ≤ t ∧ a = n * 2 ^ t

theorem HasValue.isFloat {x : Float} {a : ℚ} (hx : HasValue x a) : IsFloat a := by
  cases hx with
  | zero => exact ⟨0, 0, by norm_num, by norm_num, by norm_num⟩
  | @positive m q _ _ hc =>
    have := hc.lt
    exact ⟨m, q, by rw [abs_of_nonneg] <;> omega, hc.least, by norm_cast⟩
  | @negative m q _ _ hc =>
    have := hc.lt
    exact ⟨-m, q, by rw [abs_neg, abs_of_nonneg] <;> omega, hc.least, by push_cast; ring⟩

namespace HasValue

variable {x y z : Float} {a c : ℚ} {s : Sign}

/-- A finite float is between the infinite ones. -/
theorem compare_infinity (hx : HasValue x a) (hy : y.toModel.unpack = .infinity s) :
    x.toModel.unpack.compare y.toModel.unpack = some (match s with
      | .positive => .lt
      | .negative => .gt) ∧
    y.toModel.unpack.compare x.toModel.unpack = some (match s with
      | .positive => .gt
      | .negative => .lt) := by
  cases hx with
  | zero hx | positive hx | negative hx => cases s <;> simp [hx, hy, UnpackedFloat.compare]

theorem compare_notANumber (hx : HasValue x a) (hy : y.toModel.unpack = .notANumber) :
    x.toModel.unpack.compare y.toModel.unpack = none ∧
      y.toModel.unpack.compare x.toModel.unpack = none := by
  cases hx with
  | zero hx | positive hx | negative hx => simp [hx, hy, UnpackedFloat.compare]

/-- What is not above the finite floats above `x` is not above the infinite one. -/
theorem le_of_lt (hx : HasValue x a) (hz : HasValue z c)
    (h : ∀ b, IsFloat b → a < b → c ≤ b) (hlt : x < y) : z ≤ y := by
  obtain ⟨b, hy⟩ | ⟨s, hy⟩ | hy := exists_hasValue y
  · exact (hz.le_iff hy).mpr (h b hy.isFloat ((hx.lt_iff hy).mp hlt))
  · rw [Rounding.lt_iff, (hx.compare_infinity hy).1] at hlt
    rw [Rounding.le_iff, (hz.compare_infinity hy).1]
    cases s with
    | positive => rfl
    | negative => cases hlt
  · rw [Rounding.lt_iff, (hx.compare_notANumber hy).1] at hlt
    cases hlt

/-- What is not below the finite floats below `x` is not below the infinite one. -/
theorem ge_of_gt (hx : HasValue x a) (hz : HasValue z c)
    (h : ∀ b, IsFloat b → b < a → b ≤ c) (hlt : y < x) : y ≤ z := by
  obtain ⟨b, hy⟩ | ⟨s, hy⟩ | hy := exists_hasValue y
  · exact (hy.le_iff hz).mpr (h b hy.isFloat ((hy.lt_iff hx).mp hlt))
  · rw [Rounding.lt_iff, (hx.compare_infinity hy).2] at hlt
    rw [Rounding.le_iff, (hz.compare_infinity hy).2]
    cases s with
    | positive => cases hlt
    | negative => rfl
  · rw [Rounding.lt_iff, (hx.compare_notANumber hy).2] at hlt
    cases hlt

end HasValue

/-- Zeros are appended to the mantissa. -/
theorem intCast_mul_two_zpow (k t : ℤ) (j : ℕ) :
    (k : ℚ) * 2 ^ (t + j) = (k * 2 ^ j : ℤ) * 2 ^ t := by
  rw [zpow_add₀ two_ne_zero, zpow_natCast]
  push_cast
  ring

namespace IsFloat

variable {a b : ℚ}

theorem neg (ha : IsFloat a) : IsFloat (-a) := by
  obtain ⟨n, t, hn, ht, rfl⟩ := ha
  exact ⟨-n, t, by rwa [abs_neg], ht, by push_cast; ring⟩

/-- At the lower one of two exponents both numbers have whole mantissas. -/
theorem exists_common (ha : IsFloat a) (hb : IsFloat b) :
    ∃ (n m t : ℤ), a = n * 2 ^ t ∧ b = m * 2 ^ t ∧ (|n| < 2 ^ 53 ∨ |m| < 2 ^ 53) := by
  obtain ⟨n, t, hn, ht, rfl⟩ := ha
  obtain ⟨m, u, hm, hu, rfl⟩ := hb
  rcases le_total t u with h | h
  · obtain ⟨j, rfl⟩ := Int.le.dest h
    exact ⟨n, _, t, rfl, intCast_mul_two_zpow m t j, .inl hn⟩
  · obtain ⟨j, rfl⟩ := Int.le.dest h
    exact ⟨_, m, u, intCast_mul_two_zpow n u j, rfl, .inr hm⟩

/-- **The distance to another float** is a share of the number. -/
theorem gap (ha : IsFloat a) (hb : IsFloat b) (hne : a ≠ b) : |a| ≤ 2 ^ 53 * |b - a| := by
  obtain ⟨n, m, t, rfl, rfl, hbits⟩ := ha.exists_common hb
  have hne : n ≠ m := fun h => hne (by rw [h])
  have hone : 1 ≤ |m - n| := Int.one_le_abs (sub_ne_zero.mpr hne.symm)
  have htriangle : |n| - |m| ≤ |m - n| := by
    rw [abs_sub_comm m n]
    exact abs_sub_abs_le_abs_sub n m
  have hmantissa : |n| ≤ 2 ^ 53 * |m - n| := by omega
  have hpow : (0 : ℚ) < 2 ^ t := by positivity
  have hcast : |(n : ℚ)| ≤ 2 ^ 53 * |(m : ℚ) - n| := by exact_mod_cast hmantissa
  rw [← sub_mul, abs_mul, abs_mul, abs_of_pos hpow, ← mul_assoc]
  gcongr

end IsFloat

end Vorn.Rounding
