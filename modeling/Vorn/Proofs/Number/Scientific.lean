import Vorn.Number.Decimal
import Vorn.Proofs.Number.Nearest
import Vorn.Proofs.Number.Rounding

/-!
# The float of a decimal number

Products and quotients of floats are rounded to the nearest float, and so are decimal numbers.

* `Result r u`: the unpacked float `u` is what the positive number `r` is rounded to.
* `result_mul`, `result_div`: products and quotients of unpacked floats.
* `nearest_eq_iff`: a decimal number is read as the float in whose interval it lies.
-/

namespace Vorn.Rounding

open Float.Model Float.Model.UnpackedFloat

/-! ## Rounding of quotients -/

section

variable {num den n : ℕ} {e t : ℤ}

theorem ofMantissaAndAccuracy_eq (hden : 0 < den) :
    ExtendedMantissa.ofMantissaAndAccuracy (num / den) (accuracyOfFraction (num % den) den) =
      ofQuotient num den := by
  unfold accuracyOfFraction ofQuotient
  split
  case isTrue hzero =>
    rw [hzero, decide_eq_false (by omega), decide_eq_false (by omega)]
    rfl
  case isFalse hne =>
    rcases Nat.lt_trichotomy (2 * (num % den)) den with hlt | heq | hgt
    · rw [Nat.compare_eq_lt.mpr hlt, decide_eq_false (by omega), decide_eq_true (by omega)]
      rfl
    · rw [Nat.compare_eq_eq.mpr heq, decide_eq_true (by omega), decide_eq_false (by omega)]
      rfl
    · rw [Nat.compare_eq_gt.mpr hgt, decide_eq_true (by omega), decide_eq_true (by omega)]
      rfl

/-- The bits of the remainder round to the nearest. -/
theorem isNearest_roundedMantissa (num : ℕ) (hden : 0 < den) :
    IsNearest ((num : ℚ) / den) (ofQuotient num den).roundedMantissa := by
  have hpos : (0 : ℚ) < den := by exact_mod_cast hden
  have hlt : ((num % den : ℕ) : ℚ) / den < 1 := by
    rw [div_lt_one hpos]
    exact_mod_cast Nat.mod_lt num hden
  have hzero : 0 ≤ ((num % den : ℕ) : ℚ) / den := by positivity
  have htwice : 2 * (((num % den : ℕ) : ℚ) / den) = ((2 * (num % den) : ℕ) : ℚ) / den := by
    push_cast
    ring
  rw [div_eq_add_fraction hden, ofQuotient, ExtendedMantissa.roundedMantissa]
  generalize num / den = quot at *
  generalize ((num % den : ℕ) : ℚ) / den = f at *
  rcases Nat.lt_trichotomy (2 * (num % den)) den with hrem | hrem | hrem
  · have hhalf : 2 * f < 1 := by
      rw [htwice, div_lt_one hpos]
      exact_mod_cast hrem
    rw [decide_eq_false (by omega)]
    have hround (sticky : Bool) :
        (ExtendedMantissa.mk quot false sticky).accuracy.roundToNearestEven quot = quot := by
      cases sticky <;> rfl
    rw [hround, IsNearest]
    split <;> constructor <;> linarith
  · have hhalf : 2 * f = 1 := by rw [htwice, hrem, div_self hpos.ne']
    rw [decide_eq_true (by omega), decide_eq_false (by omega)]
    change IsNearest _ (quot + quot % 2)
    rw [IsNearest, if_pos (by omega)]
    rcases Nat.mod_two_eq_zero_or_one quot with hbit | hbit <;> rw [hbit] <;> push_cast <;>
      constructor <;> linarith
  · have hhalf : 1 < 2 * f := by
      rw [htwice, one_lt_div hpos]
      exact_mod_cast hrem
    rw [decide_eq_true (by omega), decide_eq_true (by omega)]
    change IsNearest _ (quot + 1)
    rw [IsNearest]
    push_cast
    split <;> constructor <;> linarith

/-- A quotient of whole numbers at a scale where it does not need more than 53 bits. -/
theorem atScale_target (hden : 0 < den)
    (he : e ≤ max ((num / den).log2 + e - 52) (-1074)) :
    AtScale ((num : ℚ) / den * 2 ^ e) (max ((num / den).log2 + e - 52) (-1074)) := by
  have hpos : (0 : ℚ) < den := by exact_mod_cast hden
  obtain ⟨k, hk⟩ : ∃ k : ℕ, max ((num / den).log2 + e - 52) (-1074) = e + k :=
    ⟨(max ((num / den).log2 + e - 52) (-1074) - e).toNat, by omega⟩
  have hvalue : (num : ℚ) / den * 2 ^ e / 2 ^ (e + k) = num / den / 2 ^ k := by
    rw [zpow_add₀ two_ne_zero, zpow_natCast]
    field_simp
  rw [hk]
  refine ⟨by omega, ?_, fun hleast => ?_⟩
  · have hbits : num / den + 1 ≤ 2 ^ (53 + k) :=
      Nat.lt_log2_self.trans_le (Nat.pow_le_pow_right (by decide) (by omega))
    rw [hvalue, div_lt_iff₀ (by positivity), ← pow_add, div_lt_iff₀ hpos]
    have hlt := Nat.lt_mul_of_div_lt (show num / den < 2 ^ (53 + k) by omega) hden
    exact_mod_cast hlt
  · have hlog : (num / den).log2 = 52 + k := by omega
    have hbits : 2 ^ (52 + k) ≤ num / den := by
      rw [← hlog]
      refine Nat.log2_self_le fun hzero => ?_
      rw [hzero, Nat.log2_zero] at hlog
      omega
    rw [hvalue, le_div_iff₀ (by positivity), ← pow_add, le_div_iff₀ hpos]
    exact_mod_cast (Nat.le_div_iff_mul_le hden).mp hbits

/-! ## Results -/

/-- The unpacked float that a positive number is rounded to. A number that is too small becomes
zero, and one that is too large infinite. -/
inductive Result (r : ℚ) : UnpackedFloat → Prop
  | finite {m : ℕ} {q : ℤ} {hpos : 0 < m} (h : RoundsTo r m q) :
      Result r (.finite .positive m q hpos)
  | zero (h : r / 2 ^ (-1074 : ℤ) * 2 ≤ 1) : Result r (.zero .positive)
  | infinity (h : 2 ^ 1024 ≤ r) : Result r (.infinity .positive)

/-- A number of at most 53 bits at the least exponent or above stays as it is. -/
theorem shiftToTargetExponent_of_lt (hlt : n < 2 ^ 53) (ht : -1074 ≤ t) :
    shiftToTargetExponent .binary64 n t .exact = (⟨n, false, false⟩, t) := by
  have hlog : n.log2 ≤ 52 := by
    rcases Nat.eq_zero_or_pos n with rfl | hpos
    · simp
    · exact log2_le_of_lt hpos hlt
  have htarget : (Format.binary64.targetExponent (totalExponent n t) - t).toNat = 0 := by
    rw [targetExponent_eq]
    omega
  rw [shiftToTargetExponent, shiftToExponent, htarget]
  exact Prod.ext rfl (add_zero t)

theorem shiftToTargetExponent_carried (ht : -1074 ≤ t) :
    shiftToTargetExponent .binary64 (2 ^ 53) t .exact = (⟨2 ^ 52, false, false⟩, t + 1) := by
  have htarget : (Format.binary64.targetExponent (totalExponent (2 ^ 53) t) - t).toNat = 1 := by
    rw [targetExponent_eq, Nat.log2_two_pow]
    omega
  rw [shiftToTargetExponent, shiftToExponent, htarget]
  rfl

/-- Only a number below half the least float is rounded to zero. -/
theorem AtScale.le_one_of_isNearest_zero {r : ℚ} (h : AtScale r t) (hn : IsNearest (r / 2 ^ t) 0) :
    r / 2 ^ (-1074 : ℤ) * 2 ≤ 1 := by
  obtain rfl : t = -1074 := by
    by_contra hne
    have hbits := h.le (by have := h.least; omega)
    have hle := hn.ge_of_le (m := 2 ^ 52) (by exact_mod_cast hbits)
    omega
  have hhigh := hn.bounds.2
  simpa [mul_comm] using hhigh

/-- A quotient that is shifted to its exponent is a quotient by the shifted denominator. -/
theorem shiftToTargetExponent_quotient (num : ℕ) (hden : 0 < den) {k : ℕ}
    (htarget : Format.binary64.targetExponent (totalExponent (num / den) e) = e + k) :
    shiftToTargetExponent .binary64 (num / den) e (accuracyOfFraction (num % den) den) =
      (ofQuotient num (den * 2 ^ k), e + k) := by
  rw [shiftToTargetExponent, shiftToExponent, htarget, ofMantissaAndAccuracy_eq hden,
    show (e + k - e).toNat = k by omega, shiftRight_ofQuotient num hden]

/-- **Rounding a quotient gives the nearest float.** -/
theorem result_roundWithAccuracy (num : ℕ) (hden : 0 < den)
    (he : e ≤ max ((num / den).log2 + e - 52) (-1074)) :
    Result ((num : ℚ) / den * 2 ^ e)
      (roundWithAccuracy .binary64 .positive (num / den) e
        (accuracyOfFraction (num % den) den)) := by
  have hscale := atScale_target hden he
  have htarget := targetExponent_eq (num / den) e
  generalize max ((num / den).log2 + e - 52) (-1074) = t at *
  obtain ⟨k, rfl⟩ : ∃ k : ℕ, t = e + k := ⟨(t - e).toNat, by omega⟩
  have hnearest : IsNearest ((num : ℚ) / den * 2 ^ e / 2 ^ (e + k))
      (ofQuotient num (den * 2 ^ k)).roundedMantissa := by
    have h := isNearest_roundedMantissa num (Nat.mul_pos hden (Nat.two_pow_pos k))
    have hvalue : (num : ℚ) / den * 2 ^ e / 2 ^ (e + k) = num / (den * 2 ^ k : ℕ) := by
      rw [zpow_add₀ two_ne_zero, zpow_natCast]
      push_cast
      field_simp
    rwa [← hvalue] at h
  rw [roundWithAccuracy, shiftToTargetExponent_quotient num hden htarget]
  dsimp only
  generalize (ofQuotient num (den * 2 ^ k)).roundedMantissa = n at *
  rcases Nat.lt_or_eq_of_le (hscale.le_of_isNearest hnearest) with hlt | rfl
  · rw [shiftToTargetExponent_of_lt hlt hscale.least]
    dsimp only
    split
    case isTrue hzero =>
      subst hzero
      exact .zero (hscale.le_one_of_isNearest_zero hnearest)
    case isFalse hne => exact .finite (.within hscale hnearest hlt)
  · rw [shiftToTargetExponent_carried hscale.least, dif_neg (by norm_num)]
    exact .finite (.carried hscale hnearest)

/-! ## Products, quotients and decimals -/

variable {m₁ m₂ d : ℕ}

/-- **A product is rounded once.** -/
theorem result_mul (e₁ e₂ : ℤ) (h₁ : 0 < m₁) (h₂ : 0 < m₂) (h : 2 ^ 52 ≤ m₁ * m₂) :
    Result (m₁ * 2 ^ e₁ * (m₂ * 2 ^ e₂))
      (UnpackedFloat.mul .binary64 (.finite .positive m₁ e₁ h₁) (.finite .positive m₂ e₂ h₂)) := by
  have hlog : 52 ≤ (m₁ * m₂ / 1).log2 := by
    rw [Nat.div_one]
    exact (Nat.le_log2 (by omega)).mpr h
  have hround := result_roundWithAccuracy (m₁ * m₂) (e := e₁ + e₂) Nat.one_pos (by omega)
  have hvalue : ((m₁ * m₂ : ℕ) : ℚ) / (1 : ℕ) * 2 ^ (e₁ + e₂) = m₁ * 2 ^ e₁ * (m₂ * 2 ^ e₂) := by
    rw [zpow_add₀ two_ne_zero]
    push_cast
    ring
  rw [hvalue, Nat.div_one, Nat.mod_one] at hround
  exact hround

/-- The quotient is computed with enough bits. -/
theorem le_log2_div {k : ℕ} (h₁ : 0 < m₁) (h₂ : 0 < m₂) (hk : m₂.log2 + 53 ≤ m₁.log2 + k) :
    52 ≤ ((m₁ <<< k) / m₂).log2 := by
  have hle : 2 ^ 52 ≤ (m₁ <<< k) / m₂ := by
    rw [Nat.le_div_iff_mul_le h₂, Nat.shiftLeft_eq]
    calc 2 ^ 52 * m₂ ≤ 2 ^ 52 * 2 ^ (m₂.log2 + 1) := Nat.mul_le_mul_left _ Nat.lt_log2_self.le
      _ = 2 ^ (m₂.log2 + 53) := by rw [← Nat.pow_add]; congr 1; omega
      _ ≤ 2 ^ (m₁.log2 + k) := Nat.pow_le_pow_right (by decide) hk
      _ = 2 ^ m₁.log2 * 2 ^ k := Nat.pow_add ..
      _ ≤ m₁ * 2 ^ k := Nat.mul_le_mul_right _ (Nat.log2_self_le h₁.ne')
  exact (Nat.le_log2 (by omega)).mpr hle

/-- **A quotient is rounded once.** -/
theorem result_div (e₁ e₂ : ℤ) (h₁ : 0 < m₁) (h₂ : 0 < m₂) :
    Result (m₁ * 2 ^ e₁ / (m₂ * 2 ^ e₂))
      (UnpackedFloat.div .binary64 (.finite .positive m₁ e₁ h₁) (.finite .positive m₂ e₂ h₂)) := by
  have hmin : Format.binary64.minExponent = -1074 := by decide
  have hbits : Format.binary64.mantissaBits = 53 := by decide
  rw [UnpackedFloat.div, divCore]
  dsimp only
  rw [Format.targetExponent, hmin, hbits, totalExponent, totalExponent]
  generalize ht : min (e₁ - e₂) _ = t
  obtain ⟨k, hk⟩ : ∃ k : ℕ, e₁ - e₂ = t + k := ⟨(e₁ - e₂ - t).toNat, by omega⟩
  have hround := result_roundWithAccuracy (m₁ <<< k) (e := t) h₂ (by
    rcases le_or_gt t (-1074) with hleast | hleast
    · omega
    · have hlog := le_log2_div (k := k) h₁ h₂ (by omega)
      omega)
  have hvalue : ((m₁ <<< k : ℕ) : ℚ) / m₂ * 2 ^ t = m₁ * 2 ^ e₁ / (m₂ * 2 ^ e₂) := by
    have hpow : (2 : ℚ) ^ e₁ = 2 ^ k * 2 ^ t * 2 ^ e₂ := by
      rw [← zpow_natCast, ← zpow_add₀ two_ne_zero, ← zpow_add₀ two_ne_zero]
      congr 1
      omega
    rw [Nat.shiftLeft_eq, hpow]
    push_cast
    field_simp
  rw [hvalue] at hround
  rw [show (e₁ - e₂ - t).toNat = k by omega]
  exact hround

theorem two_pow_le_of_large {e : ℤ} (hd : 0 < d) (he : 1024 ≤ e) : (2 : ℚ) ^ 1024 ≤ d * 10 ^ e := by
  have hone : (1 : ℚ) ≤ d := by exact_mod_cast hd
  calc (2 : ℚ) ^ 1024 ≤ 10 ^ 1024 := by gcongr; norm_num
    _ = 10 ^ (1024 : ℤ) := (zpow_natCast _ _).symm
    _ ≤ 10 ^ e := zpow_le_zpow_right₀ (by norm_num) he
    _ ≤ d * 10 ^ e := le_mul_of_one_le_left (by positivity) hone

theorem le_one_of_small {e : ℤ} (he : d.log2 + 1 + e ≤ -1075) :
    (d : ℚ) * 10 ^ e / 2 ^ (-1074 : ℤ) * 2 ≤ 1 := by
  have hd : (d : ℚ) ≤ 2 ^ (d.log2 + 1) := by exact_mod_cast Nat.lt_log2_self.le
  have hpow : (10 : ℚ) ^ e ≤ 2 ^ e := by
    obtain ⟨n, rfl⟩ : ∃ n : ℕ, e = -n := ⟨(-e).toNat, by omega⟩
    rw [zpow_neg, zpow_neg, zpow_natCast, zpow_natCast]
    gcongr
    norm_num
  have hle : (d : ℚ) * 10 ^ e ≤ 2 ^ (-1075 : ℤ) :=
    calc (d : ℚ) * 10 ^ e ≤ 2 ^ (d.log2 + 1) * 2 ^ e := by gcongr
      _ = 2 ^ ((d.log2 + 1 : ℕ) + e) := by rw [zpow_add₀ two_ne_zero, zpow_natCast]
      _ ≤ 2 ^ (-1075 : ℤ) := zpow_le_zpow_right₀ one_le_two (by exact_mod_cast he)
  rw [div_mul_eq_mul_div, div_le_one (by positivity)]
  calc (d : ℚ) * 10 ^ e * 2 ≤ 2 ^ (-1075 : ℤ) * 2 := by gcongr
    _ = 2 ^ (-1074 : ℤ) := by rw [← zpow_add_one₀ two_ne_zero]; rfl

/-- **A decimal number is rounded to the nearest float.** -/
theorem result_ofScientific (hd : 0 < d) (e : ℤ) :
    Result (d * 10 ^ e) (UnpackedFloat.ofScientific .binary64 d e) := by
  have hrange : (2 : ℤ) ^ Format.binary64.exponentBits = 2048 := by decide
  rw [UnpackedFloat.ofScientific, dif_neg hd.ne']
  split
  case isTrue => exact .infinity (two_pow_le_of_large hd (by omega))
  split
  case isTrue => exact .zero (le_one_of_small (by omega))
  split
  case isTrue he =>
    have hbits : (d <<< Format.binary64.mantissaBits : ℕ) = d * 2 ^ 53 := Nat.shiftLeft_eq ..
    have hten : 0 < 10 ^ e.toNat := Nat.pow_pos (by decide)
    have hlarge : 2 ^ 52 ≤ (d <<< Format.binary64.mantissaBits) * 10 ^ e.toNat := by nlinarith
    have hresult := result_mul (-Format.binary64.mantissaBits) 0 (by omega) hten hlarge
    have hvalue : ((d <<< Format.binary64.mantissaBits : ℕ) : ℚ) *
        2 ^ (-(Format.binary64.mantissaBits : ℤ)) * ((10 ^ e.toNat : ℕ) * 2 ^ (0 : ℤ)) =
          d * 10 ^ e := by
      obtain ⟨n, rfl⟩ := Int.eq_ofNat_of_zero_le he
      rw [hbits, show Format.binary64.mantissaBits = 53 from rfl, Int.toNat_natCast, zpow_neg,
        zpow_natCast, zpow_natCast, zpow_zero]
      push_cast
      field_simp
      norm_num
    rwa [hvalue] at hresult
  case isFalse he =>
    have hten : 0 < 10 ^ (-e).toNat := Nat.pow_pos (by decide)
    have hresult := result_div 0 0 hd hten
    have hvalue : (d : ℚ) * 2 ^ (0 : ℤ) / ((10 ^ (-e).toNat : ℕ) * 2 ^ (0 : ℤ)) = d * 10 ^ e := by
      obtain ⟨n, rfl⟩ : ∃ n : ℕ, e = -n := ⟨(-e).toNat, by omega⟩
      rw [neg_neg, Int.toNat_natCast, zpow_neg, zpow_natCast, zpow_zero]
      push_cast
      field_simp
    rwa [hvalue] at hresult

end

/-! ## Reading decimals -/

/-- The float stands for a power of ten. -/
def isPowerOfTen (x : Float) (k : ℕ) : Bool :=
  match x.toModel.unpack with
  | .finite .positive m e _ => -52 ≤ e && m * 2 ^ (e + 52).toNat == 10 ^ k * 2 ^ 52
  | _ => false

theorem isPowerOfTen_table :
    ∀ k : Fin 23, isPowerOfTen Float.exactlyRepresentablePowersOfTen[k] k = true := by
  decide +kernel

/-- The powers of ten up to the twenty-second are stored exactly. -/
theorem powerOfTen_eq {k : ℕ} (hk : k < Float.exactlyRepresentablePowersOfTen.size) :
    ∃ m e hpos, Float.exactlyRepresentablePowersOfTen[k].toModel.unpack =
      .finite .positive m e hpos ∧ (m : ℚ) * 2 ^ e = 10 ^ k := by
  have htable := isPowerOfTen_table ⟨k, hk⟩
  unfold isPowerOfTen at htable
  split at htable
  case h_1 m e hpos hunpack =>
    simp only [Bool.and_eq_true, decide_eq_true_eq, beq_iff_eq] at htable
    obtain ⟨n, rfl⟩ : ∃ n : ℕ, e = (n : ℤ) - 52 := ⟨(e + 52).toNat, by omega⟩
    rw [sub_add_cancel, Int.toNat_natCast] at htable
    refine ⟨m, _, hpos, hunpack, (mul_two_zpow_eq htable.2.symm).trans ?_⟩
    push_cast
    rfl
  case h_2 => cases htable

/-- A number of at most 53 bits and a power of ten that are both stored exactly are multiplied and
divided with one rounding. -/
theorem result_table {d k : ℕ} (hd : 0 < d) (hlt : d < 2 ^ 53)
    (hk : k < Float.exactlyRepresentablePowersOfTen.size) :
    Result (d * 10 ^ k) (UnpackedFloat.mul .binary64 d.toUInt64.toFloat.toModel.unpack
      Float.exactlyRepresentablePowersOfTen[k].toModel.unpack) ∧
    Result (d / 10 ^ k) (UnpackedFloat.div .binary64 d.toUInt64.toFloat.toModel.unpack
      Float.exactlyRepresentablePowersOfTen[k].toModel.unpack) := by
  obtain ⟨m₁, j, h₁, hunpack₁, hlow, -, hvalue⟩ :=
    (stands_ofUInt64 hd hlt).exists_mantissa (by exact_mod_cast hd)
  rw [Int.toNat_natCast] at hvalue
  obtain ⟨m₂, e₂, h₂, hunpack₂, hpow⟩ := powerOfTen_eq hk
  rw [hunpack₁, hunpack₂, ← mul_two_zpow_eq hvalue, ← hpow]
  exact ⟨result_mul _ _ h₁ h₂ (by nlinarith), result_div _ _ h₁ h₂⟩

theorem signed_natAbs (e : ℤ) :
    (if decide (e < 0) = true then Int.negOfNat e.natAbs else Int.ofNat e.natAbs) = e := by
  split
  case isTrue h =>
    have := of_decide_eq_true h
    rw [Int.negOfNat_eq]
    change -(e.natAbs : ℤ) = e
    omega
  case isFalse h =>
    have := of_decide_eq_false (Bool.not_eq_true _ ▸ h)
    change (e.natAbs : ℤ) = e
    omega

/-- **Reading a decimal number gives the nearest float.** -/
theorem exists_result {d : ℕ} (hd : 0 < d) (e : ℤ) :
    ∃ u, (Decimal.nearest d e).toModel = .pack u ∧ Result (d * 10 ^ e) u := by
  rw [Decimal.nearest, Float.ofScientific]
  split
  case isTrue hfast =>
    have hsize : Float.exactlyRepresentablePowersOfTen.size = 23 := by decide
    obtain ⟨hmul, hdiv⟩ := result_table (k := e.natAbs) hd hfast.1 (by omega)
    by_cases hneg : e < 0
    · have hexp : (d : ℚ) / 10 ^ e.natAbs = d * 10 ^ e := by
        rw [div_eq_mul_inv, ← zpow_natCast, ← zpow_neg]
        congr 2
        omega
      rw [hexp] at hdiv
      rw [decide_eq_true hneg]
      exact ⟨_, rfl, hdiv⟩
    · have hexp : (d : ℚ) * 10 ^ e.natAbs = d * 10 ^ e := by
        rw [← zpow_natCast]
        congr 2
        omega
      rw [hexp] at hmul
      rw [decide_eq_false hneg]
      exact ⟨_, rfl, hmul⟩
  case isFalse =>
    refine ⟨_, ?_, result_ofScientific hd e⟩
    dsimp only
    rw [signed_natAbs]
    rfl

section

variable {r : ℚ} {m : ℕ} {q : ℤ}

/-- The numbers in the interval of a float are above half the least one. -/
theorem one_lt_of_contains (h : Canonical m q) (hr : (Shortest.interval m q).Contains (q - 2) r) :
    1 < r / 2 ^ (-1074 : ℤ) * 2 := by
  obtain ⟨hn, -⟩ := (contains_interval_iff h.pos).mp hr
  have hlow : 1 < 2 * (r / 2 ^ q) := by
    have hone : (1 : ℚ) ≤ m := by exact_mod_cast h.pos
    have hbound := hn.bounds.1
    unfold IsNearest at hn
    split at hn
    case isTrue heven =>
      have htwo : (2 : ℚ) ≤ m := by
        have hpos := h.pos
        exact_mod_cast (show 2 ≤ m by omega)
      linarith
    case isFalse => linarith [hn.1]
  have hpow : (2 : ℚ) ^ (-1074 - q) ≤ 1 := zpow_le_one_of_nonpos₀ one_le_two (by linarith [h.least])
  have hle : r / 2 ^ q ≤ r / 2 ^ (-1074 : ℤ) := by
    have hle : (2 : ℚ) ^ (-1074 : ℤ) ≤ 2 ^ q := zpow_le_zpow_right₀ one_le_two h.least
    have hr : 0 ≤ r := by
      have : 0 < r / 2 ^ q := by linarith
      exact (div_pos_iff_of_pos_right (by positivity)).mp this |>.le
    gcongr
  linarith

/-- The numbers in the interval of a finite float are below `2 ^ 1024`. -/
theorem lt_of_contains (h : Canonical m q) (hq : q ≤ 971)
    (hr : (Shortest.interval m q).Contains (q - 2) r) : r < 2 ^ 1024 := by
  obtain ⟨hn, -⟩ := (contains_interval_iff h.pos).mp hr
  have hm : (m : ℚ) + 1 ≤ 2 ^ 53 := by exact_mod_cast h.lt
  have hhigh := hn.bounds.2
  have hlt : r / 2 ^ q < 2 ^ 53 := by linarith
  calc r < 2 ^ 53 * 2 ^ q := (div_lt_iff₀ (by positivity)).mp hlt
    _ ≤ 2 ^ 53 * 2 ^ (971 : ℤ) := by gcongr; norm_num
    _ = 2 ^ (53 + 971) := by rw [pow_add, ← zpow_natCast 2 971]; rfl

/-- **A number is packed as the float in whose interval it lies.** -/
theorem Result.unpack_eq_iff {u : UnpackedFloat} (hu : Result r u) (hpos : 0 < m)
    (h : Canonical m q) (hq : q ≤ 971) :
    (Float.Model.pack u).unpack = .finite .positive m q hpos ↔
      (Shortest.interval m q).Contains (q - 2) r := by
  rw [← roundsTo_iff h]
  cases hu with
  | @finite m' q' hpos' h' =>
    rcases le_or_gt q' 971 with hq' | hq'
    · rw [unpack_pack (h'.canonical hpos') hq', UnpackedFloat.finite.injEq]
      constructor
      · rintro ⟨-, rfl, rfl⟩
        exact h'
      · intro hround
        obtain ⟨rfl, rfl⟩ := h'.unique hround
        exact ⟨rfl, rfl, rfl⟩
    · rw [unpack_pack_of_large hq']
      refine iff_of_false (by simp) fun hround => ?_
      obtain ⟨-, rfl⟩ := h'.unique hround
      omega
  | zero hsmall =>
    rw [unpack_pack_zero]
    refine iff_of_false (by simp) fun hround => ?_
    exact absurd (one_lt_of_contains h ((roundsTo_iff h).mp hround)) (not_lt.mpr hsmall)
  | infinity hlarge =>
    rw [unpack_pack_infinity]
    refine iff_of_false (by simp) fun hround => ?_
    exact absurd (lt_of_contains h hq ((roundsTo_iff h).mp hround)) (not_lt.mpr hlarge)

/-- **A decimal number is read as the float in whose interval it lies.** -/
theorem nearest_eq_iff {x : Float} {negative : Bool} {d : ℕ} {e : ℤ}
    (hx : Binary.ofFloat x = .finite negative m q) (hm : 0 < m) (hd : 0 < d) :
    Decimal.nearest d e = unsigned negative x ↔
      (Shortest.interval m q).Contains (q - 2) (d * 10 ^ e) := by
  obtain ⟨hcanonical, hq⟩ := canonical_of_ofFloat hx hm
  obtain ⟨u, hmodel, hu⟩ := exists_result hd e
  rw [← hu.unpack_eq_iff hm hcanonical hq, ← hmodel, ← unpack_unsigned hx hm]
  exact ⟨fun h => by rw [h], eq_of_unpack_eq⟩

end

end Vorn.Rounding
