import Vorn.Proofs.Number.Scientific

/-!
# Rounding is monotone

`Rounds r v`: the number `r`, of either sign, is rounded to `v`. There is one such number, no float
is nearer (`Rounds.abs_sub_le`), the order is kept (`Rounds.mono`), and a whole number is changed by
less than its share of `2 ^ -53` (`Rounds.error`). Integers (`rounds_nearest`) and quotients of
floats (`HasValue.div`) are rounded so.
-/

namespace Vorn.Rounding

open Float.Model Float.Model.UnpackedFloat

/-! ## The nearest float -/

theorem abs_mul_two_zpow_sub (n r : ℚ) (t : ℤ) : |n * 2 ^ t - r| = |n - r / 2 ^ t| * 2 ^ t := by
  have hpow : (0 : ℚ) < 2 ^ t := by positivity
  rw [show n * 2 ^ t - r = (n - r / 2 ^ t) * 2 ^ t by field_simp, abs_mul, abs_of_pos hpow]

section

variable {r : ℚ} {n m : ℕ} {t q : ℤ}

/-- No whole number is nearer. -/
theorem IsNearest.abs_sub_le_intCast (h : IsNearest r n) (k : ℤ) : |n - r| ≤ |k - r| := by
  obtain ⟨hlow, hhigh⟩ := h.bounds
  have hhalf : |n - r| ≤ 1 / 2 := abs_le.mpr ⟨by linarith, by linarith⟩
  rcases eq_or_ne (n : ℤ) k with rfl | hne
  · exact_mod_cast le_rfl
  · have hone : (1 : ℚ) ≤ |(n : ℚ) - k| := by exact_mod_cast Int.one_le_abs (sub_ne_zero.mpr hne)
    have htriangle := abs_sub_le (n : ℚ) r k
    rw [abs_sub_comm r k] at htriangle
    linarith

/-- **No float is nearer** than what the mantissa is rounded to. -/
theorem AtScale.abs_sub_le_of_isFloat {g : ℚ} (h : AtScale r t) (hn : IsNearest (r / 2 ^ t) n)
    (hg : IsFloat g) : |n * 2 ^ t - r| ≤ |g - r| := by
  obtain ⟨k, u, hk, hu, rfl⟩ := hg
  rcases le_or_gt t u with htu | hut
  · -- the float has a whole mantissa at this exponent
    obtain ⟨j, rfl⟩ := Int.le.dest htu
    rw [intCast_mul_two_zpow, abs_mul_two_zpow_sub, abs_mul_two_zpow_sub]
    exact mul_le_mul_of_nonneg_right (hn.abs_sub_le_intCast _) (by positivity)
  · -- the float is below the least mantissa at this exponent
    have hleast : (2 : ℚ) ^ 52 ≤ r / 2 ^ t := h.le (by omega)
    have hnearer := hn.abs_sub_le_intCast (2 ^ 52)
    rw [Int.cast_pow, Int.cast_ofNat] at hnearer
    have hsmall : (k : ℚ) * 2 ^ u ≤ 2 ^ 52 * 2 ^ t := by
      have hk : (k : ℚ) ≤ 2 ^ 53 := by exact_mod_cast (le_abs_self k).trans hk.le
      calc (k : ℚ) * 2 ^ u ≤ 2 ^ 53 * 2 ^ u := by gcongr
        _ ≤ 2 ^ 52 * 2 ^ t := two_pow_mul_two_zpow_le hut
    have hlarge : 2 ^ 52 * 2 ^ t ≤ r := (le_div_iff₀ (by positivity)).mp hleast
    calc |(n : ℚ) * 2 ^ t - r| = |n - r / 2 ^ t| * 2 ^ t := abs_mul_two_zpow_sub ..
      _ ≤ |2 ^ 52 - r / 2 ^ t| * 2 ^ t := mul_le_mul_of_nonneg_right hnearer (by positivity)
      _ = |2 ^ 52 * 2 ^ t - r| := (abs_mul_two_zpow_sub ..).symm
      _ ≤ |(k : ℚ) * 2 ^ u - r| := by
        rw [abs_of_nonpos (by linarith), abs_of_nonpos (by linarith)]
        linarith

/-- Rounding at a scale, carried or not. -/
theorem RoundsTo.exists_atScale (h : RoundsTo r m q) :
    ∃ (n : ℕ) (t : ℤ), AtScale r t ∧ IsNearest (r / 2 ^ t) n ∧ (m : ℚ) * 2 ^ q = n * 2 ^ t := by
  cases h with
  | within hscale hn => exact ⟨m, q, hscale, hn, rfl⟩
  | @carried t hscale hn =>
    refine ⟨2 ^ 53, t, hscale, hn, ?_⟩
    rw [zpow_add_one₀ two_ne_zero]
    push_cast
    ring

theorem RoundsTo.abs_sub_le {g : ℚ} (h : RoundsTo r m q) (hg : IsFloat g) :
    |m * 2 ^ q - r| ≤ |g - r| := by
  obtain ⟨n, t, hscale, hn, hvalue⟩ := h.exists_atScale
  rw [hvalue]
  exact hscale.abs_sub_le_of_isFloat hn hg

theorem RoundsTo.isFloat (h : RoundsTo r m q) : IsFloat (m * 2 ^ q) := by
  cases h with
  | within hscale hn hlt =>
    exact ⟨m, q, by rw [abs_of_nonneg] <;> omega, hscale.least, by norm_cast⟩
  | @carried t hscale =>
    have := hscale.least
    exact ⟨2 ^ 52, t + 1, by norm_num, by omega, by norm_cast⟩

/-- A number that is not small is changed by less than its share. -/
theorem RoundsTo.error (h : RoundsTo r m q) (hr : 1 ≤ r) : 2 ^ 53 * |m * 2 ^ q - r| < r := by
  obtain ⟨n, t, hscale, hn, hvalue⟩ := h.exists_atScale
  have hpow : (0 : ℚ) < 2 ^ t := by positivity
  have hnormal : -1074 < t := by
    by_contra! hle
    obtain rfl : t = -1074 := le_antisymm hle hscale.least
    have hlt := (div_lt_iff₀ hpow).mp hscale.lt
    have hone : (2 : ℚ) ^ 53 * 2 ^ (-1074 : ℤ) ≤ 1 := by
      rw [← zpow_natCast, ← zpow_add₀ two_ne_zero]
      exact zpow_le_one_of_nonpos₀ one_le_two (by norm_num)
    linarith
  have hleast := hscale.le hnormal
  obtain ⟨hlow, hhigh⟩ := hn.bounds
  suffices hscaled : 2 ^ 53 * |n - r / 2 ^ t| < r / 2 ^ t by
    rw [hvalue, abs_mul_two_zpow_sub, ← mul_assoc]
    exact (lt_div_iff₀ hpow).mp hscaled
  rcases hleast.eq_or_lt with heq | hlt
  · -- the least mantissa is whole, so nothing is lost
    have hexact := hn.abs_sub_le_intCast (2 ^ 52)
    rw [Int.cast_pow, Int.cast_ofNat, heq, sub_self, abs_zero] at hexact
    rw [le_antisymm hexact (abs_nonneg _), mul_zero, ← heq]
    norm_num
  · have hhalf : |n - r / 2 ^ t| ≤ 1 / 2 := abs_le.mpr ⟨by linarith, by linarith⟩
    linarith

end

/-! ## Rounding of either sign -/

/-- The number is rounded to the float. -/
inductive Rounds : ℚ → ℚ → Prop
  | zero : Rounds 0 0
  | positive {r : ℚ} {m : ℕ} {q : ℤ} (hr : 0 < r) (h : RoundsTo r m q) : Rounds r (m * 2 ^ q)
  | negative {r : ℚ} {m : ℕ} {q : ℤ} (hr : 0 < r) (h : RoundsTo r m q) :
      Rounds (-r) (-(m * 2 ^ q))

namespace Rounds

variable {r s v w g : ℚ}

theorem neg (h : Rounds r v) : Rounds (-r) (-v) := by
  cases h with
  | zero => simpa using zero
  | positive hr h => exact .negative hr h
  | negative hr h => simpa using positive hr h

theorem isFloat (h : Rounds r v) : IsFloat v := by
  cases h with
  | zero => exact ⟨0, 0, by norm_num, by norm_num, by norm_num⟩
  | positive hr h => exact h.isFloat
  | negative hr h => exact h.isFloat.neg

theorem abs_sub_le (h : Rounds r v) (hg : IsFloat g) : |v - r| ≤ |g - r| := by
  cases h with
  | zero => simp
  | positive hr h => exact h.abs_sub_le hg
  | @negative r m q hr h =>
    calc |-((m : ℚ) * 2 ^ q) - -r| = |m * 2 ^ q - r| := by rw [neg_sub_neg, abs_sub_comm]
      _ ≤ |-g - r| := h.abs_sub_le hg.neg
      _ = |g - -r| := by rw [← abs_neg, neg_sub, sub_neg_eq_add, sub_neg_eq_add, add_comm]

theorem exists_of_pos (h : Rounds r v) (hr : 0 < r) : ∃ m q, RoundsTo r m q ∧ v = m * 2 ^ q := by
  cases h with
  | zero => exact absurd hr (lt_irrefl _)
  | positive _ h => exact ⟨_, _, h, rfl⟩
  | negative hr' => linarith

/-- A number is rounded to one float. -/
theorem unique (h : Rounds r v) (h' : Rounds r w) : v = w := by
  have hpositive {r v w : ℚ} (h : Rounds r v) (h' : Rounds r w) (hr : 0 < r) : v = w := by
    obtain ⟨m, q, hv, rfl⟩ := h.exists_of_pos hr
    obtain ⟨n, u, hw, rfl⟩ := h'.exists_of_pos hr
    obtain ⟨rfl, rfl⟩ := hv.unique hw
    rfl
  rcases lt_trichotomy r 0 with hr | rfl | hr
  · exact neg_injective (hpositive h.neg h'.neg (neg_pos.mpr hr))
  · have hv := h.abs_sub_le zero.isFloat
    have hw := h'.abs_sub_le zero.isFloat
    rw [sub_self, abs_zero, abs_nonpos_iff, sub_eq_zero] at hv hw
    rw [hv, hw]
  · exact hpositive h h' hr

/-- Between a number and a float below the one that it is rounded to lies the middle of both. -/
theorem add_le_two_mul (h : Rounds r v) (hg : IsFloat g) (hlt : g < v) : g + v ≤ 2 * r := by
  have hle := h.abs_sub_le hg
  rcases abs_cases (v - r) with ⟨hv, hv'⟩ | ⟨hv, hv'⟩ <;>
    rcases abs_cases (g - r) with ⟨hg, -⟩ | ⟨hg, -⟩ <;> linarith

theorem two_mul_le_add (h : Rounds r v) (hg : IsFloat g) (hlt : v < g) : 2 * r ≤ v + g := by
  have hle := h.neg.add_le_two_mul hg.neg (neg_lt_neg hlt)
  linarith

/-- **Rounding keeps the order.** -/
theorem mono (h : Rounds r v) (h' : Rounds s w) (hle : r ≤ s) : v ≤ w := by
  rcases hle.eq_or_lt with rfl | hlt
  · exact (h.unique h').le
  · by_contra! hwv
    have hr := h.add_le_two_mul h'.isFloat hwv
    have hs := h'.two_mul_le_add h.isFloat hwv
    linarith

/-- A whole number is changed by less than its share. -/
theorem error {a : ℤ} (h : Rounds a v) (ha : a ≠ 0) : 2 ^ 53 * |v - a| < |(a : ℚ)| := by
  have hpositive {a : ℤ} {v : ℚ} (h : Rounds a v) (ha : 0 < a) :
      2 ^ 53 * |v - a| < |(a : ℚ)| := by
    have hone : (1 : ℚ) ≤ a := by exact_mod_cast ha
    obtain ⟨m, q, hround, rfl⟩ := h.exists_of_pos (by linarith)
    rw [abs_of_pos (by linarith : (0 : ℚ) < a)]
    exact hround.error hone
  rcases lt_or_gt_of_ne ha with ha | ha
  · have hneg := h.neg
    rw [← Int.cast_neg] at hneg
    have herror := hpositive hneg (neg_pos.mpr ha)
    rw [Int.cast_neg, abs_neg, neg_sub_neg, abs_sub_comm] at herror
    exact herror
  · exact hpositive h ha

end Rounds

/-! ## Integers -/

theorem isNearest_self (n : ℕ) : IsNearest n n := by
  unfold IsNearest
  split <;> constructor <;> linarith

/-- A float is rounded to itself. -/
theorem Canonical.roundsTo {m : ℕ} {q : ℤ} (h : Canonical m q) : RoundsTo (m * 2 ^ q) m q := by
  have hvalue : (m : ℚ) * 2 ^ q / 2 ^ q = m := mul_div_cancel_right₀ _ (by positivity)
  refine .within ⟨h.least, ?_, fun hq => ?_⟩ ?_ h.lt <;> rw [hvalue]
  · exact_mod_cast h.lt
  · exact_mod_cast h.le hq
  · exact isNearest_self m

/-- A large whole number is rounded at the scale of its bits. -/
theorem exists_roundsTo_of_large {n : ℕ} (h : 2 ^ 52 ≤ n) :
    ∃ m q, RoundsTo n m q ∧ (m : ℚ) * 2 ^ q = nearestNat n := by
  have hlog : 52 ≤ n.log2 := (Nat.le_log2 (by omega)).mpr h
  obtain ⟨k, hk⟩ : ∃ k, n.log2 = 52 + k := ⟨n.log2 - 52, by omega⟩
  have hlow : 2 ^ (52 + k) ≤ n := hk ▸ Nat.log2_self_le (by omega)
  have hhigh : n < 2 ^ (52 + k + 1) := hk ▸ Nat.lt_log2_self
  have hpow : (0 : ℚ) < 2 ^ (k : ℤ) := by positivity
  have hscale : AtScale n k := by
    refine ⟨by omega, ?_, fun _ => ?_⟩
    · rw [div_lt_iff₀ hpow, zpow_natCast, ← pow_add, show 53 + k = 52 + k + 1 by omega]
      exact_mod_cast hhigh
    · rw [le_div_iff₀ hpow, zpow_natCast, ← pow_add]
      exact_mod_cast hlow
  have hnearest : IsNearest (n / 2 ^ (k : ℤ)) (halfEven n k) := by
    have h := isNearest_roundedMantissa n (Nat.two_pow_pos k)
    rw [← shiftRight_eq, roundedMantissa_shiftRight] at h
    simpa using h
  have hvalue : nearestNat n = halfEven n k * 2 ^ k := by
    rw [nearestNat, show n.log2 - 52 = k by omega]
  rcases (hscale.le_of_isNearest hnearest).lt_or_eq with hlt | heq
  · exact ⟨_, _, .within hscale hnearest hlt, by rw [hvalue]; push_cast; rfl⟩
  · rw [heq] at hnearest hvalue
    refine ⟨_, _, .carried hscale hnearest, ?_⟩
    rw [hvalue, zpow_add_one₀ two_ne_zero]
    push_cast
    rw [zpow_natCast]
    ring

/-- A whole number is rounded to the nearest one with 53 bits. -/
theorem rounds_natCast (n : ℕ) : Rounds n (nearestNat n) := by
  rcases n.eq_zero_or_pos with rfl | hpos
  · simpa [nearestNat_eq] using Rounds.zero
  rcases Nat.lt_or_ge n (2 ^ 52) with hsmall | hlarge
  · have hstands := stands_ofNat (n := n) (by omega)
    rw [nearestNat_eq (by omega)] at hstands ⊢
    obtain ⟨m, k, hm, -, hlow, hhigh, hn⟩ := hstands.exists_mantissa (by omega)
    have hcanonical : Canonical m ((k : ℤ) - 52) := ⟨hm, hhigh, by omega, fun _ => hlow⟩
    have hvalue := mul_two_zpow_eq (by simpa using hn)
    have hround := Rounds.positive hcanonical.value_pos hcanonical.roundsTo
    rwa [hvalue] at hround
  · obtain ⟨m, q, hround, hvalue⟩ := exists_roundsTo_of_large hlarge
    exact hvalue ▸ .positive (by exact_mod_cast hpos) hround

theorem rounds_nearest (a : ℤ) : Rounds a (nearest a) := by
  obtain ⟨n, rfl | rfl⟩ := a.eq_nat_or_neg
  · rw [nearest_natCast]
    exact_mod_cast rounds_natCast n
  · rw [nearest_neg_natCast]
    exact_mod_cast (rounds_natCast n).neg

theorem hasValue_ofInt {a : ℤ} (h : a.natAbs < 2 ^ 64) : HasValue (.ofInt a) (nearest a) :=
  (stands_ofInt h).hasValue

theorem hasValue_ofNat {n : ℕ} (h : n ≤ 2 ^ 53) : HasValue (.ofNat n) n := by
  have hstands := stands_ofNat (n := n) (by omega)
  rw [nearestNat_eq h] at hstands
  exact_mod_cast hstands.hasValue

/-! ## Quotients -/

theorem roundWithAccuracy_neg (spec : Format) (s : Sign) (m : ℕ) (e : ℤ) (acc : Accuracy) :
    roundWithAccuracy spec (-s) m e acc = (roundWithAccuracy spec s m e acc).neg := by
  simp only [roundWithAccuracy]
  split <;> rfl

/-- A result that is neither too small nor too large is finite. -/
theorem Result.exists_finite {r : ℚ} {u : UnpackedFloat} (h : Result r u)
    (hlow : 2 ^ (-1000 : ℤ) ≤ r) (hhigh : r ≤ 2 ^ (900 : ℤ)) :
    ∃ m q hpos, u = .finite .positive m q hpos ∧ RoundsTo r m q ∧ q ≤ 971 := by
  cases h with
  | zero h =>
    have hpow : (2 : ℚ) ^ (-1074 : ℤ) < 2 ^ (-1000 : ℤ) :=
      zpow_lt_zpow_right₀ one_lt_two (by norm_num)
    have hpos : (0 : ℚ) < 2 ^ (-1000 : ℤ) := by positivity
    rw [div_mul_eq_mul_div, div_le_one (by positivity)] at h
    have hle := (le_mul_of_one_le_right (hpos.trans_le hlow).le one_le_two).trans h
    exact absurd (hlow.trans hle) (not_le.mpr hpow)
  | infinity h =>
    have hpow : (2 : ℚ) ^ (900 : ℤ) < 2 ^ (1024 : ℤ) := zpow_lt_zpow_right₀ one_lt_two (by norm_num)
    rw [← zpow_natCast] at h
    exact absurd (h.trans hhigh) (not_le.mpr hpow)
  | @finite m q hpos h =>
    have hscale {t : ℤ} (h : AtScale r t) : t ≤ 900 := by
      by_contra! hlt
      have hle := (le_div_iff₀ (by positivity)).mp (h.le (by omega))
      have hpow : (2 : ℚ) ^ (900 : ℤ) < 2 ^ t := zpow_lt_zpow_right₀ one_lt_two hlt
      have hpos : (0 : ℚ) < 2 ^ t := by positivity
      have hle := (le_mul_of_one_le_left hpos.le (by norm_num)).trans hle
      exact absurd (hle.trans hhigh) (not_le.mpr hpow)
    refine ⟨m, q, hpos, rfl, h, ?_⟩
    cases h with
    | within h => exact (hscale h).trans (by norm_num)
    | carried h => have := hscale h; omega

theorem div_negative (spec : Format) {m₁ m₂ : ℕ} {q₁ q₂ : ℤ} (h₁ : 0 < m₁) (h₂ : 0 < m₂) :
    UnpackedFloat.div spec (.finite .negative m₁ q₁ h₁) (.finite .positive m₂ q₂ h₂) =
      (UnpackedFloat.div spec (.finite .positive m₁ q₁ h₁) (.finite .positive m₂ q₂ h₂)).neg := by
  simp only [UnpackedFloat.div]
  exact roundWithAccuracy_neg spec .positive _ _ _

theorem toModel_div (x y : Float) : (x / y).toModel =
    .pack (UnpackedFloat.div .binary64 x.toModel.unpack y.toModel.unpack) := rfl

/-- **A quotient of floats is rounded once**, if it is neither too small nor too large. -/
theorem HasValue.div {x y : Float} {a b : ℚ} (hx : HasValue x a) (hy : HasValue y b) (hb : 0 < b)
    (hlow : a ≠ 0 → 2 ^ (-1000 : ℤ) ≤ |a| / b) (hhigh : |a| / b ≤ 2 ^ (900 : ℤ)) :
    ∃ v, HasValue (x / y) v ∧ Rounds (a / b) v := by
  have hdiv := toModel_div x y
  cases hy with
  | zero => exact absurd hb (lt_irrefl _)
  | negative _ hc => exact absurd hb (neg_neg_of_pos hc.value_pos).not_gt
  | @positive m₂ q₂ hpos₂ hy hc₂ =>
    rw [hy] at hdiv
    have hresult {m₁ : ℕ} {q₁ : ℤ} (hpos₁ : 0 < m₁) (hlow) (hhigh) :=
      (result_div q₁ q₂ hpos₁ hpos₂).exists_finite hlow hhigh
    cases hx with
    | @zero s hx =>
      rw [hx] at hdiv
      refine ⟨0, .zero (s := s / .positive) ?_, by simpa using Rounds.zero⟩
      rw [hdiv]
      exact unpack_pack_zero _
    | @positive m₁ q₁ hpos₁ hx hc₁ =>
      have hvalue := hc₁.value_pos
      rw [abs_of_pos hvalue] at hlow hhigh
      obtain ⟨m, q, hpos, hu, hround, hq⟩ := hresult hpos₁ (hlow hvalue.ne') hhigh
      have hcanonical := hround.canonical hpos
      have hunpack : (x / y).toModel.unpack = .finite .positive m q hpos := by
        rw [hdiv, hx, hu]
        exact unpack_pack hcanonical hq
      exact ⟨_, .positive hunpack hcanonical, .positive (div_pos hvalue hb) hround⟩
    | @negative m₁ q₁ hpos₁ hx hc₁ =>
      have hvalue := hc₁.value_pos
      rw [abs_neg, abs_of_pos hvalue] at hlow hhigh
      obtain ⟨m, q, hpos, hu, hround, hq⟩ := hresult hpos₁ (hlow (neg_ne_zero.mpr hvalue.ne')) hhigh
      have hcanonical := hround.canonical hpos
      have hunpack : (x / y).toModel.unpack = .finite .negative m q hpos := by
        rw [hdiv, hx, div_negative, hu]
        exact unpack_pack hcanonical hq
      rw [neg_div]
      exact ⟨_, .negative hunpack hcanonical, .negative (div_pos hvalue hb) hround⟩

end Vorn.Rounding
