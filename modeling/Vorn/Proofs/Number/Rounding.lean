import Vorn.Proofs.Number.Value

/-!
# Integers as floats

The float of an integer is the nearest multiple of a power of two that has a mantissa of 53 bits,
the even one of two that are equally near.

* `Rounding.nearest`: that multiple. It goes up with the integer (`nearest_mono`), and up to
  `2 ^ 53` in magnitude it is the integer itself (`nearest_eq`).
* `Rounding.stands_ofInt`: the float of an integer of 64 bits stands for the nearest multiple.
* `Rounding.ofInt_lt_ofInt`: the floats of two integers compare as the nearest multiples do.
-/

namespace Vorn.Rounding

open Float.Model Float.Model.UnpackedFloat

/-! ## Rounding -/

/-- The quotient by `2 ^ k`, rounded to the nearest; of two that are equally near it is the even
one. -/
def halfEven (m k : Nat) : Nat :=
  if 2 * (m % 2 ^ k) < 2 ^ k then m / 2 ^ k
  else if 2 * (m % 2 ^ k) = 2 ^ k then m / 2 ^ k + m / 2 ^ k % 2
  else m / 2 ^ k + 1

/-- The nearest number with a mantissa of 53 bits. -/
def nearestNat (n : Nat) : Nat := halfEven n (n.log2 - 52) * 2 ^ (n.log2 - 52)

/-- The nearest number with a mantissa of 53 bits. -/
def nearest : Int → Int
  | .ofNat n => nearestNat n
  | .negSucc n => -nearestNat (n + 1)

theorem div_le_halfEven (m k : Nat) : m / 2 ^ k ≤ halfEven m k := by
  unfold halfEven
  split
  · exact Nat.le_refl _
  · split <;> omega

theorem halfEven_le (m k : Nat) : halfEven m k ≤ m / 2 ^ k + 1 := by
  unfold halfEven
  split
  · omega
  · split <;> omega

theorem halfEven_mono {m n : Nat} (h : m ≤ n) (k : Nat) : halfEven m k ≤ halfEven n k := by
  have hquot : m / 2 ^ k ≤ n / 2 ^ k := Nat.div_le_div_right h
  rcases Nat.lt_or_eq_of_le hquot with hlt | heq
  · have hm := halfEven_le m k
    have hn := div_le_halfEven n k
    omega
  · have hm := Nat.div_add_mod m (2 ^ k)
    have hn := Nat.div_add_mod n (2 ^ k)
    rw [heq] at hm
    have hrem : m % 2 ^ k ≤ n % 2 ^ k := by omega
    unfold halfEven
    rw [heq]
    split <;> split <;> (try split) <;> (try split) <;> omega

/-- A multiple of the power is divided without rounding. -/
theorem halfEven_mul (m k : Nat) : halfEven (m * 2 ^ k) k = m := by
  have hpos : 0 < 2 ^ k := Nat.two_pow_pos k
  unfold halfEven
  rw [Nat.mul_mod_left, Nat.mul_div_cancel _ hpos, if_pos (by simp)]

theorem halfEven_zero (m : Nat) : halfEven m 0 = m := by simpa using halfEven_mul m 0

/-- A common power of both cancels. -/
theorem halfEven_scale (m k j : Nat) : halfEven (m * 2 ^ j) (k + j) = halfEven m k := by
  have hpos : 0 < 2 ^ j := Nat.two_pow_pos j
  have hmod : m * 2 ^ j % 2 ^ (k + j) = m % 2 ^ k * 2 ^ j := by
    rw [Nat.pow_add, Nat.mul_mod_mul_right]
  have hdiv : m * 2 ^ j / 2 ^ (k + j) = m / 2 ^ k := by
    rw [Nat.pow_add, Nat.mul_div_mul_right _ _ hpos]
  have hlt : 2 * (m % 2 ^ k * 2 ^ j) < 2 ^ (k + j) ↔ 2 * (m % 2 ^ k) < 2 ^ k := by
    rw [Nat.pow_add, ← Nat.mul_assoc]
    exact Nat.mul_lt_mul_right hpos
  have heq : 2 * (m % 2 ^ k * 2 ^ j) = 2 ^ (k + j) ↔ 2 * (m % 2 ^ k) = 2 ^ k := by
    rw [Nat.pow_add, ← Nat.mul_assoc]
    exact Nat.mul_left_inj (by omega)
  unfold halfEven
  simp only [hmod, hdiv, hlt, heq]

/-! ## The nearest number -/

theorem log2_le_of_lt {n : Nat} (hpos : 0 < n) (h : n < 2 ^ 53) : n.log2 ≤ 52 :=
  Nat.le_of_lt_succ ((Nat.log2_lt (Nat.ne_of_gt hpos)).mpr h)

/-- The mantissa of a large number has 53 bits. -/
theorem two_pow_le_halfEven {n : Nat} (h : 52 ≤ n.log2) :
    2 ^ 52 ≤ halfEven n (n.log2 - 52) := by
  have hquot : 2 ^ 52 ≤ n / 2 ^ (n.log2 - 52) := by
    rw [Nat.le_div_iff_mul_le (Nat.two_pow_pos _), ← Nat.pow_add, Nat.add_sub_cancel' h]
    exact Nat.log2_self_le (by rintro rfl; simp at h)
  exact Nat.le_trans hquot (div_le_halfEven n _)

/-- It has no more, unless all its bits have been carried into the next one. -/
theorem halfEven_le_two_pow (n : Nat) : halfEven n (n.log2 - 52) ≤ 2 ^ 53 := by
  have hquot : n / 2 ^ (n.log2 - 52) < 2 ^ 53 := by
    rw [Nat.div_lt_iff_lt_mul (Nat.two_pow_pos _), ← Nat.pow_add]
    exact Nat.lt_of_lt_of_le Nat.lt_log2_self (Nat.pow_le_pow_right (by decide) (by omega))
  have hle := halfEven_le n (n.log2 - 52)
  omega

theorem nearestNat_eq {n : Nat} (h : n ≤ 2 ^ 53) : nearestNat n = n := by
  rcases Nat.lt_or_eq_of_le h with hlt | rfl
  · have hlog : n.log2 - 52 = 0 := by
      rcases Nat.eq_zero_or_pos n with rfl | hpos
      · rfl
      · exact Nat.sub_eq_zero_of_le (log2_le_of_lt hpos hlt)
    rw [nearestNat, hlog, halfEven_zero]
    simp
  · rw [nearestNat, Nat.log2_two_pow]
    exact congrArg (· * 2 ^ 1) (halfEven_mul (2 ^ 52) 1)

theorem nearestNat_mono {m n : Nat} (h : m ≤ n) : nearestNat m ≤ nearestNat n := by
  rcases Nat.eq_zero_or_pos m with rfl | hm
  · simp [nearestNat_eq]
  have hlog : m.log2 ≤ n.log2 := by
    rw [Nat.le_log2 (by omega)]
    exact Nat.le_trans (Nat.log2_self_le (Nat.ne_of_gt hm)) h
  rcases Nat.lt_or_eq_of_le (Nat.sub_le_sub_right hlog 52) with hlt | heq
  · -- between the two there is a power of two
    have hlow : 2 ^ 52 ≤ halfEven n (n.log2 - 52) := two_pow_le_halfEven (by omega)
    calc nearestNat m ≤ 2 ^ 53 * 2 ^ (m.log2 - 52) :=
          Nat.mul_le_mul_right _ (halfEven_le_two_pow m)
      _ = 2 ^ 52 * 2 ^ (m.log2 - 52 + 1) := by rw [Nat.pow_succ]; omega
      _ ≤ 2 ^ 52 * 2 ^ (n.log2 - 52) :=
          Nat.mul_le_mul_left _ (Nat.pow_le_pow_right (by decide) hlt)
      _ ≤ nearestNat n := Nat.mul_le_mul_right _ hlow
  · rw [nearestNat, nearestNat, heq]
    exact Nat.mul_le_mul_right _ (halfEven_mono h _)

theorem nearest_natCast (n : Nat) : nearest n = nearestNat n := rfl

theorem nearest_neg_natCast (n : Nat) : nearest (-n) = -nearestNat n := by
  cases n with
  | zero => simp [nearest, nearestNat_eq]
  | succ n => rfl

/-- **Rounding keeps the order.** -/
theorem nearest_mono {a b : Int} (h : a ≤ b) : nearest a ≤ nearest b := by
  obtain ⟨m, rfl | rfl⟩ := a.eq_nat_or_neg <;> obtain ⟨n, rfl | rfl⟩ := b.eq_nat_or_neg
  · have hle := nearestNat_mono (m := m) (n := n) (by omega)
    rw [nearest_natCast, nearest_natCast]
    omega
  · obtain ⟨rfl, rfl⟩ : m = 0 ∧ n = 0 := by omega
    exact Int.le_refl _
  · rw [nearest_neg_natCast, nearest_natCast]
    omega
  · have hle := nearestNat_mono (m := n) (n := m) (by omega)
    rw [nearest_neg_natCast, nearest_neg_natCast]
    omega

/-- **Up to `2 ^ 53` nothing is rounded.** -/
theorem nearest_eq {a : Int} (h : a.natAbs ≤ 2 ^ 53) : nearest a = a := by
  obtain ⟨n, rfl | rfl⟩ := a.eq_nat_or_neg
  · rw [nearest_natCast, nearestNat_eq (by omega)]
  · rw [nearest_neg_natCast, nearestNat_eq (by omega)]

/-! ## Rounding of mantissas -/

/-- A quotient that is cut off, with the bits that say how large the remainder is. -/
def ofQuotient (num den : Nat) : ExtendedMantissa :=
  ⟨num / den, decide (den ≤ 2 * (num % den)), decide (num % den ≠ 0 ∧ 2 * (num % den) ≠ den)⟩

theorem shiftRightOne_ofQuotient (num : Nat) {den : Nat} (hden : 0 < den) :
    (ofQuotient num den).shiftRightOne = ofQuotient num (den * 2) := by
  have hlt : num % den < den := Nat.mod_lt _ hden
  have hdiv : num / (den * 2) = num / den / 2 := by rw [Nat.div_div_eq_div_mul]
  have hmod : num % (den * 2) = num % den + den * (num / den % 2) := Nat.mod_mul
  rw [ExtendedMantissa.shiftRightOne, ofQuotient, ofQuotient, hdiv, hmod]
  rcases Nat.mod_two_eq_zero_or_one (num / den) with hbit | hbit
  · simp only [hbit, Nat.mul_zero, Nat.add_zero, bne_self_eq_false, ExtendedMantissa.mk.injEq,
      true_and]
    constructor
    · exact (decide_eq_false (by omega)).symm
    · rw [← Bool.decide_or]
      exact decide_eq_decide.mpr (by omega)
  · simp only [hbit, Nat.mul_one, ExtendedMantissa.mk.injEq, true_and]
    constructor
    · exact (decide_eq_true (by omega)).symm
    · rw [← Bool.decide_or]
      exact decide_eq_decide.mpr (by omega)

/-- Shifting divides further. -/
theorem shiftRight_ofQuotient (num : Nat) {den : Nat} (hden : 0 < den) (k : Nat) :
    (ofQuotient num den >>> k : ExtendedMantissa) = ofQuotient num (den * 2 ^ k) := by
  induction k with
  | zero => rw [Nat.pow_zero, Nat.mul_one]; rfl
  | succ k ih =>
    change ExtendedMantissa.shiftRightOne (ofQuotient num den >>> k) = _
    rw [ih, shiftRightOne_ofQuotient num (Nat.mul_pos hden (Nat.two_pow_pos k)), Nat.mul_assoc,
      Nat.pow_succ]

/-- What the bits that were shifted out say about the remainder. -/
theorem shiftRight_eq (m k : Nat) :
    (ExtendedMantissa.mk m false false >>> k : ExtendedMantissa) = ofQuotient m (2 ^ k) := by
  have hexact : ExtendedMantissa.mk m false false = ofQuotient m 1 := by
    simp [ofQuotient, Nat.mod_one]
  rw [hexact, shiftRight_ofQuotient m Nat.one_pos, Nat.one_mul]

/-- The bits that were shifted out round to the nearest. -/
theorem roundedMantissa_shiftRight (m k : Nat) :
    (ExtendedMantissa.mk m false false >>> k : ExtendedMantissa).roundedMantissa =
      halfEven m k := by
  rw [shiftRight_eq, ofQuotient, ExtendedMantissa.roundedMantissa, halfEven]
  have hpos : 0 < 2 ^ k := Nat.two_pow_pos k
  by_cases hlt : 2 * (m % 2 ^ k) < 2 ^ k
  · rw [if_pos hlt, decide_eq_false (by omega)]
    cases decide (m % 2 ^ k ≠ 0 ∧ 2 * (m % 2 ^ k) ≠ 2 ^ k) <;> rfl
  · rw [if_neg hlt, decide_eq_true (by omega)]
    by_cases heq : 2 * (m % 2 ^ k) = 2 ^ k
    · rw [if_pos heq, decide_eq_false (by omega)]
      rfl
    · rw [if_neg heq, decide_eq_true (by omega)]
      rfl

/-- The exponent of a mantissa that is shifted to 53 bits, unless that is too small. -/
theorem targetExponent_eq (m : Nat) (e : Int) :
    Format.binary64.targetExponent (totalExponent m e) = max (m.log2 + e - 52) (-1074) := by
  have hmin : Format.binary64.minExponent = -1074 := by decide
  have hbits : Format.binary64.mantissaBits = 53 := by decide
  rw [Format.targetExponent, totalExponent, hmin, hbits]
  omega

/-- A mantissa of at least 53 bits is shifted until 53 are left. -/
theorem shiftToTargetExponent_eq {m : Nat} {e : Int} (hm : 2 ^ 52 ≤ m) (he : -1000 ≤ e) :
    shiftToTargetExponent .binary64 m e .exact =
      (ExtendedMantissa.mk m false false >>> (m.log2 - 52), e + (m.log2 - 52 : Nat)) := by
  have hlog : 52 ≤ m.log2 := (Nat.le_log2 (by omega)).mpr hm
  have htarget : Format.binary64.targetExponent (totalExponent m e) - e = (m.log2 - 52 : Nat) := by
    rw [targetExponent_eq]
    omega
  rw [shiftToTargetExponent, shiftToExponent, htarget, Int.toNat_natCast]
  rfl

/-- A mantissa of at least 53 bits is rounded to 53 bits. -/
theorem roundWithAccuracy_eq {s : Sign} {m : Nat} {e : Int} (hm : 2 ^ 52 ≤ m) (he : -1000 ≤ e) :
    ∃ m' e' hpos, roundWithAccuracy .binary64 s m e .exact = .finite s m' e' hpos ∧
      2 ^ 52 ≤ m' ∧ m' < 2 ^ 53 ∧ e ≤ e' ∧ m' * 2 ^ (e' - e).toNat = nearestNat m := by
  have hlog : 52 ≤ m.log2 := (Nat.le_log2 (by omega)).mpr hm
  have hlow : 2 ^ 52 ≤ halfEven m (m.log2 - 52) := two_pow_le_halfEven hlog
  have hhigh : halfEven m (m.log2 - 52) ≤ 2 ^ 53 := halfEven_le_two_pow m
  rw [roundWithAccuracy, shiftToTargetExponent_eq hm he]
  dsimp only
  rw [roundedMantissa_shiftRight, shiftToTargetExponent_eq hlow (by omega)]
  dsimp only
  rw [shiftRight_eq, ofQuotient]
  dsimp only
  rcases Nat.lt_or_eq_of_le hhigh with hlt | heq
  · have hlog' : (halfEven m (m.log2 - 52)).log2 - 52 = 0 :=
      Nat.sub_eq_zero_of_le (log2_le_of_lt (by omega) hlt)
    rw [hlog', Nat.pow_zero, Nat.div_one, dif_neg (by omega)]
    refine ⟨_, _, _, rfl, hlow, hlt, by omega, ?_⟩
    rw [nearestNat]
    congr 2
    omega
  · -- the mantissa has one bit too many, which is zero
    rw [heq, Nat.log2_two_pow, dif_neg (by decide)]
    refine ⟨_, _, _, rfl, by decide, by decide, by omega, ?_⟩
    rw [nearestNat, heq, show (e + (m.log2 - 52 : Nat) + (53 - 52 : Nat) - e).toNat =
      m.log2 - 52 + 1 by omega, Nat.pow_succ]
    omega

/-! ## What floats stand for -/

/-- The float stands for the integer. -/
inductive Stands (x : Float) : Int → Prop where
  | zero {s : Sign} (h : x.toModel.unpack = .zero s) : Stands x 0
  | finite {s : Sign} {m k n : Nat} {hpos : 0 < m}
      (h : x.toModel.unpack = .finite s m ((k : Int) - 52) hpos)
      (hlow : 2 ^ 52 ≤ m) (hhigh : m < 2 ^ 53) (hk : k ≤ 900) (hn : n * 2 ^ 52 = m * 2 ^ k) :
      Stands x (s.apply n)

theorem mul_two_zpow_eq {m n k : ℕ} (h : n * 2 ^ 52 = m * 2 ^ k) :
    (m : ℚ) * 2 ^ ((k : ℤ) - 52) = n := by
  have hcast : (n : ℚ) * 2 ^ 52 = m * 2 ^ k := by exact_mod_cast h
  rw [zpow_sub₀ two_ne_zero, zpow_natCast, ← mul_div_assoc, ← hcast]
  exact mul_div_cancel_right₀ _ (by norm_num)

namespace Stands

variable {x y : Float} {a b : Int}

/-- The integer is the value of the float. -/
theorem hasValue (h : Stands x a) : HasValue x a := by
  cases h with
  | zero h => exact_mod_cast HasValue.zero h
  | @finite s m k n hpos h hlow hhigh hk hn =>
    have hcanonical : Canonical m ((k : ℤ) - 52) := ⟨hpos, hhigh, by omega, fun _ => hlow⟩
    have hvalue := mul_two_zpow_eq hn
    cases s with
    | positive =>
      have hx := HasValue.positive h hcanonical
      rw [hvalue] at hx
      exact_mod_cast hx
    | negative =>
      have hx := HasValue.negative h hcanonical
      rw [hvalue] at hx
      simpa [Sign.apply] using hx

/-- **Floats that stand for integers compare as the integers do.** -/
theorem lt_iff (hx : Stands x a) (hy : Stands y b) : x < y ↔ a < b :=
  (hx.hasValue.lt_iff hy.hasValue).trans Int.cast_lt

theorem neg (hx : Stands x a) : Stands x.neg (-a) := by
  have hneg : x.neg.toModel = .pack x.toModel.unpack.neg := rfl
  cases hx with
  | @zero s hx =>
    rw [hx] at hneg
    refine .zero (s := -s) ?_
    rw [hneg]
    cases s <;> rfl
  | @finite s m k n hpos hx hlow hhigh hk hn =>
    rw [hx] at hneg
    have hunpack : x.neg.toModel.unpack = .finite (-s) m ((k : Int) - 52) hpos := by
      rw [hneg]
      exact unpack_pack ⟨by omega, hhigh, by omega, fun _ => hlow⟩ (by omega)
    have happly : (-s).apply n = -s.apply n := by cases s <;> simp [Sign.apply]
    rw [← happly]
    exact .finite hunpack hlow hhigh hk hn

end Stands

/-! ## The floats of integers -/

/-- A number of at least 53 bits is rounded as it is when zeros are appended. -/
theorem nearestNat_scale {n : Nat} (hn : 2 ^ 52 ≤ n) (j : Nat) :
    nearestNat (n * 2 ^ j) = nearestNat n * 2 ^ j := by
  have hlog : 52 ≤ n.log2 := (Nat.le_log2 (by omega)).mpr hn
  have hlog' : (n * 2 ^ j).log2 = n.log2 + j := by
    rw [Nat.log2_eq_iff (Nat.ne_of_gt (Nat.mul_pos (by omega) (Nat.two_pow_pos j)))]
    constructor
    · rw [Nat.pow_add]
      exact Nat.mul_le_mul_right _ (Nat.log2_self_le (by omega))
    · rw [show n.log2 + j + 1 = n.log2 + 1 + j by omega, Nat.pow_add]
      exact Nat.mul_lt_mul_of_pos_right Nat.lt_log2_self (Nat.two_pow_pos j)
  rw [nearestNat, nearestNat, hlog', show n.log2 + j - 52 = n.log2 - 52 + j by omega,
    halfEven_scale, Nat.pow_add, Nat.mul_assoc]

/-- A rounded mantissa stands for the number that it is nearest to. -/
theorem stands_of_round {x : Float} {s : Sign} {m n : Nat} {e : Int}
    (hx : x.toModel = .pack (roundWithAccuracy .binary64 s m e .exact)) (hm : 2 ^ 52 ≤ m)
    (he : -104 ≤ e) (hn : n * 2 ^ 104 = nearestNat m * 2 ^ (e + 104).toNat) (hpos : 0 < n)
    (hbound : n ≤ 2 ^ 64) : Stands x (s.apply n) := by
  obtain ⟨m', e', hpos', hround, hlow, hhigh, hle, hvalue⟩ :=
    roundWithAccuracy_eq (s := s) hm (show -1000 ≤ e by omega)
  have hall : m' * 2 ^ (e' + 104).toNat = n * 2 ^ 104 := by
    rw [hn, ← hvalue, Nat.mul_assoc, ← Nat.pow_add]
    congr 2
    omega
  have hsmall : -52 ≤ e' := by
    refine Int.not_lt.mp fun hlt => ?_
    have hpow : 2 ^ (e' + 104).toNat ≤ 2 ^ 51 := Nat.pow_le_pow_right (by decide) (by omega)
    have hmul := Nat.mul_le_mul_left m' hpow
    omega
  have hlarge : e' ≤ 800 := by
    refine Int.not_lt.mp fun hlt => ?_
    have hpow : 2 ^ 117 ≤ 2 ^ (e' + 104).toNat := Nat.pow_le_pow_right (by decide) (by omega)
    have hmul := Nat.mul_le_mul_left m' hpow
    omega
  obtain ⟨k, rfl⟩ : ∃ k : Nat, e' = (k : Int) - 52 := ⟨(e' + 52).toNat, by omega⟩
  have hunpack : x.toModel.unpack = .finite s m' ((k : Int) - 52) hpos' := by
    rw [hx, hround]
    exact unpack_pack ⟨by omega, hhigh, by omega, fun _ => hlow⟩ (by omega)
  refine .finite hunpack hlow hhigh (by omega) (Nat.eq_of_mul_eq_mul_right (Nat.two_pow_pos 52) ?_)
  rw [Nat.mul_assoc, Nat.mul_assoc, ← Nat.pow_add, ← Nat.pow_add, ← hall]
  congr 2
  omega

/-- Converting a positive number of at most 53 bits appends zeros until there are 53. -/
theorem round_small {n : Nat} (hpos : 0 < n) (h : n < 2 ^ 53) :
    UnpackedFloat.ofNat .binary64 n =
      roundWithAccuracy .binary64 .positive (n * 2 ^ (52 - n.log2)) (-(52 - n.log2 : Nat))
        .exact := by
  have hlog := log2_le_of_lt hpos h
  have htarget : Format.binary64.targetExponent (totalExponent n 0) = -(52 - n.log2 : Nat) := by
    rw [targetExponent_eq]
    omega
  have hcompare : compare (n : Int) 0 = .gt := Int.compare_eq_gt.mpr (by omega)
  rw [UnpackedFloat.ofNat, UnpackedFloat.ofInt, UnpackedFloat.normalize, hcompare]
  dsimp only
  rw [UnpackedFloat.round, decreaseExponent, Int.toNat_natCast, htarget, Nat.shiftLeft_eq]
  dsimp only
  congr 1
  · congr 2
    omega
  · omega

/-- A positive number of at most 53 bits is stored as it is. -/
theorem stands_ofUInt64 {n : Nat} (hpos : 0 < n) (h : n < 2 ^ 53) :
    Stands n.toUInt64.toFloat n := by
  have hlog := log2_le_of_lt hpos h
  have hword : n.toUInt64.toNat = n := by
    simp
    omega
  have hmodel : n.toUInt64.toFloat.toModel =
      .pack (roundWithAccuracy .binary64 .positive (n * 2 ^ (52 - n.log2)) (-(52 - n.log2 : Nat))
        .exact) := by
    rw [← round_small hpos h]
    change Float.Model.pack (UnpackedFloat.ofNat .binary64 n.toUInt64.toNat) = _
    rw [hword]
  have hpow : 2 ^ n.log2 * 2 ^ (52 - n.log2) = 2 ^ 52 := by
    rw [← Nat.pow_add]
    congr 1
    omega
  have hlow : 2 ^ 52 ≤ n * 2 ^ (52 - n.log2) := by
    rw [← hpow]
    exact Nat.mul_le_mul_right _ (Nat.log2_self_le (by omega))
  have hhigh : n * 2 ^ (52 - n.log2) < 2 ^ 53 := by
    have hlt : n < 2 * 2 ^ n.log2 := by
      have := @Nat.lt_log2_self n
      rwa [Nat.pow_succ, Nat.mul_comm] at this
    calc n * 2 ^ (52 - n.log2) < 2 * 2 ^ n.log2 * 2 ^ (52 - n.log2) :=
          Nat.mul_lt_mul_of_pos_right hlt (Nat.two_pow_pos _)
      _ = 2 * 2 ^ 52 := by rw [Nat.mul_assoc, hpow]
      _ = 2 ^ 53 := by omega
  refine stands_of_round (s := .positive) hmodel hlow (by omega) ?_ hpos (by omega)
  rw [nearestNat_eq (by omega), Nat.mul_assoc, ← Nat.pow_add]
  congr 2
  omega

theorem Stands.exists_mantissa {x : Float} {a : Int} (hx : Stands x a) (ha : 0 < a) :
    ∃ (m k : Nat) (hpos : 0 < m), x.toModel.unpack = .finite .positive m ((k : Int) - 52) hpos ∧
      2 ^ 52 ≤ m ∧ m < 2 ^ 53 ∧ a.toNat * 2 ^ 52 = m * 2 ^ k := by
  cases hx with
  | zero hx => omega
  | @finite s m k n hpos hx hlow hhigh hk hn =>
    cases s with
    | negative => simp only [Sign.apply] at ha; omega
    | positive => exact ⟨m, k, hpos, hx, hlow, hhigh, hn⟩

/-- Multiplication by the float one changes nothing. -/
theorem stands_mul_one {x one : Float} {n : Nat} (hx : Stands x n) (hpos : 0 < n)
    (hbound : n ≤ 2 ^ 64)
    (hone : one.toModel.unpack = .finite .positive (2 ^ 52) (-52) (by decide)) :
    Stands (x * one) n := by
  obtain ⟨m, k, hm, hunpack, hlow, hhigh, hn⟩ := hx.exists_mantissa (by omega)
  have hmodel : (x * one).toModel =
      .pack (roundWithAccuracy .binary64 .positive (m * 2 ^ 52) ((k : Int) - 52 + -52) .exact) := by
    change Float.Model.pack (UnpackedFloat.mul .binary64 x.toModel.unpack one.toModel.unpack) = _
    rw [hunpack, hone]
    rfl
  refine stands_of_round (s := .positive) hmodel (by omega) (by omega) ?_ hpos hbound
  rw [nearestNat_scale hlow, nearestNat_eq (by omega)]
  rw [Int.toNat_natCast] at hn
  calc n * 2 ^ 104 = n * 2 ^ 52 * 2 ^ 52 := by rw [Nat.mul_assoc, ← Nat.pow_add]
    _ = m * 2 ^ 52 * 2 ^ k := by rw [hn, Nat.mul_right_comm]
    _ = m * 2 ^ 52 * 2 ^ ((k : Int) - 52 + -52 + 104).toNat := by
      congr 2
      omega

/-- Converting a number without decimals appends zeros and rounds. -/
theorem ofScientific_eq {n : Nat} (hpos : 0 < n) :
    UnpackedFloat.ofScientific .binary64 n 0 =
      roundWithAccuracy .binary64 .positive (n * 2 ^ 53) (-53) .exact := by
  have hn : n ≠ 0 := by omega
  have hlarge : ¬ ((0 : Int) > 2 ^ Format.binary64.exponentBits) := by decide
  have hsmall : ¬ ((0 : Int) < -((2 ^ Format.binary64.exponentBits : Int) + n.log2)) := by
    have : (0 : Int) ≤ 2 ^ Format.binary64.exponentBits := by decide
    omega
  unfold UnpackedFloat.ofScientific
  rw [dif_neg hn, if_neg hlarge, if_neg hsmall, if_pos (Int.le_refl 0), UnpackedFloat.mul]
  have hmantissa : n <<< Format.binary64.mantissaBits * 10 ^ (0 : Int).toNat = n * 2 ^ 53 := by
    rw [Nat.shiftLeft_eq]
    exact Nat.mul_one _
  rw [hmantissa]
  rfl

/-- A number of more than 53 bits is rounded. -/
theorem stands_ofScientific {n : Nat} (hlow : 2 ^ 53 ≤ n) (h : n < 2 ^ 64) :
    Stands (.ofModel (Float.Model.ofScientific n 0)) (nearestNat n) := by
  have hmodel : (Float.ofModel (Float.Model.ofScientific n 0)).toModel =
      .pack (roundWithAccuracy .binary64 .positive (n * 2 ^ 53) (-53) .exact) := by
    rw [← ofScientific_eq (by omega)]
    rfl
  have hpos : nearestNat (2 ^ 53) ≤ nearestNat n := nearestNat_mono hlow
  have hbound : nearestNat n ≤ nearestNat (2 ^ 64) := nearestNat_mono (by omega)
  rw [nearestNat_eq (Nat.le_refl _)] at hpos
  rw [show nearestNat (2 ^ 64) = 2 ^ 64 by decide] at hbound
  refine stands_of_round (s := .positive) hmodel (by omega) (by omega) ?_ (by omega) hbound
  rw [nearestNat_scale (by omega), Nat.mul_assoc, ← Nat.pow_add]
  rfl

theorem stands_ofNat {n : Nat} (h : n < 2 ^ 64) : Stands (.ofNat n) (nearestNat n) := by
  rcases Nat.lt_or_ge n (2 ^ 53) with hsmall | hlarge
  · rw [nearestNat_eq (by omega)]
    rcases Nat.eq_zero_or_pos n with rfl | hpos
    · exact .zero (s := .positive) rfl
    · have hproduct : Float.ofNat n =
          n.toUInt64.toFloat * Float.exactlyRepresentablePowersOfTen[0] := by
        change Float.ofScientific n false 0 = _
        rw [Float.ofScientific, dif_pos ⟨hsmall, by decide⟩]
        rfl
      rw [hproduct]
      exact stands_mul_one (stands_ofUInt64 hpos hsmall) hpos (by omega) rfl
  · have hscientific : Float.ofNat n = .ofModel (Float.Model.ofScientific n 0) := by
      change Float.ofScientific n false 0 = _
      rw [Float.ofScientific, dif_neg (by omega)]
      rfl
    rw [hscientific]
    exact stands_ofScientific hlarge h

/-- **The float of an integer stands for the nearest number with 53 bits.** -/
theorem stands_ofInt {a : Int} (h : a.natAbs < 2 ^ 64) : Stands (.ofInt a) (nearest a) := by
  match a with
  | .ofNat n => exact stands_ofNat h
  | .negSucc n => exact (stands_ofNat (n := n + 1) h).neg

/-- **The floats of two integers compare as the nearest numbers do.** -/
theorem ofInt_lt_ofInt {a b : Int} (ha : a.natAbs < 2 ^ 64) (hb : b.natAbs < 2 ^ 64) :
    Float.ofInt a < Float.ofInt b ↔ nearest a < nearest b :=
  (stands_ofInt ha).lt_iff (stands_ofInt hb)

end Vorn.Rounding
