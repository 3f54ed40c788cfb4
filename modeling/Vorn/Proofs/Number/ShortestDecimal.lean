import Vorn.Proofs.Number.Grid

/-!
# The shortest decimal

`shortest` looks for a decimal in the interval of a float, on finer and finer grids.

* `exists_onGrid`: seventeen digits suffice.
* `isShortest_shortest`: the decimal that is found lies in the interval, no decimal of the interval
  has fewer digits, and of those with as many digits none is nearer to the float.
-/

namespace Vorn.Shortest

open Rounding

/-- The number that a decimal stands for. -/
def Decimal.value (d : Decimal) : ℚ := d.digits * 10 ^ d.exponent

/-! ## Digits -/

section

variable {n num den : ℕ}

/-- How many digits a number has. -/
def digitCount (n : ℕ) : ℕ := (Nat.toDigits 10 n).length

theorem digitCount_pos (n : ℕ) : 0 < digitCount n := Nat.length_toDigits_pos

theorem digitCount_le_iff {k : ℕ} (hk : 0 < k) : digitCount n ≤ k ↔ n < 10 ^ k :=
  Nat.length_toDigits_le_iff (by decide) hk

theorem lt_ten_pow_digitCount (n : ℕ) : n < 10 ^ digitCount n :=
  (digitCount_le_iff (digitCount_pos n)).mp le_rfl

theorem ten_pow_le_of_digitCount {k : ℕ} (hn : 0 < n) (hk : digitCount n = k + 1) : 10 ^ k ≤ n := by
  rcases Nat.eq_zero_or_pos k with rfl | hpos
  · exact hn
  · refine Nat.not_lt.mp fun hlt => ?_
    have hle := (digitCount_le_iff hpos).mpr hlt
    omega

/-- A quotient of at least one lies between powers of ten. -/
theorem exists_digitCount_div (hden : 0 < den) (hle : den ≤ num) :
    ∃ k, (Nat.toDigits 10 (num / den)).length = k + 1 ∧ 10 ^ k * den ≤ num ∧
      num < 10 ^ (k + 1) * den := by
  obtain ⟨k, hk⟩ : ∃ k, digitCount (num / den) = k + 1 :=
    ⟨_, (Nat.succ_pred_eq_of_pos (digitCount_pos _)).symm⟩
  have hlow := ten_pow_le_of_digitCount (Nat.div_pos hle hden) hk
  have hhigh := lt_ten_pow_digitCount (num / den)
  rw [hk] at hhigh
  exact ⟨k, hk, (Nat.le_div_iff_mul_le hden).mp hlow, (Nat.div_lt_iff_lt_mul hden).mp hhigh⟩

/-- The magnitude places a quotient between two powers of ten. -/
theorem magnitude_spec (hnum : 0 < num) (hden : 0 < den) :
    (10 : ℚ) ^ (magnitude num den - 1) ≤ num / den ∧ (num : ℚ) / den ≤ 10 ^ magnitude num den := by
  have hnum' : (0 : ℚ) < num := by exact_mod_cast hnum
  have hden' : (0 : ℚ) < den := by exact_mod_cast hden
  unfold magnitude
  split
  case isTrue hle =>
    obtain ⟨k, hk, hlow, hhigh⟩ := exists_digitCount_div hden hle
    rw [hk]
    push_cast
    rw [add_sub_cancel_right, zpow_natCast, ← Nat.cast_succ, zpow_natCast, le_div_iff₀ hden',
      div_le_iff₀ hden']
    exact ⟨by exact_mod_cast hlow, by exact_mod_cast hhigh.le⟩
  case isFalse hlt =>
    obtain ⟨k, hk, hlow, hhigh⟩ := exists_digitCount_div hnum (Nat.le_of_not_le hlt)
    have hfirst : (1 : ℤ) - (k + 1 : ℕ) - 1 = -(k + 1 : ℕ) := by omega
    have hsecond : (1 : ℤ) - (k + 1 : ℕ) = -k := by omega
    rw [hk, hfirst, hsecond, zpow_neg, zpow_neg, zpow_natCast, zpow_natCast, ← one_div, ← one_div,
      div_le_div_iff₀ (by positivity) hden', div_le_div_iff₀ hden' (by positivity), one_mul]
    exact ⟨by exact_mod_cast (mul_comm _ num ▸ hhigh.le), by exact_mod_cast (mul_comm _ num ▸ hlow)⟩

end

/-- Stripping zeros changes neither the number nor that it is positive. -/
theorem Decimal.strip_spec (d : Decimal) (hd : 0 < d.digits) :
    d.strip.value = d.value ∧ d.strip.digits % 10 ≠ 0 ∧ d.strip.digits ≤ d.digits ∧
      (d.digits % 10 = 0 → d.strip.digits ≤ d.digits / 10) := by
  induction d using Decimal.strip.induct with
  | case1 d h ih =>
    obtain ⟨hvalue, hlast, hle, -⟩ := ih (by dsimp only; omega)
    rw [Decimal.strip, dif_pos h]
    refine ⟨hvalue.trans ?_, hlast, hle.trans (Nat.div_le_self ..), fun _ => hle⟩
    have hdigits : (d.digits : ℚ) = (d.digits / 10 : ℕ) * 10 := by
      exact_mod_cast (Nat.div_mul_cancel (Nat.dvd_of_mod_eq_zero h.2)).symm
    rw [Decimal.value, Decimal.value, hdigits, zpow_add_one₀ (by norm_num)]
    ring
  | case2 d h =>
    rw [Decimal.strip, dif_neg h]
    exact ⟨rfl, by omega, le_rfl, by omega⟩

theorem digitCount_strip_le {d : Decimal} {k : ℕ} (hd : 0 < d.digits) (hk : 0 < k)
    (h : d.digits ≤ 10 ^ k) : digitCount d.strip.digits ≤ k := by
  obtain ⟨-, -, hle, hstrip⟩ := d.strip_spec hd
  rw [digitCount_le_iff hk]
  rcases Nat.lt_or_eq_of_le h with hlt | heq
  · exact hle.trans_lt hlt
  · -- a power of ten loses its zeros
    obtain ⟨j, rfl⟩ : ∃ j, k = j + 1 := ⟨k - 1, by omega⟩
    refine (hstrip ?_).trans_lt ?_
    · rw [heq, Nat.pow_succ, Nat.mul_mod_left]
    · rw [heq]
      exact Nat.div_lt_self (by positivity) (by decide)

/-! ## The search -/

section

variable {i : Interval} {e mag : ℤ}

/-- The search takes the first grid on which something is found. -/
theorem search_spec (places tries : ℕ)
    (h : ∃ p, places ≤ p ∧ p < places + tries ∧ onGrid? i e (mag - p) ≠ none) :
    ∃ p d, places ≤ p ∧ search i e mag places tries = ⟨d, mag - p⟩ ∧
      onGrid? i e (mag - p) = some d ∧
      ∀ p', places ≤ p' → p' < p → onGrid? i e (mag - p') = none := by
  induction tries generalizing places with
  | zero =>
    obtain ⟨p, hlow, hhigh, -⟩ := h
    omega
  | succ tries ih =>
    rw [search]
    cases hfound : onGrid? i e (mag - places) with
    | some d =>
      exact ⟨places, d, le_rfl, rfl, hfound, fun p' hlow hhigh => by omega⟩
    | none =>
      obtain ⟨p, hlow, hhigh, hp⟩ := h
      have hne : p ≠ places := by
        rintro rfl
        exact hp hfound
      obtain ⟨p, d, hle, hsearch, hsome, hbefore⟩ := ih (places + 1) ⟨p, by omega, by omega, hp⟩
      refine ⟨p, d, by omega, hsearch, hsome, fun p' hlow' hhigh' => ?_⟩
      rcases Nat.eq_or_lt_of_le hlow' with rfl | hlt
      · exact hfound
      · exact hbefore p' hlt hhigh'

end

/-! ## Seventeen digits -/

section

variable {m : ℕ} {q mag : ℤ}

theorem value_interval (m : ℕ) (q : ℤ) :
    ((interval m q).value : ℚ) * 2 ^ (q - 2) = m * 2 ^ q := by
  rw [zpow_sub₀ two_ne_zero, show (2 : ℚ) ^ (2 : ℤ) = 4 by norm_num]
  simp only [interval]
  push_cast
  ring

/-- A float lies in its interval. -/
theorem contains_value (h : Canonical m q) : (interval m q).Contains (q - 2) (m * 2 ^ q) := by
  rw [← value_interval]
  have hone : (1 : ℚ) ≤ m := by exact_mod_cast h.pos
  rw [value_interval, contains_interval_iff h.pos, mul_div_cancel_right₀ _ (by positivity)]
  refine ⟨?_, fun _ => by linarith⟩
  rw [IsNearest]
  split <;> constructor <;> linarith

/-- The interval is wider than the seventeenth place. -/
theorem width_interval (h : Canonical m q) :
    (4 * m : ℚ) / 10 ^ 16 < (interval m q).high - (interval m q).low := by
  have hhigh : ((interval m q).high : ℚ) = 4 * m + 2 := by simp [interval]
  have hm : (m : ℚ) < 10 ^ 16 := by exact_mod_cast h.lt.trans (by norm_num)
  rw [hhigh, low_interval h.pos, div_lt_iff₀ (by norm_num)]
  split
  case isTrue hedge =>
    have hm : (m : ℚ) = 2 ^ 52 := by exact_mod_cast hedge.1
    rw [hm]
    norm_num
  case isFalse => linarith

/-- **Seventeen digits suffice.** -/
theorem exists_onGrid (h : Canonical m q) (hmag : (10 : ℚ) ^ (mag - 1) ≤ m * 2 ^ q) :
    onGrid? (interval m q) (q - 2) (mag - 17) ≠ none := by
  intro hnone
  have hvalue := contains_value h
  have hnot := not_contains_of_onGrid? (by rwa [value_interval]) hnone
  obtain ⟨hlow, hhigh⟩ := floor_scaled (interval m q).value (q - 2) (mag - 17)
  generalize (scaled (interval m q).value (q - 2) (mag - 17)).1 /
    (scaled (interval m q).value (q - 2) (mag - 17)).2 = d at *
  rw [value_interval] at hlow hhigh
  have hbelow := hvalue.le_low hlow (hnot d)
  have habove := hvalue.high_le hhigh.le (hnot (d + 1))
  have hstep : (10 : ℚ) ^ (mag - 17) / 2 ^ (q - 2) ≤ 4 * m / 10 ^ 16 := by
    rw [div_le_div_iff₀ (by positivity) (by norm_num)]
    calc (10 : ℚ) ^ (mag - 17) * 10 ^ 16 = 10 ^ (mag - 1) := by
          rw [← zpow_natCast, ← zpow_add₀ (by norm_num)]
          congr 1
          norm_num
          ring
      _ ≤ m * 2 ^ q := hmag
      _ = 4 * m * 2 ^ (q - 2) := by
          rw [← value_interval]
          simp [interval]
  have hnext : ((d + 1 : ℕ) : ℚ) * 10 ^ (mag - 17) / 2 ^ (q - 2) =
      d * 10 ^ (mag - 17) / 2 ^ (q - 2) + 10 ^ (mag - 17) / 2 ^ (q - 2) := by
    push_cast
    ring
  rw [hnext] at habove
  have hwidth := width_interval h
  linarith

end

/-! ## The shortest decimal -/

/-- The decimal lies in the interval, none of the interval has fewer digits, and of those with as
many digits none is nearer to the value. Its last digit is not zero. -/
structure IsShortest (i : Interval) (e : ℤ) (d : Decimal) : Prop where
  last : d.digits % 10 ≠ 0
  contains : i.Contains e d.value
  fewest : ∀ c : Decimal, 0 < c.digits → i.Contains e c.value →
    digitCount d.digits ≤ digitCount c.digits
  nearest : ∀ c : Decimal, 0 < c.digits → i.Contains e c.value →
    digitCount c.digits = digitCount d.digits →
      |d.value - i.value * 2 ^ e| ≤ |c.value - i.value * 2 ^ e|

theorem IsShortest.pos {i : Interval} {e : ℤ} {d : Decimal} (h : IsShortest i e d) :
    0 < d.digits := Nat.pos_of_ne_zero fun hzero => h.last (by rw [hzero])

section

variable {i : Interval} {e mag : ℤ} {v : ℚ}

/-- A decimal of the interval that has few digits has a multiple of a large power of ten beside it,
which is at least as near to the value. -/
theorem exists_multiple (hv : i.Contains e v) (hmag : (10 : ℚ) ^ (mag - 1) ≤ v) {c : Decimal}
    (hc : i.Contains e c.value) {k : ℕ} (hk : digitCount c.digits ≤ k) :
    ∃ n : ℕ, i.Contains e (n * 10 ^ (mag - k)) ∧ |n * 10 ^ (mag - k) - v| ≤ |c.value - v| := by
  have hpos : 0 < k := (digitCount_pos _).trans_le hk
  have hlt : (c.digits : ℚ) < 10 ^ k := by exact_mod_cast (digitCount_le_iff hpos).mp hk
  rcases lt_or_ge c.value (10 ^ (mag - 1)) with hsmall | hlarge
  · -- the power of ten lies between the decimal and the value
    refine ⟨10 ^ (k - 1), ?_⟩
    have hpow : ((10 ^ (k - 1) : ℕ) : ℚ) * 10 ^ (mag - k) = 10 ^ (mag - 1) := by
      push_cast
      rw [← zpow_natCast, ← zpow_add₀ (by norm_num)]
      congr 1
      omega
    rw [hpow]
    refine ⟨hc.between hv hsmall.le hmag, ?_⟩
    rw [abs_of_nonpos (by linarith), abs_of_nonpos (by linarith)]
    linarith
  · have hexponent : mag - k ≤ c.exponent := by
      have hbound : (10 : ℚ) ^ (mag - 1) < 10 ^ (k + c.exponent) :=
        calc (10 : ℚ) ^ (mag - 1) ≤ c.digits * 10 ^ c.exponent := hlarge
          _ < 10 ^ k * 10 ^ c.exponent := by gcongr
          _ = 10 ^ (k + c.exponent) := by rw [zpow_add₀ (by norm_num), zpow_natCast]
      have := (zpow_lt_zpow_iff_right₀ (by norm_num)).mp hbound
      omega
    refine ⟨c.digits * 10 ^ (c.exponent - (mag - k)).toNat, ?_⟩
    have hvalue : ((c.digits * 10 ^ (c.exponent - (mag - k)).toNat : ℕ) : ℚ) * 10 ^ (mag - k) =
        c.value := by
      push_cast
      rw [mul_assoc, ← zpow_natCast, ← zpow_add₀ (by norm_num), Decimal.value]
      congr 2
      omega
    rw [hvalue]
    exact ⟨hc, le_rfl⟩

/-- What is found has at most as many digits as the grid, or it is a power of ten. -/
theorem NearestOnGrid.le_ten_pow {d p : ℕ} (h : NearestOnGrid i e (mag - p) v d)
    (hv : i.Contains e v) (hhigh : v ≤ 10 ^ mag) : d ≤ 10 ^ p := by
  -- otherwise the power of ten lies between the value and the decimal
  by_contra! hlarge
  have hlarge' : ((10 ^ p : ℕ) : ℚ) * 10 ^ (mag - p) < d * 10 ^ (mag - p) := by
    gcongr
  have hpow : ((10 ^ p : ℕ) : ℚ) * 10 ^ (mag - p) = 10 ^ mag := by
    push_cast
    rw [← zpow_natCast, ← zpow_add₀ (by norm_num), add_sub_cancel]
  have hle := h.nearest (10 ^ p) (hv.between h.contains (by rwa [hpow]) hlarge'.le)
  rw [abs_of_nonneg (by linarith), abs_of_nonneg (by linarith)] at hle
  linarith

/-- **What the search finds is the shortest decimal.** -/
theorem isShortest_strip {d p : ℕ} (hv : i.Contains e (i.value * 2 ^ e)) (hzero : ¬ i.Contains e 0)
    (hlow : (10 : ℚ) ^ (mag - 1) ≤ i.value * 2 ^ e) (hhigh : (i.value * 2 ^ e : ℚ) ≤ 10 ^ mag)
    (hp : 0 < p) (hfound : onGrid? i e (mag - p) = some d)
    (hbefore : ∀ p', 1 ≤ p' → p' < p → onGrid? i e (mag - p') = none) :
    IsShortest i e (Decimal.strip ⟨d, mag - p⟩) := by
  have hgrid := onGrid?_spec hv hfound
  have hd : 0 < d := by
    refine Nat.pos_of_ne_zero fun h => hzero ?_
    have hcontains := hgrid.contains
    rwa [h, Nat.cast_zero, zero_mul] at hcontains
  obtain ⟨hvalue, hlast, -⟩ := Decimal.strip_spec ⟨d, mag - p⟩ hd
  have hvalue' : (Decimal.strip ⟨d, mag - p⟩).value = d * 10 ^ (mag - p) := hvalue
  have hcount : digitCount (Decimal.strip ⟨d, mag - p⟩).digits ≤ p :=
    digitCount_strip_le hd hp (hgrid.le_ten_pow hv hhigh)
  -- a decimal with fewer digits would have been found on a coarser grid
  have hfew : ∀ c : Decimal, i.Contains e c.value → p ≤ digitCount c.digits := by
    intro c hc
    by_contra! hlt
    obtain ⟨n, hn, -⟩ := exists_multiple hv hlow hc le_rfl
    exact not_contains_of_onGrid? hv (hbefore _ (digitCount_pos _) hlt) n hn
  refine ⟨hlast, ?_, fun c _ hc => hcount.trans (hfew c hc), fun c _ hc hsame => ?_⟩
  · rw [hvalue']
    exact hgrid.contains
  · obtain ⟨n, hn, hdist⟩ := exists_multiple hv hlow hc (hsame.trans_le hcount)
    rw [hvalue']
    exact (hgrid.nearest n hn).trans hdist

end

/-- **`shortest` gives the shortest decimal of the float's interval.** -/
theorem isShortest_shortest {m : ℕ} {q : ℤ} (h : Canonical m q) :
    IsShortest (interval m q) (q - 2) (shortest m q) := by
  have hpos : (0 : ℚ) < m := by exact_mod_cast h.pos
  have hnum : 0 < (scaled m q 0).1 := by
    change 0 < m <<< q.toNat * 10 ^ (-0 : ℤ).toNat
    rw [Nat.shiftLeft_eq]
    have := h.pos
    positivity
  obtain ⟨hlow, hhigh⟩ := magnitude_spec hnum (scaled_pos m q 0)
  rw [scaled_div, zpow_zero, div_one] at hlow hhigh
  rw [shortest]
  dsimp only
  generalize magnitude (scaled m q 0).1 (scaled m q 0).2 = mag at *
  obtain ⟨p, d, hp, hsearch, hfound, hbefore⟩ :=
    search_spec 1 17 ⟨17, by omega, by omega, exists_onGrid h hlow⟩
  rw [hsearch]
  have hvalue := contains_value h
  rw [← value_interval] at hvalue hlow hhigh
  refine isShortest_strip hvalue (fun hzero => ?_) hlow hhigh hp hfound hbefore
  have hle := hzero.bounds.1
  have hone : (1 : ℚ) ≤ m := by exact_mod_cast h.pos
  rw [low_interval h.pos, zero_div] at hle
  split at hle <;> linarith

end Vorn.Shortest
