import Vorn.Proofs.Number.Nearest

/-!
# Multiples of powers of ten

* `Interval.holds_iff`: whether a multiple of a power of ten lies in an interval is decided exactly.
* `onGrid?_spec`, `not_contains_of_onGrid?`: what is found on a grid is the multiple in the interval
  that is nearest to the value, and if nothing is found there is none.
-/

namespace Vorn.Shortest

/-! ## Grids -/

section

variable {i : Interval} {e g : ℤ} {d n : ℕ} {r v w : ℚ}

theorem zpow_eq_div (a : ℚ) (e : ℤ) : a ^ e = a ^ e.toNat / a ^ (-e).toNat := by
  obtain ⟨n, rfl | rfl⟩ := e.eq_nat_or_neg <;> simp

theorem scaled_pos (n : ℕ) (e g : ℤ) : 0 < (scaled n e g).2 := by
  change 0 < 10 ^ g.toNat <<< (-e).toNat
  rw [Nat.shiftLeft_eq]
  positivity

theorem scaled_div (n : ℕ) (e g : ℤ) :
    ((scaled n e g).1 : ℚ) / (scaled n e g).2 = n * 2 ^ e / 10 ^ g := by
  have hten : (10 : ℚ) ^ (-g).toNat ≠ 0 := by positivity
  rw [zpow_eq_div 2 e, zpow_eq_div 10 g, scaled, Nat.shiftLeft_eq, Nat.shiftLeft_eq]
  change ((n * 2 ^ e.toNat * 10 ^ (-g).toNat : ℕ) : ℚ) / (10 ^ g.toNat * 2 ^ (-e).toNat : ℕ) = _
  push_cast
  field_simp

theorem scaled_le_iff :
    (scaled n e g).1 ≤ d * (scaled n e g).2 ↔ (n : ℚ) ≤ d * 10 ^ g / 2 ^ e := by
  have hpos : (0 : ℚ) < (scaled n e g).2 := by exact_mod_cast scaled_pos n e g
  rw [le_div_iff₀ (by positivity), ← div_le_iff₀ (by positivity), ← scaled_div,
    div_le_iff₀ hpos]
  exact_mod_cast Iff.rfl

theorem le_scaled_iff :
    d * (scaled n e g).2 ≤ (scaled n e g).1 ↔ (d * 10 ^ g / 2 ^ e : ℚ) ≤ n := by
  have hpos : (0 : ℚ) < (scaled n e g).2 := by exact_mod_cast scaled_pos n e g
  rw [div_le_iff₀ (by positivity), ← le_div_iff₀ (by positivity), ← scaled_div,
    le_div_iff₀ hpos]
  exact_mod_cast Iff.rfl

/-- Multiples of a power of ten are compared with the interval exactly. -/
theorem Interval.holds_iff : i.holds e g d = true ↔ i.Contains e (d * 10 ^ g) := by
  have hlow : (scaled i.low e g).1 < d * (scaled i.low e g).2 ↔
      (i.low : ℚ) < d * 10 ^ g / 2 ^ e := by
    rw [← not_le, le_scaled_iff, not_le]
  have hhigh : d * (scaled i.high e g).2 < (scaled i.high e g).1 ↔
      (d * 10 ^ g / 2 ^ e : ℚ) < i.high := by
    rw [← not_le, scaled_le_iff, not_le]
  have hden : (scaled i.high e g).2 = (scaled i.low e g).2 := rfl
  unfold Interval.holds Interval.Contains
  dsimp only
  split
  case isTrue =>
    rw [Bool.and_eq_true, decide_eq_true_eq, decide_eq_true_eq, scaled_le_iff, ← hden,
      le_scaled_iff]
  case isFalse => rw [Bool.and_eq_true, decide_eq_true_eq, decide_eq_true_eq, hlow, ← hden, hhigh]

/-- Between two numbers of the interval are only numbers of the interval. -/
theorem Interval.Contains.between (hv : i.Contains e v) (hw : i.Contains e w) (hlow : v ≤ r)
    (hhigh : r ≤ w) : i.Contains e r := by
  have hlow' : v / 2 ^ e ≤ r / 2 ^ e := by gcongr
  have hhigh' : r / 2 ^ e ≤ w / 2 ^ e := by gcongr
  unfold Interval.Contains at *
  split at hv
  · rw [if_pos ‹_›] at hw ⊢
    exact ⟨hv.1.trans hlow', hhigh'.trans hw.2⟩
  · rw [if_neg ‹_›] at hw ⊢
    exact ⟨hv.1.trans_le hlow', hhigh'.trans_lt hw.2⟩

/-- Below the value only what is too small does not lie in the interval. -/
theorem Interval.Contains.le_low (hv : i.Contains e v) (hr : r ≤ v) (h : ¬ i.Contains e r) :
    r / 2 ^ e ≤ i.low := by
  by_contra! hlow
  have hle : r / 2 ^ e ≤ v / 2 ^ e := by gcongr
  refine h ?_
  unfold Interval.Contains at *
  split at hv
  · rw [if_pos ‹_›]
    exact ⟨hlow.le, hle.trans hv.2⟩
  · rw [if_neg ‹_›]
    exact ⟨hlow, hle.trans_lt hv.2⟩

theorem Interval.Contains.high_le (hv : i.Contains e v) (hr : v ≤ r) (h : ¬ i.Contains e r) :
    i.high ≤ r / 2 ^ e := by
  by_contra! hhigh
  have hle : v / 2 ^ e ≤ r / 2 ^ e := by gcongr
  refine h ?_
  unfold Interval.Contains at *
  split at hv
  · rw [if_pos ‹_›]
    exact ⟨hv.1.trans hle, hhigh.le⟩
  · rw [if_neg ‹_›]
    exact ⟨hv.1.trans_le hle, hhigh⟩

/-! ## The nearest multiple -/

/-- What is found on a grid lies in the interval, and nothing else of the grid that does is nearer
to the value. -/
structure NearestOnGrid (i : Interval) (e g : ℤ) (v : ℚ) (d : ℕ) : Prop where
  contains : i.Contains e (d * 10 ^ g)
  nearest : ∀ n : ℕ, i.Contains e (n * 10 ^ g) → |d * 10 ^ g - v| ≤ |n * 10 ^ g - v|

/-- A number as a multiple of a power of ten and a remainder. -/
theorem scaled_eq_add_remainder (n : ℕ) (e g : ℤ) :
    (n : ℚ) * 2 ^ e = ((scaled n e g).1 / (scaled n e g).2 : ℕ) * 10 ^ g +
      ((scaled n e g).1 % (scaled n e g).2 : ℕ) / (scaled n e g).2 * 10 ^ g := by
  have hvalue : (n : ℚ) * 2 ^ e = (scaled n e g).1 / (scaled n e g).2 * 10 ^ g := by
    rw [scaled_div, div_mul_cancel₀ _ (by positivity)]
  rw [hvalue, Rounding.div_eq_add_fraction (scaled_pos n e g), add_mul]

/-- The value lies between two multiples next to each other. -/
theorem floor_scaled (n : ℕ) (e g : ℤ) :
    ((scaled n e g).1 / (scaled n e g).2 : ℕ) * (10 : ℚ) ^ g ≤ n * 2 ^ e ∧
      n * 2 ^ e < (((scaled n e g).1 / (scaled n e g).2 : ℕ) + 1 : ℕ) * (10 : ℚ) ^ g := by
  have hpos : (0 : ℚ) < (scaled n e g).2 := by exact_mod_cast scaled_pos n e g
  have hlt : (((scaled n e g).1 % (scaled n e g).2 : ℕ) : ℚ) / (scaled n e g).2 < 1 := by
    rw [div_lt_one hpos]
    exact_mod_cast Nat.mod_lt _ (scaled_pos n e g)
  rw [scaled_eq_add_remainder n e g, Nat.cast_succ, add_mul, one_mul]
  refine ⟨le_add_of_nonneg_right (by positivity), ?_⟩
  gcongr
  exact mul_lt_of_lt_one_left (by positivity) hlt

/-- The remainder says which of the two multiples is nearer. -/
theorem twice_remainder_scaled (n : ℕ) (e g : ℤ) :
    (2 * ((scaled n e g).1 % (scaled n e g).2) ≤ (scaled n e g).2 →
      2 * (n * 2 ^ e - ((scaled n e g).1 / (scaled n e g).2 : ℕ) * 10 ^ g) ≤ (10 : ℚ) ^ g) ∧
    ((scaled n e g).2 ≤ 2 * ((scaled n e g).1 % (scaled n e g).2) →
      (10 : ℚ) ^ g ≤ 2 * (n * 2 ^ e - ((scaled n e g).1 / (scaled n e g).2 : ℕ) * 10 ^ g)) := by
  have hpos : (0 : ℚ) < (scaled n e g).2 := by exact_mod_cast scaled_pos n e g
  have hten : (0 : ℚ) < 10 ^ g := by positivity
  have hremainder : 2 * (n * 2 ^ e - ((scaled n e g).1 / (scaled n e g).2 : ℕ) * 10 ^ g) =
      ((2 * ((scaled n e g).1 % (scaled n e g).2) : ℕ) : ℚ) / (scaled n e g).2 * 10 ^ g := by
    rw [scaled_eq_add_remainder n e g]
    push_cast
    ring
  rw [hremainder]
  constructor
  · intro hle
    refine mul_le_of_le_one_left hten.le ((div_le_one hpos).mpr ?_)
    exact_mod_cast hle
  · intro hle
    refine le_mul_of_one_le_left hten.le ((one_le_div hpos).mpr ?_)
    exact_mod_cast hle

section

variable (hi : i.Contains e v)
include hi

theorem Interval.Contains.below (hd : d * 10 ^ g ≤ v) (hn : n ≤ d)
    (h : i.Contains e (n * 10 ^ g)) : i.Contains e (d * 10 ^ g) :=
  h.between hi (by gcongr) hd

theorem Interval.Contains.above (hd : v < (d + 1 : ℕ) * 10 ^ g) (hn : d < n)
    (h : i.Contains e (n * 10 ^ g)) : i.Contains e ((d + 1 : ℕ) * 10 ^ g) := by
  refine hi.between h hd.le ?_
  gcongr
  exact hn

end

theorem dist_below (hd : d * 10 ^ g ≤ v) (hn : n ≤ d) :
    |d * 10 ^ g - v| ≤ |n * 10 ^ g - v| := by
  have hle : (n : ℚ) * 10 ^ g ≤ d * 10 ^ g := by gcongr
  rw [abs_of_nonpos (by linarith), abs_of_nonpos (by linarith)]
  linarith

theorem dist_above (hd : v < (d + 1 : ℕ) * 10 ^ g) (hn : d < n) :
    |(d + 1 : ℕ) * 10 ^ g - v| ≤ |n * 10 ^ g - v| := by
  have hle : ((d + 1 : ℕ) : ℚ) * 10 ^ g ≤ n * 10 ^ g := by
    gcongr
    exact hn
  rw [abs_of_nonneg (by linarith), abs_of_nonneg (by linarith)]
  linarith

section

variable (hlow : d * 10 ^ g ≤ v) (hhigh : v < (d + 1 : ℕ) * 10 ^ g)
include hlow hhigh

theorem dist_next : |(d + 1 : ℕ) * 10 ^ g - v| = 10 ^ g - |d * 10 ^ g - v| := by
  rw [abs_of_nonneg (by linarith), abs_of_nonpos (by linarith)]
  push_cast
  ring

/-- In the lower half no multiple is nearer than the one below. -/
theorem dist_le_of_lower_half (h : 2 * (v - d * 10 ^ g) ≤ 10 ^ g) (n : ℕ) :
    |d * 10 ^ g - v| ≤ |n * 10 ^ g - v| := by
  rcases Nat.lt_or_ge d n with hn | hn
  · refine le_trans ?_ (dist_above hhigh hn)
    rw [dist_next hlow hhigh, abs_of_nonpos (by linarith)]
    linarith
  · exact dist_below hlow hn

/-- In the upper half no multiple is nearer than the one above. -/
theorem dist_le_of_upper_half (h : (10 : ℚ) ^ g ≤ 2 * (v - d * 10 ^ g)) (n : ℕ) :
    |(d + 1 : ℕ) * 10 ^ g - v| ≤ |n * 10 ^ g - v| := by
  rcases Nat.lt_or_ge d n with hn | hn
  · exact dist_above hhigh hn
  · refine le_trans ?_ (dist_below hlow hn)
    rw [dist_next hlow hhigh, abs_of_nonpos (by linarith)]
    linarith

end

section

variable (hi : i.Contains e (i.value * 2 ^ e))
include hi

/-- **What is found on a grid is the nearest multiple that lies in the interval.** -/
theorem onGrid?_spec (h : onGrid? i e g = some d) : NearestOnGrid i e g (i.value * 2 ^ e) d := by
  obtain ⟨hlow, hhigh⟩ := floor_scaled i.value e g
  obtain ⟨htwice, htwice'⟩ := twice_remainder_scaled i.value e g
  unfold onGrid? at h
  dsimp only at h
  generalize (scaled i.value e g).1 / (scaled i.value e g).2 = f at *
  generalize (scaled i.value e g).1 % (scaled i.value e g).2 = rem at *
  generalize (scaled i.value e g).2 = den at *
  generalize (i.value : ℚ) * 2 ^ e = v at *
  split at h
  case h_1 hd hd' =>
    rw [Interval.holds_iff] at hd hd'
    cases h
    split
    case isTrue hnear =>
      exact ⟨hd, fun n _ => dist_le_of_lower_half hlow hhigh (htwice (by omega)) n⟩
    case isFalse hnear =>
      exact ⟨hd', fun n _ => dist_le_of_upper_half hlow hhigh (htwice' (by omega)) n⟩
  case h_2 hd hd' =>
    cases h
    rw [Interval.holds_iff] at hd
    rw [← Bool.not_eq_true, Interval.holds_iff] at hd'
    refine ⟨hd, fun n hn => dist_below hlow ?_⟩
    exact Nat.not_lt.mp fun hlt => hd' (hi.above hhigh hlt hn)
  case h_3 hd hd' =>
    cases h
    rw [← Bool.not_eq_true, Interval.holds_iff] at hd
    rw [Interval.holds_iff] at hd'
    refine ⟨hd', fun n hn => dist_above hhigh ?_⟩
    exact Nat.not_le.mp fun hle => hd (hi.below hlow hle hn)
  case h_4 => cases h

/-- If nothing is found, no multiple lies in the interval. -/
theorem not_contains_of_onGrid? (h : onGrid? i e g = none) (n : ℕ) :
    ¬ i.Contains e (n * 10 ^ g) := by
  obtain ⟨hlow, hhigh⟩ := floor_scaled i.value e g
  intro hn
  unfold onGrid? at h
  dsimp only at h
  split at h
  case h_1 | h_2 | h_3 => cases h
  case h_4 hd hd' =>
    rw [← Bool.not_eq_true, Interval.holds_iff] at hd hd'
    rcases Nat.lt_or_ge ((scaled i.value e g).1 / (scaled i.value e g).2) n with hlt | hge
    · exact hd' (hi.above hhigh hlt hn)
    · exact hd (hi.below hlow hge hn)

end

end

end Vorn.Shortest
