import Vorn.Number.Layout
import Vorn.Proofs.Number.DecimalText
import Vorn.Proofs.Number.ShortestDecimal

/-!
# Shown decimals

How a decimal is placed around the point.

* `Shows n d`: the numeral denotes the decimal, its exponent is written out exactly if it is below
  `-4` or at least 6, and no zero is left at the end behind a point.
* `exists_shows`: the text of a decimal is that of such a numeral.
-/

namespace Vorn

open Shortest (digitCount digitCount_pos lt_ten_pow_digitCount ten_pow_le_of_digitCount)

/-! ## Decimals -/

/-- The decimal exponent: the power of ten of the first digit. -/
def decimalExponent (r : ℚ) : ℤ := Int.log 10 r

/-- The last digit of a number. -/
theorem getLast?_toDigits {n : ℕ} (h : n % 10 ≠ 0) :
    ∀ c ∈ (Nat.toDigits 10 n).getLast?, c ≠ '0' := by
  have hlast : (Nat.toDigits 10 n).getLast? = some (Nat.digitChar (n % 10)) := by
    rcases Nat.lt_or_ge n 10 with hn | hn
    · rw [Nat.toDigits_of_lt_base hn, Nat.mod_eq_of_lt hn]
      rfl
    · rw [Nat.toDigits_of_base_le (by decide) hn, List.getLast?_concat]
  rw [hlast]
  rintro _ ⟨⟩
  have hlt : n % 10 < 10 := Nat.mod_lt _ (by decide)
  generalize n % 10 = d at *
  interval_cases d <;> first | exact absurd rfl h | decide

theorem decimalExponent_value {d : Shortest.Decimal} (hd : 0 < d.digits) :
    decimalExponent d.value = digitCount d.digits + d.exponent - 1 := by
  obtain ⟨k, hk⟩ : ∃ k, digitCount d.digits = k + 1 :=
    ⟨_, (Nat.succ_pred_eq_of_pos (digitCount_pos _)).symm⟩
  have hlow : (10 : ℚ) ^ k ≤ d.digits := by exact_mod_cast ten_pow_le_of_digitCount hd hk
  have hhigh : (d.digits : ℚ) < 10 ^ (k + 1) := by
    exact_mod_cast hk ▸ lt_ten_pow_digitCount d.digits
  have hpos : 0 < d.value := by
    have : (0 : ℚ) < d.digits := by exact_mod_cast hd
    rw [Shortest.Decimal.value]
    positivity
  rw [hk, decimalExponent]
  refine le_antisymm (Int.lt_add_one_iff.mp ?_) ?_
  · rw [← Int.lt_zpow_iff_log_lt (by decide) hpos, Shortest.Decimal.value]
    calc (d.digits : ℚ) * 10 ^ d.exponent < 10 ^ (k + 1) * 10 ^ d.exponent := by gcongr
      _ = 10 ^ ((k + 1 : ℕ) + d.exponent) := by rw [zpow_add₀ (by norm_num), zpow_natCast]
      _ = _ := by
        push_cast
        congr 1
        ring
  · rw [← Int.zpow_le_iff_le_log (by decide) hpos, Shortest.Decimal.value]
    calc _ = (10 : ℚ) ^ (k + d.exponent) := by
          push_cast
          congr 1
          ring
      _ = 10 ^ k * 10 ^ d.exponent := by rw [zpow_add₀ (by norm_num), zpow_natCast]
      _ ≤ d.digits * 10 ^ d.exponent := by gcongr

/-- Digits without a zero at the end, of which `point` stand before the point, make the decimal. -/
structure Spells (ds : List Char) (point : ℤ) (d : Shortest.Decimal) : Prop where
  ne : ds ≠ []
  digits : ∀ c ∈ ds, c.isDigit = true
  last : ∀ c ∈ ds.getLast?, c ≠ '0'
  value : (Nat.ofDigitChars 10 ds 0 : ℚ) * 10 ^ (point - ds.length) = d.value
  exponent : decimalExponent d.value = point - 1

theorem spells_toDigits {d : Shortest.Decimal} (h : d.digits % 10 ≠ 0) :
    Spells (Nat.toDigits 10 d.digits) ((Nat.toDigits 10 d.digits).length + d.exponent) d where
  ne := Nat.toDigits_ne_nil
  digits := Numeral.isDigit_toDigits d.digits
  last := getLast?_toDigits h
  value := by rw [Nat.ofDigitChars_ten_toDigits, add_sub_cancel_left, Shortest.Decimal.value]
  exponent := decimalExponent_value (Nat.pos_of_ne_zero fun hzero => h (by rw [hzero]))

/-! ## Exponents -/

/-- The digits of an exponent, at least two. -/
def exponentDigits (e : ℤ) : List Char :=
  if (Nat.toDigits 10 e.natAbs).length < 2 then '0' :: Nat.toDigits 10 e.natAbs
  else Nat.toDigits 10 e.natAbs

theorem exponentText_eq (e : ℤ) : FloatLayout.exponentText e =
    String.ofList ((if e < 0 then '-' else '+') :: exponentDigits e) := by
  rw [FloatLayout.exponentText, exponentDigits, Nat.repr_eq_ofList_toDigits, String.length_ofList]
  refine String.toList_inj.mp ?_
  split <;> split <;> simp

theorem exponentDigits_spec (e : ℤ) : 2 ≤ (exponentDigits e).length ∧
    (∀ c ∈ exponentDigits e, c.isDigit = true) ∧
      Nat.ofDigitChars 10 (exponentDigits e) 0 = e.natAbs := by
  have hpos : 0 < (Nat.toDigits 10 e.natAbs).length := Nat.length_toDigits_pos
  have hdigits := Numeral.isDigit_toDigits e.natAbs
  unfold exponentDigits
  split
  · refine ⟨by rw [List.length_cons]; omega, ?_, Nat.ofDigitChars_ten_toDigits⟩
    rw [List.forall_mem_cons]
    exact ⟨by decide, hdigits⟩
  · exact ⟨by omega, hdigits, Nat.ofDigitChars_ten_toDigits⟩

theorem exponentValue_of_exponent {n : DecimalNumeral} {e : ℤ}
    (h : n.exponent = some (decide (e < 0), exponentDigits e)) : n.exponentValue = e := by
  rw [DecimalNumeral.exponentValue, h]
  dsimp only
  rw [(exponentDigits_spec e).2.2]
  split
  case isTrue hneg =>
    have := of_decide_eq_true hneg
    omega
  case isFalse hneg =>
    have := of_decide_eq_false (Bool.not_eq_true _ ▸ hneg)
    omega

/-! ## Layouts -/

/-- The numeral writes the decimal in the way that floats are shown. -/
structure Shows (n : DecimalNumeral) (d : Shortest.Decimal) : Prop where
  value : (n.digitsValue : ℚ) * 10 ^ n.power = d.value
  marked : n.exponent.isSome ↔ decimalExponent d.value < -4 ∨ 6 ≤ decimalExponent d.value
  exponent : ∀ e ∈ n.exponent, 2 ≤ e.2.length ∧ n.exponentValue = decimalExponent d.value
  last : ∀ c ∈ n.part.getLast?, c ≠ '0'

namespace Spells

variable {ds : List Char} {point : ℤ} {d : Shortest.Decimal} (negative : Bool)

/-- The text of the digits behind the sign. -/
def signed (negative : Bool) (ds : List Char) (point : ℤ) : String :=
  (if negative then "-" else "") ++ FloatLayout.shown.place ds point

/-- The exponent is written out behind the first digit. -/
theorem scientific (h : Spells ds point d) (hexp : point - 1 < -4 ∨ 6 ≤ point - 1) :
    ∃ n, Shows n d ∧ n.negative = negative ∧ signed negative ds point = n.text := by
  obtain ⟨hlength, hexpdigits, -⟩ := exponentDigits_spec (point - 1)
  obtain ⟨hne, hdigits, hlast, hvalue, hexponent⟩ := h
  obtain ⟨c, cs, rfl⟩ := List.exists_cons_of_ne_nil hne
  let n : DecimalNumeral :=
    { negative
      whole := [c]
      part := cs
      exponent := some (decide (point - 1 < 0), exponentDigits (point - 1))
      whole_ne := List.cons_ne_nil _ _
      digits := hdigits
      exponent_digits := by
        rintro _ ⟨⟩
        exact ⟨List.ne_nil_of_length_pos (Nat.lt_of_lt_of_le Nat.two_pos hlength), hexpdigits⟩ }
  have hn : n.exponentValue = point - 1 := exponentValue_of_exponent rfl
  refine ⟨n, ⟨?_, ?_, ?_, ?_⟩, rfl, ?_⟩
  · have hpower : n.power = point - (c :: cs).length := by
      rw [DecimalNumeral.power, hn, List.length_cons]
      push_cast
      ring
    rw [hpower]
    exact hvalue
  · rw [hexponent]
    exact iff_of_true rfl hexp
  · rintro _ ⟨⟩
    exact ⟨hlength, hn.trans hexponent.symm⟩
  · intro c' hc'
    refine hlast c' ?_
    rw [List.getLast?_cons, hc']
    rfl
  · have hsplit : point - 1 < FloatLayout.leastExponent ∨
        FloatLayout.shown.exponentFrom ≤ point - 1 := hexp
    rw [signed, FloatLayout.place, if_pos hsplit, exponentText_eq, DecimalNumeral.text]
    refine String.toList_inj.mp ?_
    simp only [String.toList_append, String.toList_ofList]
    cases negative <;> cases cs <;>
      simp [n, DecimalNumeral.signChars, DecimalNumeral.pointed, DecimalNumeral.exponentChars]

/-! Numerals without exponent. -/

/-- A numeral without exponent. -/
def plain (negative : Bool) (whole part : List Char) (hne : whole ≠ [])
    (hdigits : ∀ c ∈ whole ++ part, c.isDigit = true) : DecimalNumeral :=
  { negative, whole, part, exponent := none, whole_ne := hne, digits := hdigits
    exponent_digits := by rintro _ ⟨⟩ }

theorem shows_plain (h : Spells ds point d) (hexp : ¬ (point - 1 < -4 ∨ 6 ≤ point - 1))
    {whole part : List Char} (hne : whole ≠ []) (hdigits : ∀ c ∈ whole ++ part, c.isDigit = true)
    (hvalue : (Nat.ofDigitChars 10 (whole ++ part) 0 : ℚ) * 10 ^ (-part.length : ℤ) = d.value)
    (hlast : ∀ c ∈ part.getLast?, c ≠ '0') : Shows (plain negative whole part hne hdigits) d where
  value := by
    rw [← hvalue, ← zero_sub]
    rfl
  marked := by
    rw [h.exponent]
    exact iff_of_false (by simp [plain]) hexp
  exponent := by rintro _ ⟨⟩
  last := hlast

/-- Without exponent the text is placed around the point. -/
theorem signed_plain (hexp : ¬ (point - 1 < -4 ∨ 6 ≤ point - 1)) {whole part : List Char}
    (hne : whole ≠ []) (hdigits : ∀ c ∈ whole ++ part, c.isDigit = true)
    (htext : (if point ≤ 0 then "0." ++ FloatLayout.zeros (-point).toNat ++ String.ofList ds
      else if ds.length ≤ point.toNat then
        String.ofList ds ++ FloatLayout.zeros (point.toNat - ds.length) ++ ""
      else String.ofList (ds.take point.toNat) ++ "." ++ String.ofList (ds.drop point.toNat)) =
        String.ofList (whole ++ DecimalNumeral.pointed part)) :
    signed negative ds point = (plain negative whole part hne hdigits).text := by
  have hplace : FloatLayout.shown.place ds point =
      String.ofList (whole ++ DecimalNumeral.pointed part) := by
    rw [← htext, FloatLayout.place]
    exact if_neg hexp
  rw [signed, hplace, DecimalNumeral.text]
  refine String.toList_inj.mp ?_
  simp only [String.toList_append, String.toList_ofList]
  cases negative <;> simp [plain, DecimalNumeral.signChars, DecimalNumeral.exponentChars]

/-- Zeros stand between the point and the first digit. -/
theorem below_one (h : Spells ds point d) (hexp : ¬ (point - 1 < -4 ∨ 6 ≤ point - 1))
    (hpoint : point ≤ 0) :
    ∃ n, Shows n d ∧ n.negative = negative ∧ signed negative ds point = n.text := by
  have hdigits : ∀ c ∈ ['0'] ++ (List.replicate (-point).toNat '0' ++ ds), c.isDigit = true := by
    intro c hc
    rw [List.mem_append, List.mem_append, List.mem_singleton, List.mem_replicate] at hc
    rcases hc with rfl | ⟨-, rfl⟩ | hc
    · decide
    · decide
    · exact h.digits c hc
  refine ⟨plain negative ['0'] _ (List.cons_ne_nil _ _) hdigits, ?_, rfl, ?_⟩
  · refine shows_plain negative h hexp _ _ ?_ fun c hc => h.last c ?_
    · rw [← h.value, Nat.ofDigitChars_append, Nat.ofDigitChars_append,
        Nat.ofDigitChars_replicate_zero, List.length_append, List.length_replicate]
      congr 2
      omega
    · rwa [List.getLast?_append_of_ne_nil _ h.ne] at hc
  · refine signed_plain negative hexp _ _ ?_
    rw [if_pos hpoint]
    refine String.toList_inj.mp ?_
    simp [DecimalNumeral.pointed, FloatLayout.zeros, h.ne]

/-- Zeros stand behind the last digit. -/
theorem whole (h : Spells ds point d) (hexp : ¬ (point - 1 < -4 ∨ 6 ≤ point - 1))
    (hpoint : ¬ point ≤ 0) (hlength : ds.length ≤ point.toNat) :
    ∃ n, Shows n d ∧ n.negative = negative ∧ signed negative ds point = n.text := by
  have hdigits : ∀ c ∈ ds ++ List.replicate (point.toNat - ds.length) '0' ++ [],
      c.isDigit = true := by
    intro c hc
    rw [List.append_nil, List.mem_append, List.mem_replicate] at hc
    rcases hc with hc | ⟨-, rfl⟩
    · exact h.digits c hc
    · decide
  refine ⟨plain negative _ [] (List.append_ne_nil_of_left_ne_nil h.ne _) hdigits, ?_, rfl, ?_⟩
  · refine shows_plain negative h hexp _ _ ?_ (by rintro _ ⟨⟩)
    rw [← h.value, List.append_nil, Nat.ofDigitChars_append, Nat.ofDigitChars_replicate_zero]
    have hpower : point - ds.length = (point.toNat - ds.length : ℕ) := by omega
    rw [hpower, zpow_natCast]
    push_cast
    rw [List.length_nil, Nat.cast_zero, neg_zero, zpow_zero, mul_one, mul_comm]
  · refine signed_plain negative hexp _ _ ?_
    rw [if_neg hpoint, if_pos hlength]
    refine String.toList_inj.mp ?_
    simp [DecimalNumeral.pointed, FloatLayout.zeros]

/-- The point stands between two digits. -/
theorem between (h : Spells ds point d) (hexp : ¬ (point - 1 < -4 ∨ 6 ≤ point - 1))
    (hpoint : ¬ point ≤ 0) (hlength : ¬ ds.length ≤ point.toNat) :
    ∃ n, Shows n d ∧ n.negative = negative ∧ signed negative ds point = n.text := by
  have htake : ds.take point.toNat ≠ [] := by
    rw [Ne, List.take_eq_nil_iff]
    exact not_or.mpr ⟨by omega, h.ne⟩
  refine ⟨plain negative (ds.take point.toNat) (ds.drop point.toNat) htake
    (by rw [List.take_append_drop]; exact h.digits), ?_, rfl, ?_⟩
  · refine shows_plain negative h hexp _ _ ?_ fun c hc => h.last c ?_
    · rw [List.take_append_drop, ← h.value, List.length_drop]
      congr 2
      omega
    · rwa [List.getLast?_drop, if_neg hlength] at hc
  · refine signed_plain negative hexp _ _ ?_
    rw [if_neg hpoint, if_neg hlength]
    refine String.toList_inj.mp ?_
    simp [DecimalNumeral.pointed, hlength]

end Spells

/-- **The text of a decimal is that of a numeral that shows it.** -/
theorem exists_shows (negative : Bool) {d : Shortest.Decimal} (h : d.digits % 10 ≠ 0) :
    ∃ n, Shows n d ∧ n.negative = negative ∧ (if negative then "-" else "") ++
      FloatLayout.shown.place (Nat.toDigits 10 d.digits)
        ((Nat.toDigits 10 d.digits).length + d.exponent) = n.text := by
  have hspells := spells_toDigits h
  generalize Nat.toDigits 10 d.digits = ds at *
  generalize (ds.length : ℤ) + d.exponent = point at *
  by_cases hexp : point - 1 < -4 ∨ 6 ≤ point - 1
  · exact hspells.scientific negative hexp
  by_cases hpoint : point ≤ 0
  · exact hspells.below_one negative hexp hpoint
  by_cases hlength : ds.length ≤ point.toNat
  · exact hspells.whole negative hexp hpoint hlength
  · exact hspells.between negative hexp hpoint hlength

end Vorn
