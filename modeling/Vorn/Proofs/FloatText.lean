import Vorn.Proofs.Eval.Conversion
import Vorn.Proofs.Number.Scientific
import Vorn.Proofs.Number.Shown

/-!
# Floats in text

* `ShortestRoundTrip`: what the shortest decimal of a float is, in terms of reading;
  `shortestRoundTrip_shortest` says that `Shortest.shortest` gives it.
* `float_text_denotes`: the text of a float is a numeral that denotes this decimal and is read back
  as the float.
-/

namespace Vorn

open Shortest (digitCount interval shortest)

/-- The decimal is read as the float, up to the sign. -/
def ReadsAs (x : Float) (negative : Bool) (d : Shortest.Decimal) : Prop :=
  0 < d.digits ∧ Decimal.nearest d.digits d.exponent = Rounding.unsigned negative x

/-- The decimal is read as the float, which stands for `± v`. No decimal that is has fewer digits,
and of those with as many digits none is nearer to `v`. -/
structure ShortestRoundTrip (x : Float) (negative : Bool) (v : ℚ) (d : Shortest.Decimal) :
    Prop where
  reads : ReadsAs x negative d
  fewest : ∀ c, ReadsAs x negative c → digitCount d.digits ≤ digitCount c.digits
  nearest : ∀ c, ReadsAs x negative c → digitCount c.digits = digitCount d.digits →
    |d.value - v| ≤ |c.value - v|

section

variable {x : Float} {negative : Bool} {m : ℕ} {q : ℤ}

theorem readsAs_iff (hx : Binary.ofFloat x = .finite negative m q) (hm : 0 < m)
    (d : Shortest.Decimal) :
    ReadsAs x negative d ↔ 0 < d.digits ∧ (interval m q).Contains (q - 2) d.value :=
  and_congr_right fun hd => Rounding.nearest_eq_iff hx hm hd

/-- **The decimals that the search finds are shortest.** -/
theorem shortestRoundTrip_shortest (hx : Binary.ofFloat x = .finite negative m q) (hm : 0 < m) :
    ShortestRoundTrip x negative (m * 2 ^ q) (shortest m q) := by
  have hshortest := Shortest.isShortest_shortest (Rounding.canonical_of_ofFloat hx hm).1
  refine ⟨?_, fun c hc => ?_, fun c hc hcount => ?_⟩
  · exact (readsAs_iff hx hm _).mpr ⟨hshortest.pos, hshortest.contains⟩
  · obtain ⟨hpos, hcontains⟩ := (readsAs_iff hx hm c).mp hc
    exact hshortest.fewest c hpos hcontains
  · obtain ⟨hpos, hcontains⟩ := (readsAs_iff hx hm c).mp hc
    rw [← Shortest.value_interval]
    exact hshortest.nearest c hpos hcontains hcount

/-- Numerals that denote the same number are read as the same float. -/
theorem read?_of_shows (hx : Binary.ofFloat x = .finite negative m q) (hm : 0 < m)
    {n : DecimalNumeral} (hnegative : n.negative = negative) (hshows : Shows n (shortest m q)) :
    Decimal.read? n.text = some x := by
  obtain ⟨hpos, hcontains⟩ :=
    (readsAs_iff hx hm _).mp (shortestRoundTrip_shortest hx hm).reads
  have hdigits : 0 < n.digitsValue := by
    refine Nat.pos_of_ne_zero fun hzero => ?_
    have hvalue := hshows.value
    have hpos' : (0 : ℚ) < (shortest m q).digits := by exact_mod_cast hpos
    rw [hzero, Nat.cast_zero, zero_mul, Shortest.Decimal.value] at hvalue
    have : (0 : ℚ) < (shortest m q).digits * 10 ^ (shortest m q).exponent := by positivity
    linarith
  rw [← hshows.value] at hcontains
  rw [n.read?_text, hnegative, (Rounding.nearest_eq_iff hx hm hdigits).mpr hcontains,
    Rounding.unsigned_unsigned hx hm]

end

/-- **The text of a float denotes the float.** The text of a finite float that is not zero is a
decimal numeral. With the sign of the float it denotes the shortest decimal that is read as the
float, so it is read back as the float, and `float(string(x))` is `x`. An exponent, with its sign
and at least two digits, is written exactly if the decimal exponent is below `-4` or at least 6, and
no zero stands at the end behind a point. -/
theorem float_text_denotes (settings : Settings) {x : Float} {negative : Bool} {m : ℕ} {q : ℤ}
    (hx : Binary.ofFloat x = .finite negative m q) (hm : 0 < m) :
    ∃ n : DecimalNumeral, FloatLayout.shown.write x = n.text ∧ n.negative = negative ∧
      n.value = (if negative then -1 else 1) * (shortest m q).value ∧
      ShortestRoundTrip x negative (m * 2 ^ q) (shortest m q) ∧
      Decimal.read? n.text = some x ∧
      (∀ s p pos pos', s.store.inspect? (.float x p) = some n.text ∧
        Builtin.compose settings pos pos' .string .float (.float x p) s =
          .done (.ok (.float x pos) (Builtin.composed settings .string .float s))) ∧
      (n.exponent.isSome ↔ decimalExponent |n.value| < -4 ∨ 6 ≤ decimalExponent |n.value|) ∧
      (∀ e ∈ n.exponent, 2 ≤ e.2.length ∧ n.exponentValue = decimalExponent |n.value|) ∧
      ∀ c ∈ n.part.getLast?, c ≠ '0' := by
  have hshortest := Shortest.isShortest_shortest (Rounding.canonical_of_ofFloat hx hm).1
  obtain ⟨n, hshows, hnegative, htext⟩ := exists_shows negative hshortest.last
  have hwrite : FloatLayout.shown.write x = n.text := by
    rw [FloatLayout.write, hx]
    dsimp only
    rw [FloatLayout.magnitude, if_neg hm.ne', ← htext]
  have hvalue : n.value = (if negative then -1 else 1) * (shortest m q).value := by
    rw [DecimalNumeral.value, hshows.value, hnegative]
  have hpos : 0 ≤ (shortest m q).value := by
    rw [Shortest.Decimal.value]
    positivity
  have habs : |n.value| = (shortest m q).value := by
    rw [hvalue, abs_mul, abs_of_nonneg hpos]
    cases negative <;> simp
  have hread := read?_of_shows hx hm hnegative hshows
  refine ⟨n, hwrite, hnegative, hvalue, shortestRoundTrip_shortest hx hm, hread,
    fun s p pos pos' => ?_, ?_, ?_, hshows.last⟩
  · have hshown : s.store.inspect? (.float x p) = some n.text := by
      rw [← hwrite, Store.inspect?, Store.snapshot?]
      cases s.store.collections <;> rfl
    refine ⟨hshown, ?_⟩
    rw [Builtin.compose_string settings pos pos' hshown, Builtin.apply_eq settings pos' _ rfl,
      Builtin.run, Script.run_lift, Builtin.toFloat, hread]
    rfl
  · rw [habs]
    exact hshows.marked
  · rw [habs]
    exact hshows.exponent

/-- A negative number that needs an exponent. -/
theorem float_text_denotes_small :
    Binary.ofFloat (.ofBits 0xbee4f8b588e368f1) = .finite true 0x14f8b588e368f1 (-69) ∧
      ∃ n : DecimalNumeral, FloatLayout.shown.write (.ofBits 0xbee4f8b588e368f1) = n.text ∧
        n.negative = true ∧ Decimal.read? n.text = some (.ofBits 0xbee4f8b588e368f1) := by
  have hparts : Binary.ofFloat (.ofBits 0xbee4f8b588e368f1) =
      .finite true 0x14f8b588e368f1 (-69) := by decide +kernel
  obtain ⟨n, htext, hnegative, -, -, hread, -⟩ := float_text_denotes {} hparts (by decide)
  exact ⟨hparts, n, htext, hnegative, hread⟩

end Vorn
