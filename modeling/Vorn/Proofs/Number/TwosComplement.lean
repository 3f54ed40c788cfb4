import Mathlib
import Vorn.Number.Word

/-!
# Words as bit vectors

An integer of 64 bits is a bit vector, read with a sign. Each operation on words that is done in
`Int` and wrapped comes to the operation of bit vectors (`Word.wrap_add` and so on), and the power
by repeated squaring to the wrapped power (`Word.pow_eq`).
-/

namespace Vorn.Word

/-! ## Wrapping -/

theorem wrap_eq_toInt (n : Int) : wrap n = (BitVec.ofInt 64 n).toInt := by
  rw [BitVec.toInt_ofInt]
  rfl

theorem wrap_toInt (a : BitVec 64) : wrap a.toInt = a.toInt := by
  rw [wrap_eq_toInt, BitVec.ofInt_toInt]

theorem wrap_wrap_add (m n : Int) : wrap (wrap m + n) = wrap (m + n) := Int.bmod_add_bmod

theorem wrap_mul_wrap (m n : Int) : wrap (m * wrap n) = wrap (m * n) := Int.mul_bmod_bmod

theorem wrap_wrap_mul (m n : Int) : wrap (wrap m * n) = wrap (m * n) := Int.bmod_mul_bmod

/-- Wrapping in between does not change a power. -/
theorem wrap_mul_wrap_pow (m n : Int) (e : Nat) : wrap (m * wrap n ^ e) = wrap (m * n ^ e) := by
  induction e generalizing m with
  | zero => rw [Int.pow_zero, Int.pow_zero]
  | succ e ih =>
    rw [Int.pow_succ, Int.pow_succ, ← Int.mul_assoc, wrap_mul_wrap, ← Int.mul_assoc,
      Int.mul_right_comm, ih, Int.mul_right_comm]

/-! ## Arithmetic -/

variable (a b : BitVec 64)

theorem wrap_neg : wrap (-a.toInt) = (-a).toInt := BitVec.toInt_neg.symm

theorem wrap_add : wrap (a.toInt + b.toInt) = (a + b).toInt := (BitVec.toInt_add a b).symm

theorem wrap_sub : wrap (a.toInt - b.toInt) = (a - b).toInt := (BitVec.toInt_sub).symm

theorem wrap_mul : wrap (a.toInt * b.toInt) = (a * b).toInt := (BitVec.toInt_mul a b).symm

theorem wrap_tmod : wrap (a.toInt.tmod b.toInt) = (a.srem b).toInt := by
  rw [← BitVec.toInt_srem, wrap_toInt]

theorem and_toInt : and a.toInt b.toInt = (a &&& b).toInt := by
  rw [and, bitwise, BitVec.ofInt_toInt, BitVec.ofInt_toInt]

theorem or_toInt : or a.toInt b.toInt = (a ||| b).toInt := by
  rw [or, bitwise, BitVec.ofInt_toInt, BitVec.ofInt_toInt]

theorem xor_toInt : xor a.toInt b.toInt = (a ^^^ b).toInt := by
  rw [xor, bitwise, BitVec.ofInt_toInt, BitVec.ofInt_toInt]

theorem complement_toInt : complement a.toInt = (~~~a).toInt := by
  have hlow := a.le_toInt
  have hhigh := a.toInt_lt
  have hrange : InRange (-a.toInt - 1) := by
    simp only [InRange, min, max]
    omega
  calc complement a.toInt = wrap (-a.toInt - 1) := (wrap_eq_self hrange).symm
    _ = wrap (wrap (-a.toInt) - (1#64).toInt) := (wrap_wrap_add (-a.toInt) (-1)).symm
    _ = (-a - 1#64).toInt := by rw [wrap_neg, wrap_sub]
    _ = (~~~a).toInt := by rw [BitVec.not_eq_neg_add]

/-! ## Shifts -/

/-- A count that is not negative reads the same with a sign and without. -/
theorem toNat_toInt (h : ¬ a.toInt < 0) : a.toInt.toNat = a.toNat := by
  have hlt := a.isLt
  rw [BitVec.toInt_eq_toNat_cond] at h ⊢
  split at h <;> omega

/-- From 64 on nothing is left, as in a bit vector. -/
theorem shiftLeft_toInt (count : Nat) : shiftLeft a.toInt count = (a <<< count).toInt := by
  unfold shiftLeft
  split
  · have hunsigned : a.toInt = wrap a.toNat := a.toInt_eq_toNat_bmod
    rw [BitVec.toInt_shiftLeft, Int.shiftLeft_eq, hunsigned, wrap_wrap_mul]
    rw [Nat.shiftLeft_eq, Int.natCast_mul, Int.natCast_pow]
    rfl
  · rename_i hcount
    rw [BitVec.shiftLeft_eq_zero (by omega), BitVec.toInt_zero]

/-- From 63 on only the sign is left. -/
theorem shiftRight_eq_sign {n : Int} (hn : InRange n) {count : Nat} (hcount : 63 ≤ count) :
    n >>> count = if 0 ≤ n then 0 else -1 := by
  have hpow : (2 : Int) ^ 63 ≤ ((2 ^ count : Nat) : Int) := by
    exact_mod_cast Nat.pow_le_pow_right (by decide) hcount
  simp only [InRange, min, max] at hn
  rw [Int.shiftRight_eq_div_pow]
  split
  · exact Int.ediv_eq_zero_of_lt (by omega) (by omega)
  · exact ((Int.ediv_emod_unique (r := n + (2 ^ count : Nat)) (by omega)).mpr (by omega)).1

theorem shiftRight_toInt (count : Nat) :
    shiftRight a.toInt count = (a.sshiftRight count).toInt := by
  have hrange : InRange a.toInt := by
    have hlow := a.le_toInt
    have hhigh := a.toInt_lt
    simp only [InRange, min, max]
    omega
  rw [shiftRight, BitVec.toInt_sshiftRight]
  rcases Nat.lt_or_ge count 63 with hcount | hcount
  · rw [show Nat.min count 63 = count from Nat.min_eq_left (by omega)]
  · rw [show Nat.min count 63 = 63 from Nat.min_eq_right hcount,
      shiftRight_eq_sign hrange (Nat.le_refl 63), shiftRight_eq_sign hrange hcount]

/-! ## Powers -/

theorem powFrom_eq (acc base : Int) (e : Nat) (hacc : wrap acc = acc) :
    powFrom acc base e = wrap (acc * base ^ e) := by
  fun_induction powFrom acc base e with
  | case1 acc base => rw [Int.pow_zero, Int.mul_one, hacc]
  | case2 acc base e he ih =>
    have hsquare : (base * base) ^ (e / 2) = base ^ (2 * (e / 2)) := by
      rw [Int.pow_mul, Int.pow_succ, Int.pow_succ, Int.pow_zero, Int.one_mul]
    by_cases hodd : e % 2 = 1
    · have hsplit : base ^ e = base * base ^ (2 * (e / 2)) := by
        rw [Int.mul_comm, ← Int.pow_succ]
        congr 1
        omega
      simp only [hodd, if_pos, dif_pos] at ih ⊢
      rw [ih (wrap_eq_self (inRange_wrap _)), wrap_mul_wrap_pow, wrap_wrap_mul, hsquare, hsplit,
        Int.mul_assoc]
    · have hsplit : base ^ e = base ^ (2 * (e / 2)) := by
        congr 1
        omega
      simp only [hodd, if_false, dif_neg, not_false_iff] at ih ⊢
      rw [ih hacc, wrap_mul_wrap_pow, hsquare, hsplit]

/-- The power by repeated squaring is the wrapped power. -/
theorem pow_eq (base : Int) (e : Nat) : pow base e = wrap (base ^ e) := by
  rw [pow, powFrom_eq 1 (wrap base) e rfl, wrap_mul_wrap_pow, Int.one_mul]

end Vorn.Word
