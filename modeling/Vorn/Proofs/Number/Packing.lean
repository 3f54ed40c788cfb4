import Vorn.Proofs.Number.Nearest

/-!
# Floats and their bits

* `unpack_pack`: mantissa and exponent of a canonical float come back from its bits;
  `unpack_pack_of_large`: a float that is too large for them becomes infinite.
* `ofFloat_eq`: `Binary.ofFloat` reads what unpacking the bits gives.
* `canonical_of_ofFloat`: what comes from the bits of a float is canonical.
-/

namespace Vorn.Rounding

open Float.Model Float.Model.UnpackedFloat

/-! ## Packed floats -/

/-- What comes back from the bits of a normal float. -/
theorem unpack_packComponents (spec : Format) (s : Sign) {e : BitVec spec.exponentBits}
    (m : BitVec spec.mantissaBitsWithoutImplicit) (hfinite : e ≠ -1#_) (hnormal : e ≠ 0#_) :
    UnpackedFloat.unpack spec (packComponents spec s e m) = .finite s (1#1 ++ m).toNat
      ((e.toNat : Int) - (spec.exponentBias + spec.mantissaBitsWithoutImplicit)) (by simp) := by
  have hsign : Sign.ofBitVec s.toBitVec = s := by cases s <;> rfl
  simp only [UnpackedFloat.unpack, unpackExponent_packComponents, unpackMantissa_packComponents,
    unpackSign_packComponents, if_neg hfinite, if_neg hnormal, hsign]

section

variable {s : Sign} {m : ℕ} {q : ℤ} {hpos : 0 < m}

/-- What comes back from the bits of a float below the normal ones. -/
theorem unpack_packComponents_zero (hlt : m < 2 ^ 52) :
    UnpackedFloat.unpack .binary64 (packComponents .binary64 s 0#11 (BitVec.ofNat 52 m)) =
      .finite s m (-1074) hpos := by
  have hsign : Sign.ofBitVec s.toBitVec = s := by cases s <;> rfl
  have hm : (BitVec.ofNat 52 m).toNat = m := by
    rw [BitVec.toNat_ofNat, Nat.mod_eq_of_lt hlt]
  have hne : BitVec.ofNat 52 m ≠ 0#52 := by
    intro hzero
    rw [hzero] at hm
    exact hpos.ne hm
  rw [UnpackedFloat.unpack]
  simp only [unpackExponent_packComponents, unpackMantissa_packComponents,
    unpackSign_packComponents, hsign, dif_neg hne, hm]
  rfl

/-- The leading bit that the stored mantissa leaves out. -/
theorem toNat_append_one (hlow : 2 ^ 52 ≤ m) (hhigh : m < 2 ^ 53) :
    (1#1 ++ BitVec.ofNat 52 m).toNat = m := by
  rw [BitVec.toNat_append, ← Nat.shiftLeft_add_eq_or_of_lt (BitVec.isLt _), BitVec.toNat_ofNat,
    BitVec.toNat_ofNat, Nat.shiftLeft_eq]
  omega

/-- What comes back from the bits of a normal float, whose exponent is stored with its bias. -/
theorem unpack_packComponents_biased (hlow : 2 ^ 52 ≤ m) (hhigh : m < 2 ^ 53) (hleast : -1074 ≤ q)
    (hq : q ≤ 971) :
    UnpackedFloat.unpack .binary64 (packComponents .binary64 s
      (BitVec.ofNat 11 (q + 1075).toNat) (BitVec.ofNat 52 m)) = .finite s m q hpos := by
  have hexponent : (BitVec.ofNat 11 (q + 1075).toNat).toNat = (q + 1075).toNat := by
    rw [BitVec.toNat_ofNat, Nat.mod_eq_of_lt (by omega)]
  have hfinite : BitVec.ofNat 11 (q + 1075).toNat ≠ -1#11 := by
    intro h
    rw [h, show (-1#11).toNat = 2047 by decide] at hexponent
    omega
  have hnormal : BitVec.ofNat 11 (q + 1075).toNat ≠ 0#11 := by
    intro h
    rw [h, show (0#11).toNat = 0 by decide] at hexponent
    omega
  refine (unpack_packComponents .binary64 s (BitVec.ofNat 52 m) hfinite hnormal).trans ?_
  have hvalue : ((BitVec.ofNat 11 (q + 1075).toNat).toNat : ℤ) -
      ((Format.binary64.exponentBias : ℕ) + (52 : ℕ)) = q := by
    rw [hexponent, show Format.binary64.exponentBias = 1023 from rfl]
    omega
  rw [UnpackedFloat.finite.injEq]
  exact ⟨rfl, toNat_append_one hlow hhigh, hvalue⟩

theorem biasedExponent_eq (q : ℤ) :
    (q + (Format.binary64.exponentBias : ℤ) + (52 : ℕ)).toNat = (q + 1075).toNat := by
  rw [show Format.binary64.exponentBias = 1023 from rfl]
  omega

/-- **Mantissa and exponent come back from the bits of the float.** -/
theorem unpack_pack (h : Canonical m q) (hq : q ≤ 971) :
    (Float.Model.pack (.finite s m q hpos)).unpack = .finite s m q hpos := by
  have hleast := h.least
  change UnpackedFloat.unpack .binary64 (UnpackedFloat.pack .binary64 (.finite s m q hpos)) = _
  rw [UnpackedFloat.pack]
  dsimp only
  rw [biasedExponent_eq, if_neg (by omega)]
  rcases Nat.lt_or_ge m (2 ^ 52) with hlow | hlow
  · have hlog : m.log2 < 52 := (Nat.log2_lt hpos.ne').mpr hlow
    have hbits : ¬ m.log2 + 1 = Format.binary64.mantissaBits := by
      rw [show Format.binary64.mantissaBits = 53 from rfl]
      omega
    obtain rfl : q = -1074 := by
      by_contra hne
      have := h.le (by omega)
      omega
    rw [if_neg hbits]
    exact unpack_packComponents_zero hlow
  · have hlog : m.log2 = 52 := (Nat.log2_eq_iff (by omega)).mpr ⟨hlow, h.lt⟩
    rw [hlog, if_pos (by decide)]
    exact unpack_packComponents_biased hlow h.lt hleast hq

theorem unpack_pack_zero (s : Sign) : (Float.Model.pack (.zero s)).unpack = .zero s := by
  cases s <;> rfl

theorem unpack_pack_infinity (s : Sign) :
    (Float.Model.pack (.infinity s)).unpack = .infinity s := by
  cases s <;> rfl

/-- A float that is too large becomes infinite. -/
theorem unpack_pack_of_large (hq : 971 < q) :
    (Float.Model.pack (.finite s m q hpos)).unpack = .infinity s := by
  have hpack : Float.Model.pack (.finite s m q hpos) = Float.Model.pack (.infinity s) := by
    unfold Float.Model.pack
    congr 2
    rw [UnpackedFloat.pack, UnpackedFloat.pack]
    dsimp only
    rw [biasedExponent_eq, if_pos (by omega)]
  rw [hpack, unpack_pack_infinity]

end

/-! ## Unpacked floats -/

/-- A float is determined by what comes from its bits. -/
theorem eq_of_unpack_eq {x y : Float} (h : x.toModel.unpack = y.toModel.unpack) : x = y := by
  have hbits := (UnpackedFloat.unpack_inj_of_valid x.toModel.valid y.toModel.valid).mp h
  exact Float.toBits_inj.mp (UInt64.toBitVec_inj.mp hbits)

def isNegative : Sign → Bool
  | .negative => true
  | .positive => false

/-- What an unpacked float stands for. -/
def ofUnpacked : UnpackedFloat → Binary
  | .notANumber => .nan
  | .infinity s => .infinite (isNegative s)
  | .zero s => .finite (isNegative s) 0 (-1074)
  | .finite s m q _ => .finite (isNegative s) m q

section

variable (x : Float)

theorem toNat_unpackExponent :
    (@unpackExponent .binary64 x.toModel.toBits.toBitVec).toNat =
      (x.toBits.toNat >>> 52) % 0x800 := by
  rw [unpackExponent_def, BitVec.extractLsb'_toNat]
  rfl

theorem toNat_unpackMantissa :
    (@unpackMantissa .binary64 x.toModel.toBits.toBitVec).toNat =
      x.toBits.toNat % Binary.hiddenBit := by
  rw [unpackMantissa_def, BitVec.extractLsb'_toNat]
  rfl

theorem isNegative_unpackSign :
    isNegative (Sign.ofBitVec (@unpackSign .binary64 x.toModel.toBits.toBitVec)) =
      decide (x.toBits.toNat >>> 63 = 1) := by
  have hsign : (@unpackSign .binary64 x.toModel.toBits.toBitVec).toNat =
      x.toBits.toNat >>> 63 % 2 := by
    rw [unpackSign_def, BitVec.extractLsb'_toNat]
    rfl
  have hlt : x.toBits.toNat >>> 63 < 2 := by
    rw [Nat.shiftRight_eq_div_pow]
    have := x.toBits.toNat_lt
    omega
  rw [Nat.mod_eq_of_lt hlt] at hsign
  rw [← hsign]
  generalize @unpackSign .binary64 x.toModel.toBits.toBitVec = b
  revert b
  decide

/-- **The parts of a float are those that unpacking gives.** -/
theorem ofFloat_eq : Binary.ofFloat x = ofUnpacked x.toModel.unpack := by
  rw [Binary.ofFloat, Float.Model.unpack, UnpackedFloat.unpack]
  dsimp only
  rw [← toNat_unpackExponent, ← toNat_unpackMantissa, ← isNegative_unpackSign]
  have hlast : (@unpackExponent .binary64 x.toModel.toBits.toBitVec).toNat = 0x7ff ↔
      @unpackExponent .binary64 x.toModel.toBits.toBitVec = -1#11 := by
    rw [← BitVec.toNat_inj]
    rfl
  have hfirst : (@unpackExponent .binary64 x.toModel.toBits.toBitVec).toNat = 0 ↔
      @unpackExponent .binary64 x.toModel.toBits.toBitVec = 0#11 := by
    rw [← BitVec.toNat_inj]
    rfl
  have hzero : (@unpackMantissa .binary64 x.toModel.toBits.toBitVec).toNat = 0 ↔
      @unpackMantissa .binary64 x.toModel.toBits.toBitVec = 0#52 := by
    rw [← BitVec.toNat_inj]
    rfl
  simp only [hlast, hfirst]
  split
  case isTrue =>
    simp only [hzero]
    split <;> rfl
  case isFalse =>
    split
    case isTrue he =>
      rw [← hfirst] at he
      split
      case isTrue hm => rw [hm]; rfl
      case isFalse => rw [ofUnpacked, he]; rfl
    case isFalse =>
      have hhidden : (1#1 ++ @unpackMantissa .binary64 x.toModel.toBits.toBitVec).toNat =
          Binary.hiddenBit + (@unpackMantissa .binary64 x.toModel.toBits.toBitVec).toNat := by
        rw [BitVec.toNat_append, ← Nat.shiftLeft_add_eq_or_of_lt (BitVec.isLt _)]
        rfl
      rw [ofUnpacked, hhidden]
      rfl

end

section

variable {x : Float} {negative : Bool} {m : ℕ} {q : ℤ}

/-- The parts of a float are canonical. -/
theorem canonical_of_ofFloat (h : Binary.ofFloat x = .finite negative m q) (hpos : 0 < m) :
    Canonical m q ∧ q ≤ 971 := by
  rw [Binary.ofFloat] at h
  have hhidden : Binary.hiddenBit = 2 ^ 52 := rfl
  have hfraction : x.toBits.toNat % Binary.hiddenBit < 2 ^ 52 := Nat.mod_lt _ (by decide)
  have hexponent : (x.toBits.toNat >>> 52) % 0x800 < 0x800 := Nat.mod_lt _ (by decide)
  generalize x.toBits.toNat % Binary.hiddenBit = fraction at *
  generalize (x.toBits.toNat >>> 52) % 0x800 = exponent at *
  split at h
  case isTrue => split at h <;> cases h
  case isFalse hlast =>
    split at h <;> obtain ⟨-, rfl, rfl⟩ := (Binary.finite.injEq ..).mp h
    case isTrue => exact ⟨⟨hpos, by omega, by omega, by omega⟩, by omega⟩
    case isFalse => exact ⟨⟨hpos, by omega, by omega, by omega⟩, by omega⟩

/-- Mantissa and exponent of a float come from its bits. -/
theorem exists_unpack (h : Binary.ofFloat x = .finite negative m q) (hpos : 0 < m) :
    ∃ s, x.toModel.unpack = .finite s m q hpos ∧ isNegative s = negative := by
  rw [ofFloat_eq] at h
  cases hunpack : x.toModel.unpack with
  | notANumber | infinity => rw [hunpack] at h; cases h
  | zero s =>
    rw [hunpack] at h
    cases h
    cases hpos
  | finite s m' q' =>
    rw [hunpack] at h
    cases h
    exact ⟨s, rfl, rfl⟩

/-! ## Signs -/

theorem unpack_neg {s : Sign} {hpos : 0 < m} (h : x.toModel.unpack = .finite s m q hpos)
    (hcanonical : Canonical m q) (hq : q ≤ 971) : (-x).toModel.unpack = .finite (-s) m q hpos := by
  have hneg : (-x).toModel = Float.Model.pack x.toModel.unpack.neg := rfl
  rw [hneg, h]
  exact unpack_pack hcanonical hq

/-- A finite float without its sign. -/
def unsigned (negative : Bool) (x : Float) : Float := if negative then -x else x

theorem unpack_unsigned (h : Binary.ofFloat x = .finite negative m q) (hpos : 0 < m) :
    (unsigned negative x).toModel.unpack = .finite .positive m q hpos := by
  obtain ⟨s, hunpack, rfl⟩ := exists_unpack h hpos
  obtain ⟨hcanonical, hq⟩ := canonical_of_ofFloat h hpos
  cases s with
  | positive => exact hunpack
  | negative => exact unpack_neg hunpack hcanonical hq

/-- The sign comes back. -/
theorem unsigned_unsigned (h : Binary.ofFloat x = .finite negative m q) (hpos : 0 < m) :
    unsigned negative (unsigned negative x) = x := by
  obtain ⟨s, hunpack, rfl⟩ := exists_unpack h hpos
  obtain ⟨hcanonical, hq⟩ := canonical_of_ofFloat h hpos
  cases s with
  | positive => rfl
  | negative =>
    refine eq_of_unpack_eq ?_
    rw [hunpack]
    exact unpack_neg (unpack_neg hunpack hcanonical hq) hcanonical hq

end

end Vorn.Rounding
