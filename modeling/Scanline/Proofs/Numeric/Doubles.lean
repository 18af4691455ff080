import Scanline.Numeric.FloatValue
import Mathlib

/-
  The finite doubles. Each has one mantissa and one exponent (`IsDouble`): 53 bits of mantissa, and
  fewer only at the least exponent. `ofFloat_eq_ofUnpacked`: the bits taken apart by hand are the
  number that arithmetic works with. `unpack_pack_of_isDouble` and `roundWithAccuracy_shifted`:
  what is a double already is not rounded. What packing and rounding keep is the same in every format
  (`unpack_packComponents_normal`, `roundWithAccuracy_canonical`).
-/

namespace Scanline

open Float.Model (Format UnpackedFloat totalExponent)
open Float.Model.UnpackedFloat

/-- The mantissa and the exponent of a double that is not zero. -/
structure IsDouble (m : Nat) (e : Int) : Prop where
  pos : 0 < m
  lt : m < 2 ^ 53
  least : -1074 ≤ e
  greatest : e ≤ 971
  full : 2 ^ 52 ≤ m ∨ e = -1074

namespace IsDouble

theorem log2_le {m : Nat} {e : Int} (h : IsDouble m e) : m.log2 ≤ 52 := by
  have := (Nat.log2_lt h.pos.ne').mpr h.lt
  omega

theorem log2_eq_of_full {m : Nat} {e : Int} (h : IsDouble m e) (hm : 2 ^ 52 ≤ m) :
    m.log2 = 52 := by
  have hle := h.log2_le
  have hge := (Nat.le_log2 h.pos.ne').mpr hm
  omega

theorem log2_lt_of_not_full {m : Nat} {e : Int} (h : IsDouble m e) (hm : ¬2 ^ 52 ≤ m) :
    m.log2 < 52 :=
  (Nat.log2_lt h.pos.ne').mpr (by omega)

/-- The exponent of a double follows from where its highest bit stands. -/
theorem targetExponent_eq {m : Nat} {e : Int} (h : IsDouble m e) :
    Format.binary64.targetExponent (totalExponent m e) = e := by
  have hle := h.log2_le
  have hleast := h.least
  have hmin : Format.binary64.minExponent = -1074 := rfl
  have hbits : Format.binary64.mantissaBits = 53 := rfl
  unfold Format.targetExponent totalExponent
  rw [hmin, hbits]
  rcases h.full with hm | he
  · rw [h.log2_eq_of_full hm]
    omega
  · omega

end IsDouble

namespace FloatValue

/-- The number that a float is unpacked to. -/
def ofUnpacked : UnpackedFloat → FloatValue
  | .infinity s => infinite (s == .negative)
  | .notANumber => undefined
  | .zero s => finite (s == .negative) 0 (-1074)
  | .finite s m e _ => finite (s == .negative) m e

end FloatValue

section Bits

variable (b : BitVec Format.binary64.numBits)

theorem toNat_unpackMantissa : (unpackMantissa b).toNat = b.toNat % 2 ^ 52 := by
  unfold unpackMantissa
  rw [BitVec.toNat_cast, BitVec.extractLsb_toNat, Nat.shiftRight_zero]
  rfl

theorem toNat_unpackExponent : (unpackExponent b).toNat = b.toNat / 2 ^ 52 % 2 ^ 11 := by
  unfold unpackExponent
  rw [BitVec.toNat_cast, BitVec.extractLsb_toNat, Nat.shiftRight_eq_div_pow]
  rfl

theorem toNat_unpackSign : (unpackSign b).toNat = b.toNat / 2 ^ 63 % 2 := by
  unfold unpackSign
  rw [BitVec.toNat_cast, BitVec.extractLsb_toNat, Nat.shiftRight_eq_div_pow]
  rfl

theorem ofBitVec_unpackSign :
    (Sign.ofBitVec (unpackSign b) == .negative) = (b.toNat / 2 ^ 63 % 2 == 1) := by
  have hsign := toNat_unpackSign b
  rcases Nat.mod_two_eq_zero_or_one (b.toNat / 2 ^ 63) with h | h
  · have : unpackSign b = 0#1 := BitVec.eq_of_toNat_eq (hsign.trans h)
    rw [this, h]
    rfl
  · have : unpackSign b = 1#1 := BitVec.eq_of_toNat_eq (hsign.trans h)
    rw [this, h]
    rfl

theorem toNat_append_implicit {n : Nat} (m : BitVec n) : (1#1 ++ m).toNat = m.toNat + 2 ^ n := by
  rw [BitVec.toNat_append, ← Nat.shiftLeft_add_eq_or_of_lt m.isLt, Nat.shiftLeft_eq, Nat.add_comm,
    BitVec.toNat_one (by decide), Nat.one_mul]

theorem unpackExponent_eq_iff {n : Nat} (hn : n < 2 ^ 11) :
    unpackExponent b = BitVec.ofNat 11 n ↔ b.toNat / 2 ^ 52 % 2 ^ 11 = n := by
  rw [← toNat_unpackExponent, ← BitVec.toNat_inj, BitVec.toNat_ofNat, Nat.mod_eq_of_lt hn]

theorem unpackMantissa_eq_zero_iff : unpackMantissa b = 0#52 ↔ b.toNat % 2 ^ 52 = 0 := by
  rw [← toNat_unpackMantissa, ← BitVec.toNat_inj]
  rfl

/-- The fields of a double. -/
theorem ofBits_double (n : Nat) :
    FloatValue.ofBits 11 52 n =
      if n / 2 ^ 52 % 2 ^ 11 = 2047 then
        if n % 2 ^ 52 = 0 then .infinite (n / 2 ^ 63 % 2 == 1) else .undefined
      else if n / 2 ^ 52 % 2 ^ 11 = 0 then .finite (n / 2 ^ 63 % 2 == 1) (n % 2 ^ 52) (-1074)
      else
        .finite (n / 2 ^ 63 % 2 == 1) (n % 2 ^ 52 + 2 ^ 52)
          ((n / 2 ^ 52 % 2 ^ 11 : Nat) - 1 + -1074) := by
  unfold FloatValue.ofBits
  simp only [Nat.shiftLeft_eq, Nat.shiftRight_eq_div_pow, Nat.one_mul]
  rfl

/-- The bits of a float are read in the same way as by arithmetic. -/
theorem ofUnpacked_unpack :
    FloatValue.ofUnpacked (UnpackedFloat.unpack Format.binary64 b) =
      FloatValue.ofBits 11 52 b.toNat := by
  have hsign := ofBitVec_unpackSign b
  have hone : unpackExponent b = -1#11 ↔ b.toNat / 2 ^ 52 % 2 ^ 11 = 2047 :=
    unpackExponent_eq_iff b (by decide)
  have hzero : unpackExponent b = 0#11 ↔ b.toNat / 2 ^ 52 % 2 ^ 11 = 0 :=
    unpackExponent_eq_iff b (by decide)
  have hmantissa := unpackMantissa_eq_zero_iff b
  have hbias : (Format.binary64.exponentBias : Int) = 1023 := rfl
  rw [ofBits_double, ← hsign]
  unfold UnpackedFloat.unpack
  simp only [hone, hzero, hmantissa, toNat_unpackExponent, hbias]
  by_cases hexp : b.toNat / 2 ^ 52 % 2 ^ 11 = 2047
  · rw [if_pos hexp, if_pos hexp]
    split <;> rfl
  · rw [if_neg hexp, if_neg hexp]
    by_cases hexp' : b.toNat / 2 ^ 52 % 2 ^ 11 = 0
    · rw [if_pos hexp', if_pos hexp']
      split
      · rename_i hman
        rw [hman]
        rfl
      · simp only [FloatValue.ofUnpacked, toNat_unpackMantissa, hexp']
        rfl
    · rw [if_neg hexp', if_neg hexp']
      simp only [FloatValue.ofUnpacked, toNat_append_implicit, toNat_unpackMantissa]
      congr 1
      omega

/-- What bits are unpacked to is a double. -/
theorem isDouble_unpack {s : Sign} {m : Nat} {e : Int} {hm : 0 < m}
    (h : UnpackedFloat.unpack Format.binary64 b = .finite s m e hm) : IsDouble m e := by
  have hone : unpackExponent b = -1#11 ↔ b.toNat / 2 ^ 52 % 2 ^ 11 = 2047 :=
    unpackExponent_eq_iff b (by decide)
  have hzero : unpackExponent b = 0#11 ↔ b.toNat / 2 ^ 52 % 2 ^ 11 = 0 :=
    unpackExponent_eq_iff b (by decide)
  have hbias : (Format.binary64.exponentBias : Int) = 1023 := rfl
  have hlt := Nat.mod_lt b.toNat (show 0 < 2 ^ 52 by decide)
  unfold UnpackedFloat.unpack at h
  simp only [hone, hzero, toNat_unpackExponent, hbias] at h
  split at h
  · split at h <;> cases h
  · split at h
    · split at h
      · cases h
      · injection h with _ hm' he'
        rw [toNat_unpackMantissa] at hm'
        exact ⟨hm, by omega, by omega, by omega, .inr (by omega)⟩
    · injection h with _ hm' he'
      rw [toNat_append_implicit (n := 52), toNat_unpackMantissa] at hm'
      exact ⟨hm, by omega, by omega, by omega, .inl (by omega)⟩

end Bits

section Packing

theorem unpack_pack_infinity (s : Sign) :
    UnpackedFloat.unpack Format.binary64 (pack Format.binary64 (.infinity s)) = .infinity s := by
  cases s <;> rfl

theorem unpack_pack_notANumber :
    UnpackedFloat.unpack Format.binary64 (pack Format.binary64 .notANumber) = .notANumber := rfl

theorem unpack_pack_zero (s : Sign) :
    UnpackedFloat.unpack Format.binary64 (pack Format.binary64 (.zero s)) = .zero s := by
  cases s <;> rfl

/-- Fields with an exponent that is neither the first nor the last one, in every format. -/
theorem unpack_packComponents_normal (spec : Format) (s : Sign) {x : BitVec spec.exponentBits}
    {k : BitVec spec.mantissaBitsWithoutImplicit} {m : Nat} {e : Int} (hx0 : x ≠ 0#_)
    (hx : x ≠ -1#_) (hk : k.toNat + 2 ^ spec.mantissaBitsWithoutImplicit = m)
    (he : (x.toNat : Int) - (spec.exponentBias + spec.mantissaBitsWithoutImplicit) = e)
    (hm : 0 < m) :
    UnpackedFloat.unpack spec (packComponents spec s x k) = .finite s m e hm := by
  subst hk he
  unfold UnpackedFloat.unpack
  simp only [unpackMantissa_packComponents, unpackExponent_packComponents,
    unpackSign_packComponents, Sign.ofBitVec_toBitVec, hx0, hx, if_false, toNat_append_implicit]

theorem unpack_packComponents_full (s : Sign) {x : BitVec 11} {k : BitVec 52} {m : Nat} {e : Int}
    (hx0 : x.toNat ≠ 0) (hx : x.toNat < 2047) (hk : k.toNat + 2 ^ 52 = m)
    (he : (x.toNat : Int) - 1075 = e) (hm : 0 < m) :
    UnpackedFloat.unpack Format.binary64 (packComponents Format.binary64 s x k) =
      .finite s m e hm := by
  have hone : x ≠ -1#11 := by
    rintro rfl
    exact absurd hx (by decide)
  have hzero : x ≠ 0#11 := by
    rintro rfl
    exact hx0 rfl
  exact unpack_packComponents_normal .binary64 s hzero hone hk he hm

/-- Fields with the first exponent and a mantissa that is not zero. -/
theorem unpack_packComponents_low (s : Sign) {k : BitVec 52} {m : Nat} (hk : k.toNat = m)
    (hm : 0 < m) :
    UnpackedFloat.unpack Format.binary64 (packComponents Format.binary64 s 0#11 k) =
      .finite s m (-1074) hm := by
  have hzero : k ≠ 0#52 := by
    rintro rfl
    exact hm.ne hk
  unfold UnpackedFloat.unpack
  simp only [unpackMantissa_packComponents, unpackExponent_packComponents,
    unpackSign_packComponents, Sign.ofBitVec_toBitVec, hzero, if_false, hk]
  rfl

theorem unpack_pack_finite {m : Nat} {e : Int} (s : Sign) (h : IsDouble m e) :
    UnpackedFloat.unpack Format.binary64 (pack Format.binary64 (.finite s m e h.pos)) =
      .finite s m e h.pos := by
  have hlt := h.lt
  have hleast := h.least
  have hgreatest := h.greatest
  have hbias : (Format.binary64.exponentBias : Int) = 1023 := rfl
  have hbits : Format.binary64.mantissaBits = 53 := rfl
  unfold pack
  dsimp only
  rw [hbias, hbits, if_neg (by omega)]
  by_cases hm : 2 ^ 52 ≤ m
  · have hexp : (BitVec.ofNat 11 (e + 1023 + (52 : Nat)).toNat).toNat = (e + 1075).toNat := by
      rw [BitVec.toNat_ofNat]
      omega
    have hman : (BitVec.ofNat 52 m).toNat + 2 ^ 52 = m := by
      rw [BitVec.toNat_ofNat]
      omega
    rw [if_pos (by rw [h.log2_eq_of_full hm])]
    exact unpack_packComponents_full s (by omega) (by omega) hman (by omega) h.pos
  · obtain rfl := h.full.resolve_left hm
    have hman : (BitVec.ofNat 52 m).toNat = m := by
      rw [BitVec.toNat_ofNat]
      omega
    rw [if_neg (by have := h.log2_lt_of_not_full hm; omega)]
    exact unpack_packComponents_low s hman h.pos

/-- A number that is a double is kept by packing. -/
theorem unpack_pack_of_isDouble (f : UnpackedFloat)
    (h : ∀ s m e hm, f = .finite s m e hm → IsDouble m e) :
    UnpackedFloat.unpack Format.binary64 (pack Format.binary64 f) = f := by
  cases f with
  | infinity s => exact unpack_pack_infinity s
  | notANumber => exact unpack_pack_notANumber
  | zero s => exact unpack_pack_zero s
  | finite s m e hm => exact unpack_pack_finite s (h s m e hm rfl)

end Packing

section Rounding

theorem log2_mul_two_pow {m : Nat} (hm : 0 < m) (k : Nat) : (m * 2 ^ k).log2 = m.log2 + k := by
  induction k with
  | zero => rw [pow_zero, Nat.mul_one, Nat.add_zero]
  | succ k ih =>
    have hpow : m * 2 ^ (k + 1) = 2 * (m * 2 ^ k) := by ring
    rw [hpow, Nat.log2_two_mul (by positivity), ih, Nat.add_assoc]

theorem shiftRight_exact (m k : Nat) :
    ExtendedMantissa.ofMantissaAndAccuracy (m * 2 ^ k) .exact >>> k = ⟨m, false, false⟩ := by
  change k.repeat ExtendedMantissa.shiftRightOne _ = _
  induction k generalizing m with
  | zero => rw [pow_zero, Nat.mul_one]; rfl
  | succ k ih =>
    have hpow : m * 2 ^ (k + 1) = (m * 2) * 2 ^ k := by ring
    have heven : m * 2 % 2 = 0 := Nat.mul_mod_left m 2
    rw [Nat.repeat, hpow, ih]
    simp [ExtendedMantissa.shiftRightOne]

variable {spec : Format} {m : Nat} {e : Int}

theorem shiftToTargetExponent_shifted (hm : 0 < m)
    (h : spec.targetExponent (totalExponent m e) = e) (k : Nat) :
    shiftToTargetExponent spec (m * 2 ^ k) (e - k) .exact = (⟨m, false, false⟩, e) := by
  have htotal : totalExponent (m * 2 ^ k) (e - k) = totalExponent m e := by
    unfold totalExponent
    rw [log2_mul_two_pow hm]
    omega
  unfold shiftToTargetExponent shiftToExponent
  rw [htotal, h]
  have hk : (e - (e - k)).toNat = k := by omega
  simp only [hk, shiftRight_exact]
  congr 1
  omega

/-- Rounding takes back a shift to the left of what has the exponent that the format asks for. -/
theorem roundWithAccuracy_canonical (hm : 0 < m)
    (h : spec.targetExponent (totalExponent m e) = e) (s : Sign) (k : Nat) :
    roundWithAccuracy spec s (m * 2 ^ k) (e - k) .exact = .finite s m e hm := by
  have hsecond := shiftToTargetExponent_shifted hm h 0
  rw [pow_zero, Nat.mul_one, Nat.cast_zero, Int.sub_zero] at hsecond
  have hrounded : ExtendedMantissa.roundedMantissa ⟨m, false, false⟩ = m := rfl
  unfold roundWithAccuracy
  simp only [shiftToTargetExponent_shifted hm h k, hrounded, hsecond, hm.ne', dite_false]

/-- Rounding takes back a shift of a double to the left. -/
theorem roundWithAccuracy_shifted (h : IsDouble m e) (s : Sign) (k : Nat) :
    roundWithAccuracy Format.binary64 s (m * 2 ^ k) (e - k) .exact = .finite s m e h.pos :=
  roundWithAccuracy_canonical h.pos h.targetExponent_eq s k

end Rounding

/-- The bits of a float taken apart are the number that arithmetic works with. -/
theorem ofFloat_eq_ofUnpacked (x : Float) :
    FloatValue.ofFloat x = FloatValue.ofUnpacked x.toModel.unpack :=
  (ofUnpacked_unpack x.toModel.toBits.toBitVec).symm

theorem isDouble_of_unpack {x : Float} {s : Sign} {m : Nat} {e : Int} {hm : 0 < m}
    (h : x.toModel.unpack = .finite s m e hm) : IsDouble m e :=
  isDouble_unpack x.toModel.toBits.toBitVec h

/-- A float that is put together from a double is that double. -/
theorem ofFloat_pack (f : UnpackedFloat) (h : ∀ s m e hm, f = .finite s m e hm → IsDouble m e) :
    FloatValue.ofFloat (.ofModel (.pack f)) = FloatValue.ofUnpacked f := by
  rw [ofFloat_eq_ofUnpacked]
  exact congrArg FloatValue.ofUnpacked (unpack_pack_of_isDouble f h)

/-- A float that is put together from bits is what the bits say. -/
theorem ofFloat_ofBits (b : UInt64) :
    FloatValue.ofFloat (.ofBits b) = FloatValue.ofBits 11 52 b.toNat := by
  have hpack := ofFloat_pack (UnpackedFloat.unpack Format.binary64 b.toBitVec)
    fun _ _ _ _ h => isDouble_unpack b.toBitVec h
  exact hpack.trans (ofUnpacked_unpack b.toBitVec)

end Scanline
