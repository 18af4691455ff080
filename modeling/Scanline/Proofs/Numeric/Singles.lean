import Scanline.Numeric.Extremes
import Scanline.Proofs.Numeric.Doubles

/-
  Single floats whose exact values do not matter. `Within` bounds the exponent of a number, which
  keeps infinities and NaNs away: arithmetic on numbers that are small enough gives numbers again
  (`Within.mul`, `Within.div`, `Within.sub`). A zero makes a zero of every number that it
  multiplies (`IsZero.mul`), and adding it changes nothing (`IsZero.add`).
-/

namespace Scanline

open Float.Model (Format UnpackedFloat totalExponent)
open Float.Model.UnpackedFloat

/-- Whether a float is a number with an exponent of at most `j`. Of a single float the mantissa
has 24 bits, so that it is less than `2 ^ (j + 24)`. -/
def exponentWithin (j : Int) : UnpackedFloat → Bool
  | .zero _ => true
  | .finite _ _ e _ => e ≤ j
  | .infinity _ | .notANumber => false

/-- The float is a number with an exponent of at most `j`. -/
def Within (j : Int) (x : Float32) : Prop := exponentWithin j x.toModel.unpack = true

/-- The float is a positive number with an exponent of at least `i`. -/
def AtLeast (i : Int) (x : Float32) : Prop :=
  ∃ m e hm, x.toModel.unpack = .finite .positive m e hm ∧ i ≤ e

/-- The float is zero, of either sign. -/
def IsZero (x : Float32) : Prop := ∃ s, x.toModel.unpack = .zero s

instance (j : Int) (x : Float32) : Decidable (Within j x) := inferInstanceAs (Decidable (_ = true))

/-! ## Fields -/

theorem toBitVec_ofBitVec (v : BitVec 1) : (Sign.ofBitVec v).toBitVec = v := by
  revert v
  decide

/-- The three fields make up the bits, in every format. -/
theorem packComponents_fields {spec : Format} (b : BitVec spec.numBits) :
    packComponents spec (Sign.ofBitVec (unpackSign b)) (unpackExponent b) (unpackMantissa b) =
      b := by
  unfold packComponents unpackSign unpackExponent unpackMantissa
  rw [toBitVec_ofBitVec]
  ext i hi
  simp only [BitVec.getElem_append, BitVec.getElem_cast, BitVec.extractLsb]
  grind

section Fields

variable (b : BitVec Format.binary32.numBits)

theorem mantissa_lt {s : Sign} {m : Nat} {e : Int} {hm : 0 < m}
    (h : UnpackedFloat.unpack Format.binary32 b = .finite s m e hm) : m < 2 ^ 24 := by
  have hlt : (unpackMantissa b).toNat < 2 ^ 23 := (unpackMantissa b).isLt
  unfold UnpackedFloat.unpack at h
  dsimp only at h
  split_ifs at h
  · injection h
    omega
  · injection h with _ hm' _
    rw [toNat_append_implicit (n := 23)] at hm'
    omega

/-- Numbers other than zero are packed as the bits that they were unpacked from. -/
theorem pack_unpack_single {s : Sign} {m : Nat} {e : Int} {hm : 0 < m}
    (h : UnpackedFloat.unpack Format.binary32 b = .finite s m e hm) :
    pack Format.binary32 (.finite s m e hm) = b := by
  have hlt : (unpackMantissa b).toNat < 2 ^ 23 := (unpackMantissa b).isLt
  have hexp : (unpackExponent b).toNat < 2 ^ 8 := (unpackExponent b).isLt
  have hbias : (Format.binary32.exponentBias : Int) = 127 := rfl
  have hbits : Format.binary32.mantissaBits = 24 := rfl
  have hfields := packComponents_fields b
  unfold UnpackedFloat.unpack at h
  dsimp only at h
  split_ifs at h with hone _ hzero hman
  · injection h with hs hm' he
    have hexp0 : (unpackExponent b).toNat = 0 := congrArg BitVec.toNat hzero
    have hlow : m.log2 + 1 ≠ Format.binary32.mantissaBits := by
      have := (Nat.log2_lt hm.ne').mpr (hm' ▸ hlt)
      omega
    unfold pack
    dsimp only
    rw [hbias, if_neg (by omega), if_neg hlow, ← hs, ← hm', BitVec.ofNat_toNat, BitVec.setWidth_eq,
      ← hzero]
    exact hfields
  · injection h with hs hm' he
    rw [toNat_append_implicit (n := 23)] at hm'
    have hexp255 : (unpackExponent b).toNat ≠ 255 := fun h => hone (BitVec.eq_of_toNat_eq h)
    have hfull : m.log2 + 1 = Format.binary32.mantissaBits := by
      have := (Nat.log2_lt hm.ne').mpr (show m < 2 ^ 24 by omega)
      have := (Nat.le_log2 hm.ne').mpr (show 2 ^ 23 ≤ m by omega)
      omega
    have hexponent : BitVec.ofNat 8 (e + 127 + 23).toNat = unpackExponent b := by
      apply BitVec.eq_of_toNat_eq
      rw [BitVec.toNat_ofNat]
      omega
    have hmantissa : BitVec.ofNat 23 m = unpackMantissa b := by
      apply BitVec.eq_of_toNat_eq
      rw [BitVec.toNat_ofNat]
      omega
    unfold pack
    dsimp only
    rw [hbias, if_neg (by omega), if_pos hfull, ← hs]
    exact (congrArg₂ _ hexponent hmantissa).trans hfields

/-- Packing a number does not make it larger. -/
theorem exponentWithin_pack {j : Int} {f : UnpackedFloat} (h : exponentWithin j f)
    (hlow : -149 ≤ j) (hhigh : j ≤ 104) :
    exponentWithin j (UnpackedFloat.unpack Format.binary32 (pack Format.binary32 f)) := by
  have hbias : (Format.binary32.exponentBias : Int) = 127 := rfl
  have hcomponents (s : Sign) {x : BitVec 8} (k : BitVec 23) (hx : x.toNat < 255)
      (hj : (x.toNat : Int) - 150 ≤ j) :
      exponentWithin j
        (UnpackedFloat.unpack Format.binary32 (packComponents Format.binary32 s x k)) := by
    have hone : x ≠ -1#8 := by
      rintro rfl
      exact absurd hx (by decide)
    unfold UnpackedFloat.unpack
    simp only [unpackMantissa_packComponents, unpackExponent_packComponents, hone, if_false, hbias]
    split_ifs with hzero hman
    · rfl
    · subst hzero
      exact decide_eq_true hlow
    · exact decide_eq_true (by omega)
  cases f with
  | zero s => exact hcomponents s 0#23 (by decide) (by simp; omega)
  | finite s m e hm =>
    have he : e ≤ j := of_decide_eq_true h
    have hexponent : (BitVec.ofNat 8 (e + 127 + (23 : Nat)).toNat).toNat = (e + 150).toNat := by
      rw [BitVec.toNat_ofNat]
      omega
    unfold pack
    dsimp only
    rw [hbias, if_neg (by omega)]
    split_ifs
    · exact hcomponents s _ (by omega) (by omega)
    · exact hcomponents s _ (by decide) (by simp; omega)
  | infinity s => cases h
  | notANumber => cases h

end Fields

/-! ## Rounding -/

theorem shiftRight_mantissa (m : ExtendedMantissa) (k : Nat) :
    (m >>> k).mantissa = m.mantissa / 2 ^ k := by
  change (k.repeat ExtendedMantissa.shiftRightOne m).mantissa = _
  induction k with
  | zero => rw [pow_zero, Nat.div_one]; rfl
  | succ k ih => rw [pow_succ, ← Nat.div_div_eq_div_mul, ← ih]; rfl

theorem roundedMantissa_le (m : ExtendedMantissa) : m.roundedMantissa ≤ m.mantissa + 1 := by
  obtain ⟨m, r, s⟩ := m
  have := Nat.mod_lt m (show 0 < 2 by decide)
  cases r <;> cases s <;>
    simp only [ExtendedMantissa.roundedMantissa, ExtendedMantissa.accuracy,
      Accuracy.roundToNearestEven] <;> omega

theorem ofMantissaAndAccuracy_mantissa (m : Nat) (accuracy : Accuracy) :
    (ExtendedMantissa.ofMantissaAndAccuracy m accuracy).mantissa = m := by
  rcases accuracy with _ | ⟨_ | _ | _⟩ <;> rfl

section Rounding

variable {m p : Nat} {e j : Int}

/-- A number less than `2 ^ (j + 24)` is rounded to multiples of `2 ^ j` at most. -/
theorem targetExponent_le (hm : m < 2 ^ p) (hp : p + e ≤ j + 24) (he : e ≤ j) (hlow : -149 ≤ j) :
    Format.binary32.targetExponent (totalExponent m e) ≤ j := by
  have hleast : Format.binary32.minExponent = -149 := rfl
  have hbits : Format.binary32.mantissaBits = 24 := rfl
  unfold Format.targetExponent totalExponent
  rw [hleast, hbits]
  by_cases hzero : m = 0
  · subst hzero
    rw [Nat.log2_zero]
    omega
  · have := (Nat.log2_lt hzero).mpr hm
    omega

theorem exponentWithin_roundWithAccuracy (s : Sign) (accuracy : Accuracy) (hm : m < 2 ^ p)
    (hp : p + e < j + 24) (he : e < j) (hlow : -149 < j) :
    exponentWithin j (roundWithAccuracy .binary32 s m e accuracy) := by
  have htarget := targetExponent_le (j := j - 1) (e := e) hm (by omega) (by omega) (by omega)
  unfold roundWithAccuracy shiftToTargetExponent shiftToExponent
  dsimp only
  -- the first shift drops `k` bits, and rounding adds one bit at most
  generalize hk : (Format.binary32.targetExponent (totalExponent m e) - e).toNat = k
  generalize hem : ExtendedMantissa.ofMantissaAndAccuracy m accuracy >>> k = em
  have hmantissa : em.mantissa < 2 ^ (p - k) := by
    have hsplit : 2 ^ p ≤ 2 ^ (p - k) * 2 ^ k := by
      rw [← pow_add]
      exact Nat.pow_le_pow_right (by decide) (by omega)
    rw [← hem, shiftRight_mantissa, ofMantissaAndAccuracy_mantissa,
      Nat.div_lt_iff_lt_mul (Nat.two_pow_pos k)]
    omega
  have hrounded : em.roundedMantissa < 2 ^ (p - k + 1) := by
    have := roundedMantissa_le em
    have := Nat.two_pow_pos (p - k)
    rw [pow_succ]
    omega
  have htarget' := targetExponent_le (j := j) (e := e + k) hrounded (by omega) (by omega)
    (by omega)
  split_ifs
  · rfl
  · exact decide_eq_true (by omega)

theorem shiftLeft_lt (hm : m < 2 ^ p) (k : Nat) : m <<< k < 2 ^ (p + k) := by
  rw [Nat.shiftLeft_eq, pow_add]
  exact Nat.mul_lt_mul_of_pos_right hm (Nat.two_pow_pos k)

theorem exponentWithin_normalize {m : Int} (zeroSign : Sign) (hm : m.natAbs < 2 ^ p)
    (hp : p + e < j + 24) (he : e < j) (hlow : -149 < j) :
    exponentWithin j (UnpackedFloat.normalize .binary32 m e zeroSign) := by
  have hround (s : Sign) {n : Nat} (hn : n < 2 ^ p) :
      exponentWithin j (UnpackedFloat.round .binary32 s n e) := by
    unfold UnpackedFloat.round decreaseExponent
    dsimp only
    generalize (e - Format.binary32.targetExponent (totalExponent n e)).toNat = k
    exact exponentWithin_roundWithAccuracy s .exact (shiftLeft_lt hn k) (by omega) (by omega) hlow
  unfold UnpackedFloat.normalize
  split
  · exact hround _ (by omega)
  · rfl
  · exact hround _ (by omega)

end Rounding

/-! ## Arithmetic -/

variable {x y z : Float32} {i j : Int}

theorem mul_eq_pack (x y : Float32) :
    x * y = .ofModel (.pack (UnpackedFloat.mul .binary32 x.toModel.unpack y.toModel.unpack)) := rfl

theorem div_eq_pack (x y : Float32) :
    x / y = .ofModel (.pack (UnpackedFloat.div .binary32 x.toModel.unpack y.toModel.unpack)) := rfl

theorem add_eq_pack (x y : Float32) :
    x + y = .ofModel (.pack (UnpackedFloat.add .binary32 x.toModel.unpack y.toModel.unpack)) := rfl

theorem sub_eq_pack (x y : Float32) :
    x - y = .ofModel (.pack (UnpackedFloat.sub .binary32 x.toModel.unpack y.toModel.unpack)) := rfl

theorem lt_iff_unpack (x y : Float32) :
    x < y ↔ UnpackedFloat.lt x.toModel.unpack y.toModel.unpack := by
  change (decide (UnpackedFloat.lt x.toModel.unpack y.toModel.unpack = true)) = true ↔ _
  rw [decide_eq_true_iff]

theorem le_iff_unpack (x y : Float32) :
    x ≤ y ↔ UnpackedFloat.le x.toModel.unpack y.toModel.unpack := by
  change (decide (UnpackedFloat.le x.toModel.unpack y.toModel.unpack = true)) = true ↔ _
  rw [decide_eq_true_iff]

theorem isZero_pack (s : Sign) : IsZero (.ofModel (.pack (.zero s))) := ⟨s, by cases s <;> rfl⟩

theorem IsZero.within (hz : IsZero z) (j : Int) : Within j z := by
  obtain ⟨s, hs⟩ := hz
  unfold Within
  rw [hs]
  rfl

theorem Within.zero_or_finite (hx : Within j x) :
    IsZero x ∨ ∃ s m e hm, x.toModel.unpack = .finite s m e hm ∧ m < 2 ^ 24 ∧ e ≤ j := by
  unfold Within at hx
  cases hunpack : x.toModel.unpack with
  | zero s => exact .inl ⟨s, hunpack⟩
  | finite s m e hm =>
    rw [hunpack] at hx
    exact .inr ⟨s, m, e, hm, rfl, mantissa_lt _ hunpack, of_decide_eq_true hx⟩
  | infinity s => rw [hunpack] at hx; cases hx
  | notANumber => rw [hunpack] at hx; cases hx

theorem Within.mono (hx : Within i x) (h : i ≤ j) : Within j x := by
  obtain hzero | ⟨s, m, e, hm, hs, -, he⟩ := hx.zero_or_finite
  · exact hzero.within j
  · unfold Within
    rw [hs]
    exact decide_eq_true (he.trans h)

theorem within_pack {f : UnpackedFloat} (h : exponentWithin j f) (hlow : -149 ≤ j)
    (hhigh : j ≤ 104) : Within j (.ofModel (.pack f)) := exponentWithin_pack h hlow hhigh

theorem IsZero.mul (hz : IsZero z) (hx : Within j x) : IsZero (z * x) := by
  obtain ⟨s, hs⟩ := hz
  rw [mul_eq_pack, hs]
  obtain ⟨t, ht⟩ | ⟨t, m, e, hm, ht, -, -⟩ := hx.zero_or_finite <;> rw [ht] <;>
    exact isZero_pack _

theorem Within.mul_isZero (hx : Within j x) (hz : IsZero z) : IsZero (x * z) := by
  obtain ⟨s, hs⟩ := hz
  rw [mul_eq_pack, hs]
  obtain ⟨t, ht⟩ | ⟨t, m, e, hm, ht, -, -⟩ := hx.zero_or_finite <;> rw [ht] <;>
    exact isZero_pack _

theorem IsZero.div (hz : IsZero z) (hy : AtLeast i y) : IsZero (z / y) := by
  obtain ⟨s, hs⟩ := hz
  obtain ⟨m, e, hm, ht, -⟩ := hy
  rw [div_eq_pack, hs, ht]
  exact isZero_pack _

theorem IsZero.sub (hx : IsZero x) (hy : IsZero y) : IsZero (x - y) := by
  obtain ⟨s, hs⟩ := hx
  obtain ⟨t, ht⟩ := hy
  rw [sub_eq_pack, hs, ht]
  cases s <;> cases t <;> exact isZero_pack _

/-- A zero added to a number other than zero changes nothing. -/
theorem IsZero.add (hz : IsZero z) (hx : Within j x) (hne : ¬ IsZero x) : x + z = x := by
  obtain ⟨s, hs⟩ := hz
  obtain ⟨t, m, e, hm, ht, -, -⟩ := hx.zero_or_finite.resolve_left hne
  have hbits : (Float32.Model.pack (.finite t m e hm)).toBits = x.toModel.toBits :=
    congrArg UInt32.ofBitVec (pack_unpack_single _ ht)
  rw [add_eq_pack, hs, ht]
  obtain ⟨⟨bits, valid⟩⟩ := x
  cases hbits
  rfl

theorem IsZero.add_isZero (hx : IsZero x) (hz : IsZero z) : IsZero (x + z) := by
  obtain ⟨s, hs⟩ := hx
  obtain ⟨t, ht⟩ := hz
  rw [add_eq_pack, hs, ht]
  cases s <;> cases t <;> exact isZero_pack _

theorem Within.mul {k : Int} (hx : Within i x) (hy : Within j y) (hk : i + j + 24 < k)
    (hlow : -149 < k) (hhigh : k ≤ 104) : Within k (x * y) := by
  obtain hzero | ⟨s, m, e, hm, hs, hlt, he⟩ := hx.zero_or_finite
  · exact (hzero.mul hy).within k
  obtain hzero | ⟨t, n, f, hn, ht, hlt', hf⟩ := hy.zero_or_finite
  · exact (hx.mul_isZero hzero).within k
  have hproduct : m * n < 2 ^ (24 + 24) := by
    rw [pow_add]
    exact Nat.mul_lt_mul'' hlt hlt'
  rw [mul_eq_pack, hs, ht]
  exact within_pack (exponentWithin_roundWithAccuracy _ .exact hproduct (by omega) (by omega) hlow)
    hlow.le hhigh

theorem Within.div {k : Int} (hx : Within j x) (hy : AtLeast i y) (hk : j - i < k)
    (hlow : -149 < k) (hhigh : k ≤ 104) : Within k (x / y) := by
  obtain hzero | ⟨s, m, e, hm, hs, hlt, he⟩ := hx.zero_or_finite
  · exact (hzero.div hy).within k
  obtain ⟨n, f, hn, ht, hf⟩ := hy
  rw [div_eq_pack, hs, ht]
  refine within_pack ?_ hlow.le hhigh
  unfold UnpackedFloat.div divCore
  dsimp only
  generalize hd : (e - f - min (e - f) _).toNat = d
  have hquotient : m <<< d / n < 2 ^ (24 + d) :=
    (Nat.div_le_self _ _).trans_lt (shiftLeft_lt hlt d)
  exact exponentWithin_roundWithAccuracy _ _ hquotient (by omega) (by omega) hlow

theorem Within.sub {k : Int} (hx : Within j x) (hy : Within j y) (hk : j + 1 < k) (hlow : -149 < k)
    (hhigh : k ≤ 104) : Within k (x - y) := by
  rw [sub_eq_pack]
  refine within_pack ?_ hlow.le hhigh
  obtain ⟨s, hs⟩ | ⟨s, m, e, hm, hs, hlt, he⟩ := hx.zero_or_finite <;>
    obtain ⟨t, ht⟩ | ⟨t, n, f, hn, ht, hlt', hf⟩ := hy.zero_or_finite <;> rw [hs, ht]
  · cases s <;> cases t <;> rfl
  · exact decide_eq_true (by omega)
  · exact decide_eq_true (by omega)
  · -- both mantissas are shifted to the smaller one of the exponents
    generalize hmin : min e f = g
    have hshifted {m : Nat} {e : Int} (hm : m < 2 ^ 24) (he : e ≤ j) :
        m <<< (e - g).toNat < 2 ^ (24 + (j - g).toNat) :=
      (shiftLeft_lt hm _).trans_le (Nat.pow_le_pow_right (by decide) (by omega))
    have hleft := hshifted hlt he
    have hright := hshifted hlt' hf
    unfold UnpackedFloat.sub decreaseExponent
    dsimp only
    rw [hmin]
    generalize m <<< (e - g).toNat = m' at hleft ⊢
    generalize n <<< (f - g).toNat = n' at hright ⊢
    have hdifference : (s.apply m' - t.apply n').natAbs < 2 ^ (24 + (j - g).toNat + 1) := by
      rw [pow_succ]
      cases s <;> cases t <;> simp only [Sign.apply] <;> omega
    exact exponentWithin_normalize .positive hdifference (by omega) (by omega) hlow

/-- The larger one of two numbers is positive if one of them is. -/
theorem Within.atLeast_larger (hx : Within j x) (hy : AtLeast i y) : AtLeast i (larger x y) := by
  obtain ⟨n, f, hn, ht, hf⟩ := hy
  unfold larger
  simp only [lt_iff_unpack]
  split_ifs with hnan hlt
  · exact ⟨n, f, hn, ht, hf⟩
  · exact ⟨n, f, hn, ht, hf⟩
  · rw [ht] at hlt
    obtain ⟨s, hs⟩ | ⟨s, m, e, hm, hs, -, -⟩ := hx.zero_or_finite <;> rw [hs] at hlt
    · exact absurd rfl hlt
    · cases s with
      | negative => exact absurd rfl hlt
      | positive =>
        refine ⟨m, e, hm, hs, hf.trans ?_⟩
        by_contra he
        have hless : compare e f = .lt := compare_lt_iff_lt.mpr (by omega)
        apply hlt
        simp only [UnpackedFloat.lt, UnpackedFloat.compare, hless]
        rfl

theorem IsZero.smaller (hx : IsZero x) (hy : IsZero y) : IsZero (smaller x y) := by
  unfold Scanline.smaller
  split_ifs <;> assumption

end Scanline
