import Scanline.Proofs.Numeric.Singles

/-
  Single floats that are natural numbers. A natural number below `2 ^ 24` has a single float of its
  own (`natSingle`), and arithmetic on such floats is exact as long as its results are of this kind,
  too: products, differences and quotients without a remainder are those of the numbers
  (`natSingle_mul`, `natSingle_sub`, `natSingle_div`), the order is theirs (`natSingle_lt_iff`), and
  they come back from their floats (`toUInt32_natSingle`). Of a quotient with a remainder,
  `atLeast_natSingle_div` says from below how large it is.
-/

namespace Scanline

open Float.Model (Format UnpackedFloat totalExponent)
open Float.Model.UnpackedFloat

/-! ## Mantissas of 24 bits -/

section Full

variable {m : Nat} {e : Int}

theorem log2_of_full (hlo : 2 ^ 23 ≤ m) (hhi : m < 2 ^ 24) : m.log2 = 23 :=
  (Nat.log2_eq_iff (by omega)).mpr ⟨hlo, hhi⟩

/-- A number with all bits of the format is kept by packing. -/
theorem unpack_pack_full (s : Sign) (hlo : 2 ^ 23 ≤ m) (hhi : m < 2 ^ 24) (hleast : -149 ≤ e)
    (hgreatest : e ≤ 104) (hm : 0 < m) :
    UnpackedFloat.unpack Format.binary32 (pack Format.binary32 (.finite s m e hm)) =
      .finite s m e hm := by
  have hbias : (Format.binary32.exponentBias : Int) = 127 := rfl
  have hbits : Format.binary32.mantissaBits = 24 := rfl
  have himplicit : Format.binary32.mantissaBitsWithoutImplicit = 23 := rfl
  generalize hx : (e + 127 + (23 : Nat)).toNat = x
  have hexp : (BitVec.ofNat 8 x).toNat = x := by
    rw [BitVec.toNat_ofNat]
    omega
  have hman : (BitVec.ofNat 23 m).toNat + 2 ^ 23 = m := by
    rw [BitVec.toNat_ofNat]
    omega
  have hne {y : BitVec 8} (h : x ≠ y.toNat) : BitVec.ofNat 8 x ≠ y := fun hy =>
    h (hexp.symm.trans (congrArg BitVec.toNat hy))
  unfold pack
  dsimp only
  rw [hbias, hbits, hx, if_neg (by omega), if_pos (by rw [log2_of_full hlo hhi])]
  refine unpack_packComponents_normal .binary32 s ?_ ?_ hman ?_ hm
  · exact hne (by simp; omega)
  · exact hne (by simp; omega)
  · rw [hexp, hbias, himplicit]
    omega

/-- Shifted to its exponent, a mantissa that is long enough has all bits of the format. -/
theorem shiftToTargetExponent_full (hm : 2 ^ 23 ≤ m) (he : -149 ≤ e) (accuracy : Accuracy) :
    ∃ em, shiftToTargetExponent Format.binary32 m e accuracy =
        (em, e + (m.log2 - 23 : Nat)) ∧
      2 ^ 23 ≤ em.mantissa ∧ em.mantissa < 2 ^ 24 := by
  have hlog : 23 ≤ m.log2 := (Nat.le_log2 (by omega)).mpr hm
  have hleast : Format.binary32.minExponent = -149 := rfl
  have hbits : Format.binary32.mantissaBits = 24 := rfl
  have hshift : (Format.binary32.targetExponent (totalExponent m e) - e).toNat = m.log2 - 23 := by
    unfold Format.targetExponent totalExponent
    rw [hleast, hbits]
    omega
  have hself := Nat.log2_self_le (n := m) (by omega)
  have hlt := Nat.lt_log2_self (n := m)
  generalize hk : m.log2 - 23 = k at *
  rw [show m.log2 = 23 + k by omega] at hself hlt
  rw [Nat.add_right_comm] at hlt
  unfold shiftToTargetExponent shiftToExponent
  dsimp only
  rw [hshift]
  refine ⟨_, rfl, ?_⟩
  rw [shiftRight_mantissa, ofMantissaAndAccuracy_mantissa,
    Nat.le_div_iff_mul_le (Nat.two_pow_pos k), Nat.div_lt_iff_lt_mul (Nat.two_pow_pos k), ← pow_add,
    ← pow_add]
  exact ⟨hself, hlt⟩

theorem le_roundedMantissa (em : ExtendedMantissa) : em.mantissa ≤ em.roundedMantissa := by
  obtain ⟨m, r, s⟩ := em
  cases r <;> cases s <;>
    simp only [ExtendedMantissa.roundedMantissa, ExtendedMantissa.accuracy,
      Accuracy.roundToNearestEven] <;> omega

/-- Rounding a mantissa that is long enough does not make the exponent smaller. -/
theorem atLeast_roundWithAccuracy {p : Nat} (hm : 2 ^ 23 ≤ m) (hp : m < 2 ^ p) (he : -149 ≤ e)
    (hhigh : p + e ≤ 127) (accuracy : Accuracy) :
    AtLeast e (.ofModel (.pack (roundWithAccuracy .binary32 .positive m e accuracy))) := by
  have hlog : m.log2 < p := (Nat.log2_lt (by omega)).mpr hp
  have hfull : 23 ≤ m.log2 := (Nat.le_log2 (by omega)).mpr hm
  obtain ⟨em, hfirst, hlo, hhi⟩ := shiftToTargetExponent_full hm he accuracy
  have hrounded := le_roundedMantissa em
  have hrounded' := roundedMantissa_le em
  obtain ⟨em', hsecond, hlo', hhi'⟩ := shiftToTargetExponent_full (m := em.roundedMantissa)
    (e := e + (m.log2 - 23 : Nat)) (by omega) (by omega) .exact
  have hpos : 0 < em'.mantissa := by omega
  -- rounding up to the next power of two takes one more bit at most
  have hlog' : em.roundedMantissa.log2 < 25 := (Nat.log2_lt (by omega)).mpr (by omega)
  have hround : roundWithAccuracy .binary32 .positive m e accuracy =
      .finite .positive em'.mantissa
        (e + (m.log2 - 23 : Nat) + (em.roundedMantissa.log2 - 23 : Nat)) hpos := by
    unfold roundWithAccuracy
    rw [hfirst]
    dsimp only
    rw [hsecond]
    exact dif_neg hpos.ne'
  rw [hround]
  exact ⟨_, _, hpos, unpack_pack_full .positive hlo' hhi' (by omega) (by omega) hpos, by omega⟩

end Full

/-! ## The float of a number -/

/-- How far a number is shifted to have 24 bits. -/
def fullShift (n : Nat) : Nat := 23 - n.log2

/-- The single float of a number below `2 ^ 24`, taken apart. -/
def natural (n : Nat) : UnpackedFloat :=
  if h : 0 < n then
    .finite .positive (n * 2 ^ fullShift n) (-fullShift n) (Nat.mul_pos h (Nat.two_pow_pos _))
  else .zero .positive

section Natural

variable {n : Nat}

theorem natural_of_pos (h : 0 < n) :
    natural n = .finite .positive (n * 2 ^ fullShift n) (-fullShift n)
      (Nat.mul_pos h (Nat.two_pow_pos _)) := dif_pos h

theorem log2_add_fullShift (hn : n < 2 ^ 24) : n.log2 + fullShift n = 23 := by
  have hlog : n.log2 < 24 := by
    by_cases h : n = 0
    · subst h
      decide
    · exact (Nat.log2_lt h).mpr hn
  unfold fullShift
  omega

theorem two_pow_le_shifted (h : 0 < n) (hn : n < 2 ^ 24) : 2 ^ 23 ≤ n * 2 ^ fullShift n := by
  have hlog := log2_add_fullShift hn
  have hself := Nat.mul_le_mul_right (2 ^ fullShift n) (Nat.log2_self_le h.ne')
  rwa [← pow_add, hlog] at hself

theorem shifted_lt_two_pow (hn : n < 2 ^ 24) : n * 2 ^ fullShift n < 2 ^ 24 := by
  have hlog := log2_add_fullShift hn
  have hself := Nat.mul_lt_mul_of_pos_right (k := 2 ^ fullShift n) (Nat.lt_log2_self (n := n))
    (Nat.two_pow_pos _)
  rwa [← pow_add, show n.log2 + 1 + fullShift n = 24 by omega] at hself

/-- With 24 bits a number has the exponent that the format asks for. -/
theorem targetExponent_shifted (h : 0 < n) (hn : n < 2 ^ 24) :
    Format.binary32.targetExponent (totalExponent (n * 2 ^ fullShift n) (-fullShift n)) =
      -fullShift n := by
  have hlog := log2_add_fullShift hn
  have hleast : Format.binary32.minExponent = -149 := rfl
  have hbits : Format.binary32.mantissaBits = 24 := rfl
  unfold Format.targetExponent totalExponent
  rw [hleast, hbits, log2_mul_two_pow h]
  omega

/-- A number with at least as many bits as the format has is not rounded. -/
theorem roundWithAccuracy_natural (h : 0 < n) (hn : n < 2 ^ 24) {k : Nat} (hk : fullShift n ≤ k) :
    roundWithAccuracy .binary32 .positive (n * 2 ^ k) (-k) .exact = natural n := by
  have hround := roundWithAccuracy_canonical (Nat.mul_pos h (Nat.two_pow_pos _))
    (targetExponent_shifted h hn) .positive (k - fullShift n)
  have hmantissa : n * 2 ^ fullShift n * 2 ^ (k - fullShift n) = n * 2 ^ k := by
    rw [Nat.mul_assoc, ← pow_add, Nat.add_sub_cancel' hk]
  have hexponent : -(fullShift n : Int) - (k - fullShift n : Nat) = -k := by omega
  rw [hmantissa, hexponent] at hround
  rw [natural_of_pos h, hround]

/-- A number is not rounded, whatever the exponent that it is given with. -/
theorem round_natural (h : 0 < n) (hn : n < 2 ^ 24) (k : Nat) :
    UnpackedFloat.round .binary32 .positive (n * 2 ^ k) (-k) = natural n := by
  have hlog := log2_add_fullShift hn
  have hleast : Format.binary32.minExponent = -149 := rfl
  have hbits : Format.binary32.mantissaBits = 24 := rfl
  have htarget : Format.binary32.targetExponent (totalExponent (n * 2 ^ k) (-k)) = -fullShift n := by
    unfold Format.targetExponent totalExponent
    rw [hleast, hbits, log2_mul_two_pow h]
    omega
  unfold UnpackedFloat.round decreaseExponent
  rw [htarget]
  dsimp only
  generalize ht : (-(k : Int) - -(fullShift n : Int)).toNat = t
  have hexponent : -(k : Int) - t = -((k + t : Nat) : Int) := by omega
  rw [Nat.shiftLeft_eq, Nat.mul_assoc, ← pow_add, hexponent]
  exact roundWithAccuracy_natural h hn (by omega)

theorem normalize_natural (hn : n < 2 ^ 24) (k : Nat) :
    UnpackedFloat.normalize .binary32 ((n * 2 ^ k : Nat) : Int) (-k) .positive = natural n := by
  unfold UnpackedFloat.normalize
  obtain rfl | h := n.eq_zero_or_pos
  · rw [Nat.zero_mul]
    rfl
  · have hpos : 0 < n * 2 ^ k := Nat.mul_pos h (Nat.two_pow_pos k)
    rw [Int.compare_eq_gt.mpr (by omega)]
    exact round_natural h hn k

theorem unpack_pack_natural (hn : n < 2 ^ 24) :
    UnpackedFloat.unpack Format.binary32 (pack Format.binary32 (natural n)) = natural n := by
  obtain rfl | h := n.eq_zero_or_pos
  · rfl
  · have hshift : fullShift n ≤ 23 := Nat.sub_le _ _
    rw [natural_of_pos h]
    exact unpack_pack_full _ (two_pow_le_shifted h hn) (shifted_lt_two_pow hn) (by omega)
      (by omega) _

end Natural

/-- The single float of a number below `2 ^ 24`. -/
def natSingle (n : Nat) : Float32 := .ofModel (.pack (natural n))

variable {a b n : Nat}

theorem unpack_natSingle (hn : n < 2 ^ 24) : (natSingle n).toModel.unpack = natural n :=
  unpack_pack_natural hn

/-! ## Arithmetic -/

theorem natSingle_mul (ha : a < 2 ^ 24) (hb : b < 2 ^ 24) (hab : a * b < 2 ^ 24) :
    natSingle a * natSingle b = natSingle (a * b) := by
  rw [mul_eq_pack, unpack_natSingle ha, unpack_natSingle hb, natSingle]
  congr 2
  obtain rfl | ha0 := a.eq_zero_or_pos
  · obtain rfl | hb0 := b.eq_zero_or_pos
    · rfl
    · rw [Nat.zero_mul, natural_of_pos hb0]
      rfl
  obtain rfl | hb0 := b.eq_zero_or_pos
  · rw [Nat.mul_zero, natural_of_pos ha0]
    rfl
  have hpos := Nat.mul_pos ha0 hb0
  have hproduct : a * 2 ^ fullShift a * (b * 2 ^ fullShift b) =
      a * b * 2 ^ (fullShift a + fullShift b) := by ring
  have hexponent : -(fullShift a : Int) + -(fullShift b : Int) =
      -((fullShift a + fullShift b : Nat) : Int) := by omega
  have hshift : fullShift (a * b) ≤ fullShift a + fullShift b := by
    have hle : a.log2 + b.log2 ≤ (a * b).log2 := by
      rw [Nat.le_log2 hpos.ne', pow_add]
      exact Nat.mul_le_mul (Nat.log2_self_le ha0.ne') (Nat.log2_self_le hb0.ne')
    have := log2_add_fullShift ha
    have := log2_add_fullShift hb
    have := log2_add_fullShift hab
    omega
  rw [natural_of_pos ha0, natural_of_pos hb0, ← roundWithAccuracy_natural hpos hab hshift,
    ← hproduct, ← hexponent]
  rfl

theorem natSingle_sub (ha : a < 2 ^ 24) (hba : b ≤ a) :
    natSingle a - natSingle b = natSingle (a - b) := by
  rw [sub_eq_pack, unpack_natSingle ha, unpack_natSingle (hba.trans_lt ha), natSingle]
  congr 2
  obtain rfl | hb0 := b.eq_zero_or_pos
  · obtain rfl | ha0 := a.eq_zero_or_pos
    · rfl
    · rw [Nat.sub_zero, natural_of_pos ha0]
      rfl
  have ha0 := hb0.trans_le hba
  rw [natural_of_pos ha0, natural_of_pos hb0]
  unfold UnpackedFloat.sub decreaseExponent
  dsimp only
  generalize hk : max (fullShift a) (fullShift b) = k
  have hmin : min (-(fullShift a : Int)) (-fullShift b) = -k := by omega
  -- both mantissas are shifted to stand for multiples of `2 ^ -k`
  have hshifted (c : Nat) (hc : fullShift c ≤ k) :
      (c * 2 ^ fullShift c) <<< (-(fullShift c : Int) - -k).toNat = c * 2 ^ k := by
    have hsum : fullShift c + (-(fullShift c : Int) - -k).toNat = k := by omega
    rw [Nat.shiftLeft_eq, Nat.mul_assoc, ← pow_add, hsum]
  have hdifference : ((a * 2 ^ k : Nat) : Int) - (b * 2 ^ k : Nat) = ((a - b) * 2 ^ k : Nat) := by
    have := Nat.mul_le_mul_right (2 ^ k) hba
    rw [Nat.sub_mul]
    omega
  rw [hmin, hshifted a (by omega), hshifted b (by omega), ← normalize_natural (by omega) k,
    ← hdifference]
  rfl

/-- A quotient without a remainder is exact. -/
theorem natSingle_div (hab : a * b < 2 ^ 24) (hb0 : 0 < b) (hb : b < 2 ^ 24) :
    natSingle (a * b) / natSingle b = natSingle a := by
  have ha := (Nat.le_mul_of_pos_right a hb0).trans_lt hab
  rw [div_eq_pack, unpack_natSingle hab, unpack_natSingle hb, natSingle]
  congr 2
  obtain rfl | ha0 := a.eq_zero_or_pos
  · rw [Nat.zero_mul, natural_of_pos hb0]
    rfl
  have hpos := Nat.mul_pos ha0 hb0
  have hlog : (a * b).log2 ≤ a.log2 + b.log2 + 1 := by
    have hlt := Nat.mul_lt_mul'' (Nat.lt_log2_self (n := a)) (Nat.lt_log2_self (n := b))
    rw [← pow_add, ← Nat.log2_lt hpos.ne'] at hlt
    omega
  have hfa := log2_add_fullShift ha
  have hfb := log2_add_fullShift hb
  have hfab := log2_add_fullShift hab
  have hleast : Format.binary32.minExponent = -149 := rfl
  have hbits : Format.binary32.mantissaBits = 24 := rfl
  rw [natural_of_pos hpos, natural_of_pos hb0]
  unfold UnpackedFloat.div divCore Format.targetExponent totalExponent
  dsimp only
  rw [log2_mul_two_pow hpos, log2_mul_two_pow hb0, hleast, hbits]
  -- the quotient is a multiple of `2 ^ -k`, with room for all bits of `a`
  generalize hmin : min (-(fullShift (a * b) : Int) - -(fullShift b : Int)) _ = e
  obtain ⟨k, rfl⟩ : ∃ k : Nat, e = -k := ⟨(-e).toNat, by omega⟩
  generalize ht : (-(fullShift (a * b) : Int) - -(fullShift b : Int) - -k).toNat = t
  have hdividend : (a * b * 2 ^ fullShift (a * b)) <<< t = a * 2 ^ k * (b * 2 ^ fullShift b) := by
    have hsum : fullShift (a * b) + t = k + fullShift b := by omega
    rw [Nat.shiftLeft_eq, Nat.mul_assoc (a * b), ← pow_add, hsum, pow_add]
    ring
  have hdivisor : 0 < b * 2 ^ fullShift b := Nat.mul_pos hb0 (Nat.two_pow_pos _)
  rw [hdividend, Nat.mul_div_cancel _ hdivisor, Nat.mul_mod_left,
    ← roundWithAccuracy_natural ha0 ha (k := k) (by omega)]
  rfl

/-- A quotient is at least as large as the exponents of the two numbers say. -/
theorem atLeast_natSingle_div {y : Float32} {d : Nat} {f : Int} {hd : 0 < d} (h : 0 < n)
    (hn : n < 2 ^ 24) (hy : y.toModel.unpack = .finite .positive d f hd) (hlo : 2 ^ 23 ≤ d)
    (hhi : d < 2 ^ 24) (hleast : -50 ≤ f) (hgreatest : f ≤ 50) :
    AtLeast (n.log2 - 47 - f) (natSingle n / y) := by
  have hlog := log2_add_fullShift hn
  have hleast' : Format.binary32.minExponent = -149 := rfl
  have hbits : Format.binary32.mantissaBits = 24 := rfl
  have hlo' := two_pow_le_shifted h hn
  have hhi' := shifted_lt_two_pow hn
  rw [div_eq_pack, unpack_natSingle hn, natural_of_pos h, hy]
  unfold UnpackedFloat.div divCore Format.targetExponent totalExponent
  dsimp only
  rw [log2_mul_two_pow h, log2_of_full hlo hhi, hleast', hbits]
  generalize hmin : min (-(fullShift n : Int) - f) _ = e
  obtain rfl : e = n.log2 - 47 - f := by omega
  have hshift : (-(fullShift n : Int) - f - (n.log2 - 47 - f)).toNat = 24 := by omega
  rw [hshift, Nat.shiftLeft_eq]
  generalize n * 2 ^ fullShift n = m at hlo' hhi' ⊢
  have hquotient : 2 ^ 23 ≤ m * 2 ^ 24 / d := (Nat.le_div_iff_mul_le hd).mpr (by omega)
  have hquotient' : m * 2 ^ 24 / d < 2 ^ 26 := (Nat.div_lt_iff_lt_mul hd).mpr (by omega)
  exact atLeast_roundWithAccuracy hquotient hquotient' (by omega) (by omega) _

theorem isNaN_natSingle (hn : n < 2 ^ 24) : (natSingle n).isNaN = false := by
  have hnan : (natSingle n).isNaN = (natSingle n).toModel.unpack.isNaN := rfl
  rw [hnan, unpack_natSingle hn]
  unfold natural
  split <;> rfl

/-! ## Order -/

theorem lt_finite_iff {m m' : Nat} {e e' : Int} {hm : 0 < m} {hm' : 0 < m'} :
    UnpackedFloat.lt (.finite .positive m e hm) (.finite .positive m' e' hm') = true ↔
      e < e' ∨ e = e' ∧ m < m' := by
  simp only [UnpackedFloat.lt, UnpackedFloat.compare]
  obtain h | rfl | h := lt_trichotomy e e'
  · rw [compare_lt_iff_lt.mpr h]
    exact iff_of_true rfl (.inl h)
  · rw [compare_eq_iff_eq.mpr rfl]
    simp [Ordering.then, compare_lt_iff_lt]
  · rw [compare_gt_iff_gt.mpr h]
    exact iff_of_false Bool.false_ne_true (by omega)

theorem natSingle_lt_iff (ha : a < 2 ^ 24) (hb : b < 2 ^ 24) :
    natSingle a < natSingle b ↔ a < b := by
  rw [lt_iff_unpack, unpack_natSingle ha, unpack_natSingle hb]
  obtain rfl | hb0 := b.eq_zero_or_pos
  · obtain rfl | ha0 := a.eq_zero_or_pos
    · exact iff_of_false nofun (by omega)
    · rw [natural_of_pos ha0]
      exact iff_of_false nofun (by omega)
  obtain rfl | ha0 := a.eq_zero_or_pos
  · rw [natural_of_pos hb0]
    exact iff_of_true rfl hb0
  have hfa := log2_add_fullShift ha
  have hfb := log2_add_fullShift hb
  rw [natural_of_pos ha0, natural_of_pos hb0, lt_finite_iff]
  obtain h | h | h := lt_trichotomy a.log2 b.log2
  · have hab := (Nat.log2_lt ha0.ne').mp h
    have hself := Nat.log2_self_le hb0.ne'
    exact iff_of_true (.inl (by omega)) (by omega)
  · have hshift : fullShift a = fullShift b := by omega
    rw [hshift]
    simp
  · have hba := (Nat.log2_lt hb0.ne').mp h
    have hself := Nat.log2_self_le ha0.ne'
    exact iff_of_false (by omega) (by omega)

/-- A float with a larger exponent than the number is larger. -/
theorem natSingle_lt_of_atLeast {x : Float32} {i : Int} (hn : n < 2 ^ 24) (hx : AtLeast i x)
    (hi : n.log2 < i + 23) : natSingle n < x := by
  obtain ⟨m, e, hm, hunpack, he⟩ := hx
  have hlog := log2_add_fullShift hn
  rw [lt_iff_unpack, unpack_natSingle hn, hunpack]
  obtain rfl | h := n.eq_zero_or_pos
  · rfl
  · rw [natural_of_pos h, lt_finite_iff]
    exact .inl (by omega)

theorem smaller_natSingle (ha : a < 2 ^ 24) (hb : b < 2 ^ 24) :
    smaller (natSingle a) (natSingle b) = natSingle (min a b) := by
  unfold smaller
  rw [isNaN_natSingle ha, if_neg (by decide)]
  simp only [natSingle_lt_iff hb ha]
  split_ifs with h
  · rw [Nat.min_eq_right h.le]
  · rw [Nat.min_eq_left (by omega)]

/-! ## Conversion -/

theorem toUInt32_natSingle (hn : n < 2 ^ 24) : (natSingle n).toUInt32.toNat = n := by
  have hconversion : (natSingle n).toUInt32 = (natSingle n).toModel.unpack.toUInt32 := rfl
  rw [hconversion, unpack_natSingle hn]
  obtain rfl | h := n.eq_zero_or_pos
  · rfl
  rw [natural_of_pos h]
  unfold UnpackedFloat.toUInt32 UnpackedFloat.toInt roundToInt decreaseExponent shiftToExponent
  dsimp only
  have hkept : (-(fullShift n : Int) - 0).toNat = 0 := by omega
  have hdropped : (0 - (-(fullShift n : Int) - (0 : Nat))).toNat = fullShift n := by omega
  rw [hkept, hdropped, Nat.shiftLeft_zero, shiftRight_exact]
  exact UInt32.toNat_ofNatClamp_of_lt (n := n) (by rw [UInt32.size]; omega)

theorem toFloat32_eq_natSingle (hn : n < 2 ^ 24) : n.toUInt64.toFloat32 = natSingle n := by
  have hword : n.toUInt64.toNat = n := by
    simp
    omega
  have hnormal := normalize_natural hn 0
  have hconversion : n.toUInt64.toFloat32 =
    .ofModel (.pack (UnpackedFloat.normalize .binary32 (n.toUInt64.toNat : Int) 0 .positive)) := rfl
  rw [hconversion, hword, natSingle, ← hnormal]
  simp

/-- A number below `2 ^ 24` becomes its float. -/
theorem ofNat_eq_natSingle (hn : n < 2 ^ 24) : Float32.ofNat n = natSingle n := by
  have hscientific : Float32.ofNat n = Float32.ofScientific n false 0 := rfl
  rw [hscientific]
  unfold Float32.ofScientific
  split
  · have hone : Float32.ofBits 0x3F800000 = natSingle 1 := rfl
    have hproduct := natSingle_mul (a := n) (b := 1) hn (by decide) (by omega)
    rw [Nat.mul_one] at hproduct
    rw [if_neg (by decide), toFloat32_eq_natSingle hn]
    exact (congrArg (natSingle n * ·) hone).trans hproduct
  · rename_i hlarge
    have h : 0 < n := by omega
    have hround := roundWithAccuracy_natural h hn (k := 24) ((Nat.sub_le _ _).trans (by decide))
    have hmodel : UnpackedFloat.ofScientific .binary32 n 0 = natural n := by
      have hsmall : ¬ (0 : Int) < -((2 ^ Format.binary32.exponentBits : Int) + n.log2) := by
        have hpow : (2 : Int) ^ Format.binary32.exponentBits = 256 := rfl
        rw [hpow]
        omega
      unfold UnpackedFloat.ofScientific
      rw [dif_neg h.ne', if_neg (by decide), if_neg hsmall, if_pos (by decide), ← hround]
      simp only [UnpackedFloat.mul, Nat.shiftLeft_eq, Int.toNat_zero, pow_zero, Nat.mul_one,
        Int.add_zero]
      rfl
    exact congrArg (fun f => Float32.ofModel (.pack f)) hmodel

end Scanline
