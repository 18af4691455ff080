import Scanline.Numeric.Remainder
import Scanline.Proofs.Numeric.Doubles

/-
  Doubles as integers. Every finite double is a whole number of units of `2^-1074`, so that
  comparison, the remainder, a multiplication by a power of two and rounding down are operations
  on integers. A NaN and the infinities have no units.
-/

namespace Scanline

open Float.Model (Format UnpackedFloat totalExponent)
open Float.Model.UnpackedFloat

/-- How many units are in `2^e`. -/
@[irreducible]
def unitsIn (e : Int) : Nat := 2 ^ (e + 1074).toNat

theorem unitsIn_pos (e : Int) : 0 < unitsIn e := by
  unfold unitsIn
  positivity

theorem unitsIn_add {e : Int} (he : -1074 ≤ e) (k : Nat) : unitsIn (e + k) = unitsIn e * 2 ^ k := by
  have hexp : (e + k + 1074).toNat = (e + 1074).toNat + k := by omega
  unfold unitsIn
  rw [hexp, pow_add]

/-- A larger mantissa makes up for a smaller exponent. -/
theorem mul_two_pow_unitsIn (m : Nat) {e : Int} {k : Nat} (h : -1074 ≤ e - k) :
    m * 2 ^ k * unitsIn (e - k) = m * unitsIn e := by
  have hsum := unitsIn_add h k
  rw [Int.sub_add_cancel] at hsum
  rw [hsum, Nat.mul_assoc, Nat.mul_comm (2 ^ k)]

theorem mul_unitsIn_lower (m : Nat) {d e : Int} (hd : -1074 ≤ d) (hde : d ≤ e) :
    m * 2 ^ (e - d).toNat * unitsIn d = m * unitsIn e := by
  obtain ⟨k, rfl⟩ : ∃ k : Nat, d = e - k := ⟨(e - d).toNat, by omega⟩
  have hk : (e - (e - k)).toNat = k := by omega
  rw [hk, mul_two_pow_unitsIn m hd]

/-- A number counted in units. -/
def FloatValue.units? : FloatValue → Option Int
  | finite negative m e =>
    some (if negative then (-(m * unitsIn e : Nat) : Int) else (m * unitsIn e : Nat))
  | _ => none

theorem FloatValue.units?_finite (negative : Bool) (m : Nat) (e : Int) :
    (finite negative m e).units? =
      some (if negative then (-(m * unitsIn e : Nat) : Int) else (m * unitsIn e : Nat)) :=
  rfl

/-- A double counted in units. -/
def units? (x : Float) : Option Int := (FloatValue.ofFloat x).units?

theorem units?_eq (x : Float) : units? x = (FloatValue.ofUnpacked x.toModel.unpack).units? := by
  rw [units?, ofFloat_eq_ofUnpacked]

theorem units?_ofUnpacked_zero (s : Sign) : (FloatValue.ofUnpacked (.zero s)).units? = some 0 := by
  cases s <;> simp [FloatValue.ofUnpacked, FloatValue.units?]

theorem units?_ofUnpacked_finite (s : Sign) (m : Nat) (e : Int) (hm : 0 < m) :
    (FloatValue.ofUnpacked (.finite s m e hm)).units? = some (s.apply (m * unitsIn e : Nat)) := by
  cases s <;> rfl

theorem units?_pack_infinity (s : Sign) : units? (.ofModel (.pack (.infinity s))) = none := by
  rw [units?, ofFloat_pack _ (by intro s m e hm h; cases h)]
  rfl

theorem units?_pack_notANumber : units? (.ofModel (.pack .notANumber)) = none := by
  rw [units?, ofFloat_pack _ (by intro s m e hm h; cases h)]
  rfl

theorem units?_pack_zero (s : Sign) : units? (.ofModel (.pack (.zero s))) = some 0 := by
  rw [units?, ofFloat_pack _ (by intro s m e hm h; cases h), units?_ofUnpacked_zero]

theorem units?_pack_finite {m : Nat} {e : Int} (s : Sign) (h : IsDouble m e) :
    units? (.ofModel (.pack (.finite s m e h.pos))) = some (s.apply (m * unitsIn e : Nat)) := by
  rw [units?, ofFloat_pack _ (by intro s m e hm h'; cases h'; exact h), units?_ofUnpacked_finite]

theorem units?_neg (x : Float) : units? (-x) = (units? x).map (- ·) := by
  rw [units?_eq x]
  change units? (.ofModel (.pack x.toModel.unpack.neg)) = _
  cases hx : x.toModel.unpack with
  | infinity s => exact units?_pack_infinity (-s)
  | notANumber => exact units?_pack_notANumber
  | zero s =>
    rw [units?_ofUnpacked_zero]
    exact units?_pack_zero (-s)
  | finite s m e hm =>
    rw [units?_ofUnpacked_finite]
    refine (units?_pack_finite (-s) (isDouble_of_unpack hx)).trans ?_
    cases s with
    | negative => exact congrArg some (Int.neg_neg _).symm
    | positive => rfl

/-- What has units is zero or a double. -/
theorem unpack_of_units {x : Float} {u : Int} (h : units? x = some u) :
    (∃ s, x.toModel.unpack = .zero s ∧ u = 0) ∨
      ∃ s m e, ∃ hm : IsDouble m e,
        x.toModel.unpack = .finite s m e hm.pos ∧ u = s.apply (m * unitsIn e : Nat) := by
  rw [units?_eq] at h
  cases hx : x.toModel.unpack with
  | infinity s => rw [hx] at h; cases h
  | notANumber => rw [hx] at h; cases h
  | zero s =>
    rw [hx, units?_ofUnpacked_zero] at h
    exact .inl ⟨s, rfl, (Option.some.inj h).symm⟩
  | finite s m e hm =>
    rw [hx, units?_ofUnpacked_finite] at h
    exact .inr ⟨s, m, e, isDouble_of_unpack hx, rfl, (Option.some.inj h).symm⟩

section Comparison

theorem compare_natCast (a b : Nat) : compare (a : Int) (b : Int) = compare a b := by
  rcases lt_trichotomy a b with h | h | h
  · rw [compare_lt_iff_lt.mpr h, compare_lt_iff_lt.mpr (Int.ofNat_lt.mpr h)]
  · rw [h, compare_eq_iff_eq.mpr rfl, compare_eq_iff_eq.mpr rfl]
  · rw [compare_gt_iff_gt.mpr h, compare_gt_iff_gt.mpr (Int.ofNat_lt.mpr h)]

theorem compare_neg_neg (a b : Int) : compare (-a) (-b) = compare b a := by
  rcases lt_trichotomy b a with h | h | h
  · rw [compare_lt_iff_lt.mpr h, compare_lt_iff_lt.mpr (Int.neg_lt_neg h)]
  · rw [h, compare_eq_iff_eq.mpr rfl, compare_eq_iff_eq.mpr rfl]
  · rw [compare_gt_iff_gt.mpr h, compare_gt_iff_gt.mpr (Int.neg_lt_neg h)]

/-- Of two doubles the one with the larger exponent is the larger one. -/
theorem units_lt_of_exponent_lt {m n : Nat} {d e : Int} (hm : IsDouble m d) (hn : IsDouble n e)
    (h : d < e) : m * unitsIn d < n * unitsIn e := by
  have hfull : 2 ^ 52 ≤ n := hn.full.resolve_right (by have := hm.least; omega)
  obtain ⟨k, hk⟩ : ∃ k : Nat, e = d + 1 + k := ⟨(e - (d + 1)).toNat, by omega⟩
  have hpow : unitsIn e = unitsIn d * 2 * 2 ^ k := by
    rw [hk, unitsIn_add (by have := hm.least; omega)]
    congr 1
    exact unitsIn_add hm.least 1
  calc m * unitsIn d < 2 ^ 53 * unitsIn d := Nat.mul_lt_mul_of_pos_right hm.lt (unitsIn_pos d)
    _ = 2 ^ 52 * (unitsIn d * 2) := by ring
    _ ≤ n * (unitsIn d * 2 * 2 ^ k) :=
      Nat.mul_le_mul hfull (Nat.le_mul_of_pos_right _ (Nat.two_pow_pos k))
    _ = n * unitsIn e := by rw [hpow]

theorem compare_magnitude {m n : Nat} {d e : Int} (hm : IsDouble m d) (hn : IsDouble n e) :
    (compare d e).then (compare m n) = compare (m * unitsIn d) (n * unitsIn e) := by
  rcases lt_trichotomy d e with h | h | h
  · rw [compare_lt_iff_lt.mpr h, compare_lt_iff_lt.mpr (units_lt_of_exponent_lt hm hn h)]
    rfl
  · subst h
    have hpos : 0 < unitsIn d := unitsIn_pos d
    rw [compare_eq_iff_eq.mpr rfl]
    change compare m n = _
    rcases lt_trichotomy m n with hmn | hmn | hmn
    · rw [compare_lt_iff_lt.mpr hmn, compare_lt_iff_lt.mpr (Nat.mul_lt_mul_of_pos_right hmn hpos)]
    · rw [hmn, compare_eq_iff_eq.mpr rfl, compare_eq_iff_eq.mpr rfl]
    · rw [compare_gt_iff_gt.mpr hmn, compare_gt_iff_gt.mpr (Nat.mul_lt_mul_of_pos_right hmn hpos)]
  · rw [compare_gt_iff_gt.mpr h, compare_gt_iff_gt.mpr (units_lt_of_exponent_lt hn hm h)]
    rfl

/-- Doubles compare as their units do. -/
theorem compare_units {x y : Float} {u v : Int} (hu : units? x = some u) (hv : units? y = some v) :
    x.toModel.unpack.compare y.toModel.unpack = some (compare u v) := by
  obtain ⟨s, hx, rfl⟩ | ⟨s, m, d, hm, hx, rfl⟩ := unpack_of_units hu <;>
    obtain ⟨t, hy, rfl⟩ | ⟨t, n, e, hn, hy, rfl⟩ := unpack_of_units hv <;> rw [hx, hy]
  · rfl
  · have hpos : (0 : Int) < (n * unitsIn e : Nat) := by
      exact_mod_cast Nat.mul_pos hn.pos (unitsIn_pos e)
    cases t with
    | negative => exact congrArg some (compare_gt_iff_gt.mpr (Int.neg_neg_of_pos hpos)).symm
    | positive => exact congrArg some (compare_lt_iff_lt.mpr hpos).symm
  · have hpos : (0 : Int) < (m * unitsIn d : Nat) := by
      exact_mod_cast Nat.mul_pos hm.pos (unitsIn_pos d)
    cases s with
    | negative => exact congrArg some (compare_lt_iff_lt.mpr (Int.neg_neg_of_pos hpos)).symm
    | positive => exact congrArg some (compare_gt_iff_gt.mpr hpos).symm
  · have hmpos : 0 < m * unitsIn d := Nat.mul_pos hm.pos (unitsIn_pos d)
    have hnpos : 0 < n * unitsIn e := Nat.mul_pos hn.pos (unitsIn_pos e)
    have hmagnitude := compare_magnitude hm hn
    generalize m * unitsIn d = a at *
    generalize n * unitsIn e = b at *
    cases s <;> cases t
    · change some ((compare d e).then (compare m n)).swap = some (compare (-(a : Int)) (-(b : Int)))
      rw [hmagnitude, Nat.compare_swap, ← compare_natCast, compare_neg_neg]
    · exact congrArg some (compare_lt_iff_lt.mpr (show -(a : Int) < b by omega)).symm
    · exact congrArg some (compare_gt_iff_gt.mpr (show -(b : Int) < a by omega)).symm
    · change some ((compare d e).then (compare m n)) = some (compare (a : Int) (b : Int))
      rw [hmagnitude, compare_natCast]

theorem lt_iff_compare (x y : Float) :
    x < y ↔ x.toModel.unpack.compare y.toModel.unpack = some .lt := by
  change decide ((x.toModel.unpack.compare y.toModel.unpack == some .lt) = true) = true ↔ _
  rw [decide_eq_true_iff, beq_iff_eq]

theorem le_iff_compare (x y : Float) :
    x ≤ y ↔ (x.toModel.unpack.compare y.toModel.unpack).any (·.isLE) = true := by
  change decide ((x.toModel.unpack.compare y.toModel.unpack).any (·.isLE) = true) = true ↔ _
  rw [decide_eq_true_iff]

theorem lt_iff_units {x y : Float} {u v : Int} (hu : units? x = some u) (hv : units? y = some v) :
    x < y ↔ u < v := by
  rw [lt_iff_compare, compare_units hu hv, Option.some.injEq, compare_lt_iff_lt]

theorem le_iff_units {x y : Float} {u v : Int} (hu : units? x = some u) (hv : units? y = some v) :
    x ≤ y ↔ u ≤ v := by
  rw [le_iff_compare, compare_units hu hv, Option.any_some, Int.isLE_compare]

end Comparison

section Scaling

/-- A mantissa moved up until all of its bits are used. -/
theorem full_shift {m : Nat} (hm : 0 < m) (hlt : m < 2 ^ 53) :
    2 ^ 52 ≤ m * 2 ^ (52 - m.log2) ∧ m * 2 ^ (52 - m.log2) < 2 ^ 53 := by
  have hlog : m.log2 ≤ 52 := by
    have := (Nat.log2_lt hm.ne').mpr hlt
    omega
  have hlow := Nat.mul_le_mul_right (2 ^ (52 - m.log2)) (Nat.log2_self_le hm.ne')
  have hhigh := Nat.mul_lt_mul_of_pos_right (Nat.lt_log2_self (n := m))
    (Nat.two_pow_pos (52 - m.log2))
  rw [← pow_add] at hlow hhigh
  have hsum : m.log2 + (52 - m.log2) = 52 := by omega
  have hsum' : m.log2 + 1 + (52 - m.log2) = 53 := by omega
  rw [hsum] at hlow
  rw [hsum'] at hhigh
  exact ⟨hlow, hhigh⟩

/-- A double times a power of two is a double: a larger exponent, or a larger mantissa where that
had not all of its bits. -/
theorem IsDouble.shift {m : Nat} {e : Int} (h : IsDouble m e) (j : Nat) (he : e + j ≤ 971) :
    ∃ i ≤ j, IsDouble (m * 2 ^ i) (e + j - i) := by
  have hleast := h.least
  by_cases hm : 2 ^ 52 ≤ m
  · refine ⟨0, Nat.zero_le j, ?_⟩
    rw [pow_zero, Nat.mul_one]
    exact ⟨h.pos, h.lt, by omega, by omega, .inl hm⟩
  · have hexp := h.full.resolve_left hm
    obtain ⟨hlow, hhigh⟩ := full_shift h.pos h.lt
    by_cases hj : j ≤ 52 - m.log2
    · have hle : m * 2 ^ j ≤ m * 2 ^ (52 - m.log2) :=
        Nat.mul_le_mul_left m (Nat.pow_le_pow_right (by omega) hj)
      exact ⟨j, le_rfl, Nat.mul_pos h.pos (Nat.two_pow_pos j), by omega, by omega, by omega,
        .inr (by omega)⟩
    · exact ⟨52 - m.log2, by omega, by omega, hhigh, by omega, by omega, .inl hlow⟩

/-- The exponent of a double that is not too large. -/
theorem IsDouble.exponent_lt {m : Nat} {e : Int} (h : IsDouble m e) {k : Nat}
    (hk : m * unitsIn e < 2 ^ (52 + k) * unitsIn 0) : e < k := by
  rcases h.full with hm | he
  · have hle : 2 ^ 52 * unitsIn e < 2 ^ 52 * unitsIn k := by
      calc 2 ^ 52 * unitsIn e ≤ m * unitsIn e := Nat.mul_le_mul_right _ hm
        _ < 2 ^ (52 + k) * unitsIn 0 := hk
        _ = 2 ^ 52 * (unitsIn 0 * 2 ^ k) := by ring
        _ = 2 ^ 52 * unitsIn k := by rw [← unitsIn_add (by omega), Int.zero_add]
    have hlt := Nat.lt_of_mul_lt_mul_left hle
    unfold unitsIn at hlt
    have := (Nat.pow_lt_pow_iff_right (by omega)).mp hlt
    omega
  · omega

/-- A product of a double with a power of two is not rounded. -/
theorem mul_two_pow_exact {m i j : Nat} {e : Int} (s : Sign) (hm : IsDouble m e)
    (h : IsDouble (m * 2 ^ i) (e + j - i)) (hi : i ≤ j) (hj : j ≤ 52) :
    UnpackedFloat.mul Format.binary64 (.finite s m e hm.pos)
      (.finite .positive (2 ^ 52) (j - 52) (by decide)) =
        .finite (s * .positive) (m * 2 ^ i) (e + j - i) h.pos := by
  have hmantissa : m * 2 ^ i * 2 ^ (52 - i) = m * 2 ^ 52 := by
    rw [Nat.mul_assoc, ← pow_add]
    congr 2
    omega
  have hexponent : e + j - i - (52 - i : Nat) = e + (j - 52) := by omega
  rw [← roundWithAccuracy_shifted h (s * .positive) (52 - i), hmantissa, hexponent]
  rfl

/-- A product with a power of two is exact. -/
theorem units?_mul_two_pow {x y : Float} {u : Int} {j : Nat} (hj : j ≤ 52)
    (hy : y.toModel.unpack = .finite .positive (2 ^ 52) (j - 52) (by decide))
    (hu : units? x = some u) (hlt : u.natAbs < 2 ^ 64 * unitsIn 0) :
    units? (x * y) = some (u * 2 ^ j) := by
  change units? (.ofModel (.pack (UnpackedFloat.mul _ x.toModel.unpack y.toModel.unpack))) = _
  rw [hy]
  obtain ⟨s, hx, rfl⟩ | ⟨s, m, e, hm, hx, rfl⟩ := unpack_of_units hu <;> rw [hx]
  · exact (units?_pack_zero _).trans (congrArg some (Int.zero_mul _).symm)
  · have habs : (s.apply (m * unitsIn e : Nat)).natAbs = m * unitsIn e := by
      cases s with
      | negative => exact Int.natAbs_neg _
      | positive => rfl
    rw [habs] at hlt
    have hexp : e < (12 : Nat) := hm.exponent_lt hlt
    obtain ⟨i, hi, hdouble⟩ := hm.shift j (by omega)
    have hunits : m * 2 ^ i * unitsIn (e + j - i) = m * unitsIn e * 2 ^ j := by
      rw [mul_two_pow_unitsIn m hdouble.least, unitsIn_add hm.least, Nat.mul_assoc]
    rw [mul_two_pow_exact s hm hdouble hi hj, units?_pack_finite _ hdouble, hunits]
    cases s with
    | negative =>
      change some (-((m * unitsIn e * 2 ^ j : Nat) : Int)) =
        some (-((m * unitsIn e : Nat) : Int) * 2 ^ j)
      push_cast
      ring_nf
    | positive =>
      change some ((m * unitsIn e * 2 ^ j : Nat) : Int) =
        some (((m * unitsIn e : Nat) : Int) * 2 ^ j)
      push_cast
      rfl

/-- Without units there are none in the product. -/
theorem units?_mul_of_none {x y : Float} {f : Int}
    (hy : y.toModel.unpack = .finite .positive (2 ^ 52) f (by decide)) (hu : units? x = none) :
    units? (x * y) = none := by
  change units? (.ofModel (.pack (UnpackedFloat.mul _ x.toModel.unpack y.toModel.unpack))) = _
  rw [units?_eq] at hu
  rw [hy]
  cases hx : x.toModel.unpack with
  | infinity s => exact units?_pack_infinity _
  | notANumber => exact units?_pack_notANumber
  | zero s =>
    rw [hx, units?_ofUnpacked_zero] at hu
    cases hu
  | finite s m e hm =>
    rw [hx, units?_ofUnpacked_finite] at hu
    cases hu

theorem unpack_one : (Float.ofBits 0x3FF0000000000000).toModel.unpack =
    .finite .positive (2 ^ 52) ((0 : Nat) - 52) (by decide) := rfl

/-- A whole number is rounded to itself. -/
theorem round_natCast {n : Nat} (hn : 0 < n) (hlt : n < 2 ^ 53) :
    ∃ (m : Nat) (e : Int) (h : IsDouble m e), m * unitsIn e = n * unitsIn 0 ∧
      UnpackedFloat.round Format.binary64 .positive n 0 = .finite .positive m e h.pos := by
  obtain ⟨hlow, hhigh⟩ := full_shift hn hlt
  have hlog : n.log2 ≤ 52 := by
    have := (Nat.log2_lt hn.ne').mpr hlt
    omega
  have hdouble : IsDouble (n * 2 ^ (52 - n.log2)) (0 - (52 - n.log2 : Nat)) :=
    ⟨by omega, hhigh, by omega, by omega, .inl hlow⟩
  refine ⟨_, _, hdouble, ?_, ?_⟩
  · exact mul_two_pow_unitsIn n hdouble.least
  · have htarget : Format.binary64.targetExponent (totalExponent n 0) =
        0 - (52 - n.log2 : Nat) := by
      have hmin : Format.binary64.minExponent = -1074 := rfl
      have hbits : Format.binary64.mantissaBits = 53 := rfl
      unfold Format.targetExponent totalExponent
      rw [hmin, hbits]
      omega
    have hamount : ((0 : Int) - (0 - (52 - n.log2 : Nat))).toNat = 52 - n.log2 := by omega
    unfold UnpackedFloat.round decreaseExponent
    simp only [htarget, hamount, Nat.shiftLeft_eq]
    have hround := roundWithAccuracy_shifted hdouble .positive 0
    rwa [pow_zero, Nat.mul_one, Nat.cast_zero, Int.sub_zero] at hround

theorem units?_ofNat {n : Nat} (hn : n < 2 ^ 53) :
    units? (Float.ofNat n) = some ((n * unitsIn 0 : Nat) : Int) := by
  have hword : n.toUInt64.toNat = n := by
    rw [Nat.toUInt64_eq, UInt64.toNat_ofNat']
    omega
  have hproduct : Float.ofNat n = n.toUInt64.toFloat * Float.ofBits 0x3FF0000000000000 := by
    change Float.ofScientific n false 0 = _
    unfold Float.ofScientific
    rw [dif_pos ⟨hn, by decide⟩]
    rfl
  have hfactor : units? n.toUInt64.toFloat = some ((n * unitsIn 0 : Nat) : Int) := by
    change units? (.ofModel (.pack (UnpackedFloat.normalize _ (n.toUInt64.toNat : Int) 0 _))) = _
    rw [hword]
    unfold UnpackedFloat.normalize
    rcases Nat.eq_zero_or_pos n with rfl | hpos
    · rw [Nat.cast_zero, compare_eq_iff_eq.mpr rfl, Nat.zero_mul]
      exact units?_pack_zero _
    · obtain ⟨m, e, hdouble, hunits, hround⟩ := round_natCast hpos hn
      rw [compare_gt_iff_gt.mpr (by exact_mod_cast hpos), Int.toNat_natCast]
      dsimp only
      rw [hround, units?_pack_finite _ hdouble, hunits]
      rfl
  have hbound : ((n * unitsIn 0 : Nat) : Int).natAbs < 2 ^ 64 * unitsIn 0 := by
    rw [Int.natAbs_natCast]
    exact Nat.mul_lt_mul_of_pos_right (by omega) (unitsIn_pos 0)
  rw [hproduct, units?_mul_two_pow (by omega) unpack_one hfactor hbound, pow_zero, Int.mul_one]

end Scaling

section Remainder

/-- The bits of a double with the exponent field `n` and the mantissa field `k`. -/
def fieldBits (negative : Bool) (n k : Nat) : Nat :=
  (if negative then 2 ^ 63 else 0) + (n * 2 ^ 52 + k)

theorem ofBits_fieldBits (negative : Bool) {n k : Nat} (hn : n < 2047) (hk : k < 2 ^ 52) :
    FloatValue.ofBits 11 52 (fieldBits negative n k) =
      if n = 0 then .finite negative k (-1074) else .finite negative (k + 2 ^ 52) (n - 1075) := by
  have hman : fieldBits negative n k % 2 ^ 52 = k := by
    unfold fieldBits
    split <;> omega
  have hexp : fieldBits negative n k / 2 ^ 52 % 2 ^ 11 = n := by
    unfold fieldBits
    split <;> omega
  have hsign : (fieldBits negative n k / 2 ^ 63 % 2 == 1) = negative := by
    unfold fieldBits
    cases negative <;> simp <;> omega
  rw [ofBits_double, hman, hexp, hsign, if_neg (by omega)]
  split
  · rfl
  · congr 1
    omega

/-- The units that stand in fields. -/
theorem units?_fieldBits (negative : Bool) {n k : Nat} (hn : n < 2047) (hk : k < 2 ^ 52) :
    units? (.ofBits (UInt64.ofNat (fieldBits negative n k))) =
      if n = 0 then (FloatValue.finite negative k (-1074)).units?
      else (FloatValue.finite negative (k + 2 ^ 52) (n - 1075)).units? := by
  have hword : (UInt64.ofNat (fieldBits negative n k)).toNat = fieldBits negative n k := by
    rw [UInt64.toNat_ofNat']
    unfold fieldBits
    split <;> omega
  rw [units?, ofFloat_ofBits, hword, ofBits_fieldBits negative hn hk]
  split <;> rfl

/-- A number below the ones that have all bits of the mantissa. -/
theorem exactDouble_low {r : Nat} {e : Int} (negative : Bool) (hr : 0 < r)
    (hleast : -1074 ≤ e) (htop : r.log2 + e < -1022) :
    exactDouble negative r e =
      .ofBits (UInt64.ofNat (fieldBits negative 0 (r * 2 ^ (e + 1074).toNat))) := by
  have hge : 0 ≤ e + 1074 := by omega
  unfold exactDouble fieldBits
  simp only [hr.ne', htop, hge, if_true, if_false, Nat.shiftLeft_eq, Nat.one_mul, Nat.zero_mul,
    Nat.zero_add]

/-- A number with all bits of the mantissa. -/
theorem exactDouble_full {r : Nat} {e : Int} (negative : Bool) (hr : 0 < r) (hlog : r.log2 ≤ 52)
    (htop : ¬(r.log2 : Int) + e < -1022) :
    exactDouble negative r e =
      .ofBits (UInt64.ofNat (fieldBits negative (r.log2 + e + 1023).toNat
        (r * 2 ^ (52 - r.log2) % 2 ^ 52))) := by
  have hge : 0 ≤ e - ((r.log2 : Int) + e) + 52 := by omega
  have hshift : (e - ((r.log2 : Int) + e) + 52).toNat = 52 - r.log2 := by omega
  unfold exactDouble fieldBits
  simp only [hr.ne', htop, hge, hshift, if_true, if_false, Nat.shiftLeft_eq, Nat.one_mul]

/-- A number that is put together from `r` and `2^e` has their units. -/
theorem units?_exactDouble {r : Nat} {e : Int} (negative : Bool) (hr : r < 2 ^ 53)
    (hleast : -1074 ≤ e) (hgreatest : e ≤ 971) :
    units? (exactDouble negative r e) = (FloatValue.finite negative r e).units? := by
  rcases Nat.eq_zero_or_pos r with rfl | hpos
  · have hzero : exactDouble negative 0 e = .ofBits (UInt64.ofNat (fieldBits negative 0 0)) := rfl
    rw [hzero, units?_fieldBits negative (by omega) (by omega), if_pos rfl,
      FloatValue.units?_finite, FloatValue.units?_finite, Nat.zero_mul, Nat.zero_mul]
  · obtain ⟨hlow, hhigh⟩ := full_shift hpos hr
    have hlog : r.log2 ≤ 52 := by
      have := (Nat.log2_lt hpos.ne').mpr hr
      omega
    by_cases htop : (r.log2 : Int) + e < -1022
    · obtain ⟨j, rfl⟩ : ∃ j : Nat, e = -1074 + j := ⟨(e + 1074).toNat, by omega⟩
      have hj : (-1074 + (j : Int) + 1074).toNat = j := by omega
      have hle : r * 2 ^ j ≤ r * 2 ^ (51 - r.log2) :=
        Nat.mul_le_mul_left r (Nat.pow_le_pow_right (by omega) (by omega))
      have hpow : r * 2 ^ (52 - r.log2) = r * 2 ^ (51 - r.log2) * 2 := by
        rw [Nat.mul_assoc, ← pow_succ]
        congr 2
        omega
      rw [exactDouble_low negative hpos hleast htop, hj,
        units?_fieldBits negative (by omega) (by omega), if_pos rfl, FloatValue.units?_finite,
        FloatValue.units?_finite, unitsIn_add (by omega) j, Nat.mul_assoc, Nat.mul_comm (2 ^ j)]
    · have hmantissa : r * 2 ^ (52 - r.log2) % 2 ^ 52 + 2 ^ 52 = r * 2 ^ (52 - r.log2) := by omega
      have hexponent : (((r.log2 + e + 1023).toNat : Nat) : Int) - 1075 =
          e - (52 - r.log2 : Nat) := by omega
      rw [exactDouble_full negative hpos hlog htop,
        units?_fieldBits negative (by omega) (Nat.mod_lt _ (by omega)), if_neg (by omega),
        hmantissa, hexponent, FloatValue.units?_finite, FloatValue.units?_finite,
        mul_two_pow_unitsIn r (by omega)]

/-- A float with units is what they come from. -/
theorem ofFloat_of_units {x : Float} {u : Int} (h : units? x = some u) :
    ∃ negative m e, FloatValue.ofFloat x = .finite negative m e ∧ m < 2 ^ 53 ∧ -1074 ≤ e ∧ e ≤ 971 ∧
      u = if negative then (-(m * unitsIn e : Nat) : Int) else (m * unitsIn e : Nat) := by
  obtain ⟨s, hx, rfl⟩ | ⟨s, m, e, hm, hx, rfl⟩ := unpack_of_units h
  · refine ⟨s == .negative, 0, -1074, ?_, by omega, by omega, by omega, ?_⟩
    · rw [ofFloat_eq_ofUnpacked, hx]
      rfl
    · rw [Nat.zero_mul]
      split <;> rfl
  · refine ⟨s == .negative, m, e, ?_, hm.lt, hm.least, hm.greatest, ?_⟩
    · rw [ofFloat_eq_ofUnpacked, hx]
      rfl
    · cases s <;> rfl

/-- The remainder of two numbers above zero is that of their units. -/
theorem units?_floatRemainder {x y : Float} {u v : Int} (hu : units? x = some u) (hu0 : 0 ≤ u)
    (hv : units? y = some v) (hv0 : 0 < v) : units? (floatRemainder x y) = some (u % v) := by
  obtain ⟨b, m, d, hx, hm, hd, hd', rfl⟩ := ofFloat_of_units hu
  obtain ⟨c, n, e, hy, hn, he, he', rfl⟩ := ofFloat_of_units hv
  have hn0 : n ≠ 0 := by
    rintro rfl
    rw [Nat.zero_mul] at hv0
    split at hv0 <;> omega
  have hunits : m * 2 ^ (d - min d e).toNat % (n * 2 ^ (e - min d e).toNat) * unitsIn (min d e) =
      m * unitsIn d % (n * unitsIn e) := by
    rw [← Nat.mul_mod_mul_right, mul_unitsIn_lower m (by omega) (min_le_left d e),
      mul_unitsIn_lower n (by omega) (min_le_right d e)]
  have hsmall : m * 2 ^ (d - min d e).toNat % (n * 2 ^ (e - min d e).toNat) < 2 ^ 53 := by
    rcases le_total d e with hde | hde
    · rw [min_eq_left hde, Int.sub_self]
      exact lt_of_le_of_lt (Nat.mod_le _ _) (by simpa using hm)
    · rw [min_eq_right hde, Int.sub_self]
      exact lt_trans (Nat.mod_lt _ (by simpa using Nat.pos_of_ne_zero hn0)) (by simpa using hn)
  unfold floatRemainder
  rw [hx, hy]
  dsimp only
  rw [if_neg hn0, Nat.shiftLeft_eq, Nat.shiftLeft_eq,
    units?_exactDouble b hsmall (by omega) (by omega), FloatValue.units?_finite, hunits]
  cases c with
  | true =>
    have : -((n * unitsIn e : Nat) : Int) > 0 := hv0
    omega
  | false =>
    cases b with
    | true =>
      have hzero : m * unitsIn d = 0 := by
        have : 0 ≤ -((m * unitsIn d : Nat) : Int) := hu0
        omega
      rw [hzero, Nat.zero_mod]
      rfl
    | false => exact congrArg some (Int.natCast_emod _ _)

theorem units?_undefined : units? (0 / 0) = none := by
  rw [units?_eq]
  rfl

theorem units?_floatRemainder_of_none {x y : Float} {v : Int} (hu : units? x = none)
    (hv : units? y = some v) : units? (floatRemainder x y) = none := by
  obtain ⟨c, n, e, hy, -⟩ := ofFloat_of_units hv
  unfold units? at hu
  unfold floatRemainder
  rw [hy]
  cases hx : FloatValue.ofFloat x with
  | undefined => exact units?_undefined
  | infinite negative => exact units?_undefined
  | finite negative m d =>
    rw [hx, FloatValue.units?_finite] at hu
    cases hu

end Remainder

section Floor

theorem wholePart_eq (m : Nat) {e : Int} (he : -1074 ≤ e) :
    (FloatValue.wholePart m e).1 = m * unitsIn e / unitsIn 0 := by
  unfold FloatValue.wholePart
  split
  · obtain ⟨k, rfl⟩ : ∃ k : Nat, e = 0 + k := ⟨e.toNat, by omega⟩
    have hk : ((0 : Int) + k).toNat = k := by omega
    rw [unitsIn_add (by omega), hk, Nat.shiftLeft_eq, Nat.mul_comm (unitsIn 0), ← Nat.mul_assoc,
      Nat.mul_div_cancel _ (unitsIn_pos 0)]
  · have hsum : unitsIn (e + (-e).toNat) = unitsIn e * 2 ^ (-e).toNat := unitsIn_add he _
    rw [show e + ((-e).toNat : Int) = 0 by omega] at hsum
    rw [hsum, Nat.mul_comm m, Nat.mul_div_mul_left _ _ (unitsIn_pos e), Nat.shiftLeft_eq,
      Nat.one_mul]

theorem floorFinite_zero (negative : Bool) (e : Int) :
    FloatValue.floorFinite negative 0 e = 0 := by
  have hwhole : FloatValue.wholePart 0 e = (0, false) := by
    unfold FloatValue.wholePart
    split
    · rw [Nat.zero_shiftLeft]
    · simp
  unfold FloatValue.floorFinite
  rw [hwhole]
  cases negative <;> rfl

/-- A number that is not below zero is rounded down by a division of its units. -/
theorem floorToInt64_of_units {x : Float} {u : Int} (h : units? x = some u) (h0 : 0 ≤ u) :
    floorToInt64 x = clampInt minInt64 maxInt64 (u / unitsIn 0) := by
  obtain ⟨negative, m, e, hx, -, he, -, rfl⟩ := ofFloat_of_units h
  unfold floorToInt64 FloatValue.floorInto
  rw [hx, FloatValue.roundInto]
  congr 1
  cases negative with
  | true =>
    have hzero : m * unitsIn e = 0 := by
      have : 0 ≤ -((m * unitsIn e : Nat) : Int) := h0
      omega
    rw [hzero, (Nat.mul_eq_zero.mp hzero).resolve_right (unitsIn_pos e).ne', floorFinite_zero]
    exact (Int.zero_ediv _).symm
  | false =>
    change ((FloatValue.wholePart m e).1 : Int) = ((m * unitsIn e : Nat) : Int) / (unitsIn 0 : Nat)
    rw [wholePart_eq m he, Int.natCast_ediv]

end Floor

end Scanline
