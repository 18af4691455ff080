import Scanline.Geometry.Affine
import Scanline.Proofs.Numeric.DoubleUnits

/-
  Cutting doubles to integers. A double that is not above a whole number is cut, in steps of 1/256,
  to no more than that number, whatever else it is: of a product only the sign is needed where the
  double is below zero (`truncateToInt32_mul_le`). So what has been made no larger than a side of an
  image stays within the side (`truncateToInt32_smallerDouble_le`).
-/

namespace Scanline

open Float.Model (Format UnpackedFloat)
open Float.Model.UnpackedFloat

namespace FloatValue

/-- There is a sign, if there is a number. -/
def IsNegative : FloatValue → Prop
  | undefined => True
  | infinite negative | finite negative _ _ => negative = true

theorem IsNegative.truncateInto_nonpos {v : FloatValue} (h : v.IsNegative) {lo hi : Int}
    (hlo : lo ≤ 0) : v.truncateInto lo hi ≤ 0 := by
  cases v with
  | undefined => exact le_rfl
  | infinite negative =>
    obtain rfl : negative = true := h
    exact hlo
  | finite negative m e =>
    obtain rfl : negative = true := h
    change clampInt lo hi (-((wholePart m e).1 : Int)) ≤ 0
    unfold clampInt
    split
    · exact hlo
    · split <;> omega

/-- What is unpacked from bits with a sign has a sign. -/
theorem isNegative_unpack {b : BitVec Format.binary64.numBits}
    (h : unpackSign b = Sign.negative.toBitVec) :
    (ofUnpacked (UnpackedFloat.unpack Format.binary64 b)).IsNegative := by
  unfold UnpackedFloat.unpack
  simp only [h, Sign.ofBitVec_toBitVec]
  split
  · split
    · rfl
    · trivial
  · split
    · split <;> rfl
    · rfl

end FloatValue

/-- A float that is made of a number with a sign has a sign, also where packing makes it
infinite. -/
theorem isNegative_pack {m : Nat} {e : Int} {hm : 0 < m} :
    (FloatValue.ofFloat (.ofModel (.pack (.finite .negative m e hm)))).IsNegative := by
  rw [ofFloat_eq_ofUnpacked]
  refine FloatValue.isNegative_unpack ?_
  change unpackSign (UnpackedFloat.pack Format.binary64 (.finite .negative m e hm)) = _
  unfold UnpackedFloat.pack
  dsimp only
  split
  · exact unpackSign_packComponents _ _ _
  · split
    · exact unpackSign_packComponents _ _ _
    · exact unpackSign_packComponents _ _ _

section Products

/-- The float that a pixel is in fixed point. -/
theorem unpack_256 : (256 : Float).toModel.unpack =
    .finite .positive (2 ^ 52) ((8 : Nat) - 52) (by decide) := rfl

variable {x : Float}

theorem isNegative_mul {m : Nat} {e : Int} {hm : 0 < m}
    (hx : x.toModel.unpack = .finite .negative m e hm) :
    (FloatValue.ofFloat (x * 256)).IsNegative := by
  change (FloatValue.ofFloat
    (.ofModel (.pack (UnpackedFloat.mul _ x.toModel.unpack (256 : Float).toModel.unpack)))).IsNegative
  rw [hx, unpack_256]
  unfold UnpackedFloat.mul roundWithAccuracy
  dsimp only
  split
  · rw [ofFloat_eq_ofUnpacked]
    rfl
  · exact isNegative_pack

theorem truncateToInt32_of_units {u : Int} (h : units? x = some u) (h0 : 0 ≤ u) :
    truncateToInt32 x = clampInt minInt32 maxInt32 (u / unitsIn 0) := by
  obtain ⟨negative, m, e, hx, -, he, -, rfl⟩ := ofFloat_of_units h
  unfold truncateToInt32 FloatValue.truncateInto
  rw [hx, FloatValue.roundInto]
  congr 1
  unfold FloatValue.truncateFinite
  rw [wholePart_eq m he]
  cases negative with
  | true =>
    have hzero : m * unitsIn e = 0 := by
      have : 0 ≤ -((m * unitsIn e : Nat) : Int) := h0
      omega
    rw [hzero]
    simp
  | false => exact Int.natCast_ediv _ _

/-- A double that is not above a whole number, in steps of 1/256. -/
theorem truncateToInt32_mul_le {n : Nat} (hn : (n : Int) ≤ maxInt32) (h : ¬ Float.ofNat n < x) :
    truncateToInt32 (x * 256) ≤ 256 * n := by
  unfold maxInt32 at hn
  have hbound : units? (Float.ofNat n) = some ((n * unitsIn 0 : Nat) : Int) :=
    units?_ofNat (by omega)
  have hpos := unitsIn_pos 0
  have hexact {u : Int} (hu : units? x = some u) (h0 : 0 ≤ u) :
      truncateToInt32 (x * 256) ≤ 256 * n := by
    have hle : u ≤ (n * unitsIn 0 : Nat) := by
      rwa [lt_iff_units hbound hu, Int.not_lt] at h
    have hsmall : u.natAbs < 2 ^ 64 * unitsIn 0 := by
      have : n * unitsIn 0 < 2 ^ 64 * unitsIn 0 := Nat.mul_lt_mul_of_pos_right (by omega) hpos
      omega
    have hproduct := units?_mul_two_pow (by omega) unpack_256 hu hsmall
    rw [truncateToInt32_of_units hproduct (by positivity)]
    have hquotient : u * 2 ^ 8 / (unitsIn 0 : Int) ≤ 256 * n := by
      refine Int.ediv_le_of_le_mul (by exact_mod_cast hpos) ?_
      push_cast at hle
      linarith
    unfold clampInt minInt32 maxInt32
    split
    · omega
    · split <;> omega
  cases hx : x.toModel.unpack with
  | notANumber =>
    have hproduct : truncateToInt32 (x * 256) = 0 := by
      change truncateToInt32 (.ofModel (.pack (UnpackedFloat.mul _ x.toModel.unpack _))) = 0
      rw [hx]
      rfl
    omega
  | infinity s =>
    cases s with
    | negative =>
      have hproduct : truncateToInt32 (x * 256) = minInt32 := by
        change truncateToInt32 (.ofModel (.pack (UnpackedFloat.mul _ x.toModel.unpack
          (256 : Float).toModel.unpack))) = minInt32
        rw [hx, unpack_256]
        rfl
      rw [hproduct]
      unfold minInt32
      omega
    | positive =>
      refine absurd ?_ h
      rw [lt_iff_compare, hx]
      obtain ⟨s, hunpack, -⟩ | ⟨s, m, e, hm, hunpack, -⟩ := unpack_of_units hbound <;>
        rw [hunpack] <;> cases s <;> rfl
  | zero s =>
    refine hexact (u := 0) ?_ le_rfl
    rw [units?_eq, hx, units?_ofUnpacked_zero]
  | finite s m e hm =>
    cases s with
    | negative =>
      have hsign : truncateToInt32 (x * 256) ≤ 0 :=
        (isNegative_mul hx).truncateInto_nonpos (by decide)
      exact hsign.trans (by positivity)
    | positive =>
      refine hexact (u := (m * unitsIn e : Nat)) ?_ (by positivity)
      rw [units?_eq, hx, units?_ofUnpacked_finite]
      rfl

end Products

theorem truncateToInt32_smallerDouble_le (x : Float) {n : Nat} (hn : (n : Int) ≤ maxInt32) :
    truncateToInt32 (smallerDouble x (Float.ofNat n) * 256) ≤ 256 * n := by
  refine truncateToInt32_mul_le hn ?_
  have hself : ¬ Float.ofNat n < Float.ofNat n := by
    unfold maxInt32 at hn
    have hunits := units?_ofNat (n := n) (by omega)
    rw [lt_iff_units hunits hunits]
    exact lt_irrefl _
  unfold smallerDouble
  split
  · exact hself
  · split
    · exact hself
    · assumption

end Scanline
