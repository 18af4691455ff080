import Mathlib.Algebra.Order.Field.Basic
import Mathlib.Algebra.Order.Field.Rat
import Mathlib.Data.Rat.Cast.Order
import Mathlib.Tactic.FieldSimp
import Mathlib.Tactic.Ring
import Mathlib.Tactic.Linarith
import Scanline.Proofs.Operator.Premultiplied
import Scanline.Proofs.Pixel.Mixing

/-
  The Porter-Duff operators. Each keeps a share of the source and a share of the destination, which
  depends on the alpha of the other side (`Operator.shares?`). Where the two pixels overlap at most
  one side is kept (`disjoint_shares`), so that the weighed sum of two premultiplied channels is
  never more than `255 * 255` (`Share.weighed_le`). Up to there the division by 255 finds the
  nearest integer, and no other one is as near (`isNearest_div255`). `porterDuff_nearest` puts this
  together: the channels of a result are the weighed means correctly rounded, and packing cuts
  nothing off.
-/

namespace Scanline

/-! ## Shares -/

/-- How much is kept of one side, by the alpha of the other side. -/
inductive Share where
  | nothing
  | all
  /-- What lies inside of the other side. -/
  | inside
  /-- What lies outside of the other side. -/
  | outside
  deriving DecidableEq, Repr

namespace Share

/-- The share as a number of 255, where the other side has the alpha `a`. -/
def of : Share → Nat → Nat
  | nothing, _ => 0
  | all, _ => 255
  | inside, a => a
  | outside, a => 255 - a

/-- Whether the share has a part of where both sides are. -/
def meetsOther : Share → Bool
  | all | inside => true
  | nothing | outside => false

variable {fs fd : Share} {s d sa da : Nat}

/-- Of a source and a destination that are kept in no place both there is never more than a whole
pixel. -/
theorem weighed_le (h : ¬ (fs.meetsOther ∧ fd.meetsOther)) (hs : s ≤ sa) (hsa : sa ≤ 255)
    (hd : d ≤ da) (hda : da ≤ 255) : s * fs.of da + d * fd.of sa ≤ 65025 := by
  -- the pixel falls into the source alone, the destination alone, both, and neither
  have hsource : sa * da + sa * (255 - da) = sa * 255 := by rw [← Nat.mul_add]; congr 1; omega
  have hdest : da * sa + da * (255 - sa) = da * 255 := by rw [← Nat.mul_add]; congr 1; omega
  have hrest := Nat.mul_le_mul_right (255 - sa) hda
  have hboth := Nat.mul_comm da sa
  have hwhole : sa * fs.of da + da * fd.of sa ≤ 65025 := by
    cases fs <;> cases fd <;> simp [of, meetsOther] at h ⊢ <;> omega
  have hs' := Nat.mul_le_mul_right (fs.of da) hs
  have hd' := Nat.mul_le_mul_right (fd.of sa) hd
  omega

end Share

namespace Operator

/-- The shares that a Porter-Duff operator keeps of the source and of the destination. -/
def shares? : Operator → Option (Share × Share)
  | srcOver => some (.all, .outside)
  | srcCopy => some (.all, .nothing)
  | srcIn => some (.inside, .nothing)
  | srcOut => some (.outside, .nothing)
  | srcAtop => some (.inside, .outside)
  | dstOver => some (.outside, .all)
  | dstCopy => some (.nothing, .all)
  | dstIn => some (.nothing, .inside)
  | dstOut => some (.nothing, .outside)
  | dstAtop => some (.outside, .inside)
  | xor => some (.outside, .outside)
  | clear => some (.nothing, .nothing)
  | _ => none

variable {op : Operator} {fs fd : Share}

theorem formula_of_shares (h : op.shares? = some (fs, fd)) :
    op.formula = .weighted (fun _ da => fs.of da) (fun sa _ => fd.of sa) := by
  cases op <;> cases h <;> rfl

/-- No Porter-Duff operator keeps both sides where they overlap. -/
theorem disjoint_shares (h : op.shares? = some (fs, fd)) : ¬ (fs.meetsOther ∧ fd.meetsOther) := by
  cases op <;> cases h <;> decide

end Operator

/-! ## Rounding -/

/-- The integer `v` is nearer to `x` than any other one. -/
def IsNearest (v : Nat) (x : ℚ) : Prop := ∀ z : ℤ, z ≠ v → |x - v| < |x - z|

theorem isNearest_div255 {n : Nat} (h : n ≤ 65025) : IsNearest (div255 n) (n / 255) := by
  intro z hz
  rw [div255_eq h] at hz ⊢
  -- a multiple of 255 is an odd number of halves apart from the next one
  have hnear : |(n : ℤ) - 255 * ((n + 127) / 255 : ℕ)| ≤ 127 := by
    rw [abs_le]
    constructor <;> omega
  have hfar : 128 ≤ |(n : ℤ) - 255 * z| := by
    rw [le_abs]
    omega
  have hscale (y : ℤ) : |(n : ℚ) / 255 - y| = (|(n : ℤ) - 255 * y| : ℤ) / 255 := by
    have hy : (n : ℚ) / 255 - y = ((n : ℤ) - 255 * y : ℤ) / 255 := by
      push_cast
      field_simp
    rw [hy, abs_div, abs_of_pos (show (0 : ℚ) < 255 by norm_num), Int.cast_abs]
  have hv := hscale ((n + 127) / 255 : ℕ)
  rw [Int.cast_natCast] at hv
  rw [hv, hscale z]
  apply div_lt_div_of_pos_right _ (by norm_num)
  exact_mod_cast show |(n : ℤ) - 255 * ((n + 127) / 255 : ℕ)| < |(n : ℤ) - 255 * z| by omega

/-! ## Results -/

namespace Formula

/-- The channels of the result on whole pixels, before they are cut at 255. -/
def channels (f : Formula) (dst src : UInt32) : Channels :=
  let s := unpack src
  let d := unpack dst
  match f with
  | weighted fs fd => s.zipWith (fun cs cd => div255 (cs * fs s.a d.a + cd * fd s.a d.a)) d
  | saturatedSum => s.zipWith addSat d
  | mixed color alpha =>
    ⟨color s.b d.b s.a d.a, color s.g d.g s.a d.a, color s.r d.r s.a d.a, alpha s.a d.a⟩
  | invertedAlpha => .splat (255 - d.a)

theorem onColor_eq_pack (f : Formula) (dst src : UInt32) :
    f.onColor dst src = (f.channels dst src).pack := by
  cases f with
  | saturatedSum => exact onColor_saturatedSum dst src
  | weighted fs fd => rfl
  | mixed color alpha => rfl
  | invertedAlpha => rfl

end Formula

theorem Channels.zipWith_apply {channel : Channels → Nat} (h : channel ∈ all)
    (f : Nat → Nat → Nat) (c d : Channels) :
    channel (c.zipWith f d) = f (channel c) (channel d) := by
  simp only [all, List.mem_cons, List.not_mem_nil, or_false] at h
  rcases h with rfl | rfl | rfl | rfl <;> rfl

theorem Channels.map_apply {channel : Channels → Nat} (h : channel ∈ all) (f : Nat → Nat)
    (c : Channels) : channel (c.map f) = f (channel c) := by
  simp only [all, List.mem_cons, List.not_mem_nil, or_false] at h
  rcases h with rfl | rfl | rfl | rfl <;> rfl

theorem Premultiplied.channel_le {p : UInt32} (hp : Premultiplied p) {channel : Channels → Nat}
    (h : channel ∈ Channels.all) : channel (unpack p) ≤ alphaOf p := by
  obtain ⟨hb, hg, hr⟩ := hp
  simp only [Channels.all, List.mem_cons, List.not_mem_nil, or_false] at h
  rcases h with rfl | rfl | rfl | rfl
  · exact hb
  · exact hg
  · exact hr
  · exact le_rfl

/-- A saturated sum is the sum cut at 255. -/
theorem addSat_eq (x y : Nat) : addSat x y = min 255 (x + y) := by
  unfold addSat
  split <;> omega

/-- On premultiplied pixels every channel that a Porter-Duff operator makes is the mean of the two
channels by their shares, rounded to the nearest integer, which is never in doubt. It has a place
in the pixel without being cut. The channels of a sum are cut at 255. -/
theorem porterDuff_nearest {dst src : UInt32} (hd : Premultiplied dst) (hs : Premultiplied src) :
    (∀ op fs fd, Operator.shares? op = some (fs, fd) →
      op.onColor dst src = (op.formula.channels dst src).pack ∧
      ∀ channel ∈ Channels.all,
        channel (op.formula.channels dst src) ≤ 255 ∧
        channel (unpack (op.onColor dst src)) = channel (op.formula.channels dst src) ∧
        IsNearest (channel (unpack (op.onColor dst src)))
          ((channel (unpack src) * fs.of (alphaOf dst) +
            channel (unpack dst) * fd.of (alphaOf src) : ℕ) / 255)) ∧
    ∀ channel ∈ Channels.all, channel (unpack (Operator.plus.onColor dst src)) =
      min 255 (channel (unpack src) + channel (unpack dst)) := by
  obtain ⟨-, -, -, hsa⟩ := unpack_le src
  obtain ⟨-, -, -, hda⟩ := unpack_le dst
  constructor
  · intro op fs fd h
    have hpack : op.onColor dst src = (op.formula.channels dst src).pack :=
      Formula.onColor_eq_pack _ dst src
    refine ⟨hpack, fun channel hchannel => ?_⟩
    have hsum := Share.weighed_le (Operator.disjoint_shares h) (hs.channel_le hchannel) hsa
      (hd.channel_le hchannel) hda
    have hvalue : channel (op.formula.channels dst src) =
        div255 (channel (unpack src) * fs.of (alphaOf dst) +
          channel (unpack dst) * fd.of (alphaOf src)) := by
      rw [Operator.formula_of_shares h]
      exact Channels.zipWith_apply hchannel
        (fun cs cd => div255 (cs * fs.of (alphaOf dst) + cd * fd.of (alphaOf src))) _ _
    have hle : channel (op.formula.channels dst src) ≤ 255 := hvalue ▸ div255_le hsum
    have hkept : channel (unpack (op.onColor dst src)) = channel (op.formula.channels dst src) := by
      rw [hpack, Channels.unpack_pack_min, Channels.map_apply hchannel]
      exact Nat.min_eq_left hle
    refine ⟨hle, hkept, ?_⟩
    rw [hkept, hvalue]
    exact isNearest_div255 hsum
  · intro channel hchannel
    have hvalue : channel (Operator.plus.formula.channels dst src) =
        min 255 (channel (unpack src) + channel (unpack dst)) :=
      (Channels.zipWith_apply hchannel _ _ _).trans (addSat_eq _ _)
    rw [Operator.onColor, Formula.onColor_eq_pack, Channels.unpack_pack_min,
      Channels.map_apply hchannel, hvalue]
    omega

/-- The color of a source on top of a destination: the mean `(80 * 128 + 64 * 63) / 255` lies just
under 56. -/
theorem porterDuff_nearest_srcAtop :
    Premultiplied 0x80404040 ∧ Premultiplied 0xC0505050 ∧
      (unpack (Operator.srcAtop.onColor 0x80404040 0xC0505050)).g = 56 ∧
      IsNearest 56 ((80 * 128 + 64 * 63 : ℕ) / 255) ∧
      (unpack (Operator.plus.onColor 0x80404040 0xC0505050)).a = 255 := by
  have h := @porterDuff_nearest 0x80404040 0xC0505050 (by decide) (by decide)
  obtain ⟨-, hchannel⟩ := h.1 .srcAtop .inside .outside rfl
  exact ⟨by decide, by decide, by decide, (hchannel Channels.g (by simp [Channels.all])).2.2,
    h.2 Channels.a (by simp [Channels.all])⟩

end Scanline
