import Scanline.Operator.Formula
import Scanline.Proofs.Pixel.Rounding
import Scanline.Proofs.Pixel.Stored
import Scanline.Render.Surface

/-
  Operators channel by channel. A formula gives every color channel by one function of the two
  channels and the two alphas (`Formula.color`) and the alpha by one function of the alphas
  (`Formula.alpha`); `onColor_eq` and `onAlpha_eq` say that whole pixels are made of these.

  The second part is about what the integer operators do with the sources that leave them little
  to do: a transparent one (`color_zero_source`), one with full alpha, and one that has its alpha
  in every channel.
-/

namespace Scanline

namespace Formula

/-- A color channel of the result from the channels `s` and `d` of the two pixels. -/
def color (f : Formula) (s d sa da : Nat) : Nat :=
  min 255 <| match f with
  | weighted fs fd => div255 (s * fs sa da + d * fd sa da)
  | saturatedSum => addSat s d
  | mixed color _ => color s d sa da
  | invertedAlpha => 255 - da

/-- The alpha of the result. -/
def alpha (f : Formula) (sa da : Nat) : Nat :=
  min 255 <| match f with
  | weighted fs fd => div255 (sa * fs sa da + da * fd sa da)
  | saturatedSum => addSat sa da
  | mixed _ alpha => alpha sa da
  | invertedAlpha => 255 - da

theorem color_le (f : Formula) (s d sa da : Nat) : f.color s d sa da ≤ 255 := Nat.min_le_left _ _

theorem alpha_le (f : Formula) (sa da : Nat) : f.alpha sa da ≤ 255 := Nat.min_le_left _ _

theorem pack_clamp (b g r a : Nat) :
    Channels.pack ⟨min 255 b, min 255 g, min 255 r, min 255 a⟩ = Channels.pack ⟨b, g, r, a⟩ := by
  simp only [Channels.pack, Nat.min_comm 255, Nat.min_assoc, Nat.min_self]

theorem onColor_eq (f : Formula) (dst src : UInt32) :
    f.onColor dst src = Channels.pack
      ⟨f.color (unpack src).b (unpack dst).b (alphaOf src) (alphaOf dst),
        f.color (unpack src).g (unpack dst).g (alphaOf src) (alphaOf dst),
        f.color (unpack src).r (unpack dst).r (alphaOf src) (alphaOf dst),
        f.alpha (alphaOf src) (alphaOf dst)⟩ := by
  cases f with
  | saturatedSum =>
    rw [onColor_saturatedSum]
    exact (pack_clamp _ _ _ _).symm
  | _ => exact (pack_clamp _ _ _ _).symm

theorem onAlpha_eq (f : Formula) (dst src : UInt32) :
    f.onAlpha dst src = ofAlpha (f.alpha (alphaOf src) (alphaOf dst)) := by
  cases f with
  | saturatedSum => exact onAlpha_saturatedSum dst src
  | _ => rfl

/-- The channels of a result are the ones the formula names. -/
theorem unpack_onColor (f : Formula) (dst src : UInt32) :
    unpack (f.onColor dst src) =
      ⟨f.color (unpack src).b (unpack dst).b (alphaOf src) (alphaOf dst),
        f.color (unpack src).g (unpack dst).g (alphaOf src) (alphaOf dst),
        f.color (unpack src).r (unpack dst).r (alphaOf src) (alphaOf dst),
        f.alpha (alphaOf src) (alphaOf dst)⟩ := by
  rw [onColor_eq, unpack_pack] <;> first | exact color_le .. | exact alpha_le ..

end Formula

namespace Operator

/-- The pixel that a destination of the format holds after drawing with coverage `m`. -/
def drawn (op : Operator) (f : PixelFormat) (dst src : UInt32) (m : Nat) : UInt32 :=
  f.stored (applyMask (op.combine f dst src) dst m)

/-- A copy is the source. -/
theorem onColor_srcCopy (dst src : UInt32) : srcCopy.onColor dst src = src := by
  obtain ⟨hb, hg, hr, ha⟩ := unpack_le src
  have hcopy : srcCopy.onColor dst src = (unpack src).pack := by
    simp only [onColor, formula, Formula.onColor, Channels.zipWith, Nat.mul_zero, Nat.add_zero,
      div255_mul_255, unpack_a, *]
    rfl
  rw [hcopy, pack_unpack]

theorem onAlpha_srcCopy (dst src : UInt32) : srcCopy.onAlpha dst src = ofAlpha (alphaOf src) := by
  have ha := (unpack_le src).2.2.2
  simp only [onAlpha, formula, Formula.onAlpha, Nat.mul_zero, Nat.add_zero, div255_mul_255 ha,
    Nat.min_eq_right ha]

theorem drawn_zero (op : Operator) (f : PixelFormat) (dst src : UInt32) :
    op.drawn f dst src 0 = f.stored dst := rfl

end Operator

/-- A mean of two channels that coverage weighs. -/
theorem weighted_le {r d m : Nat} (hr : r ≤ 255) (hd : d ≤ 255) (hm : m ≤ 255) :
    r * m + d * (255 - m) ≤ 65025 := by
  have h1 := Nat.mul_le_mul_right m hr
  have h2 := Nat.mul_le_mul_right (255 - m) hd
  omega

/-- Coverage mixes every channel by the same weights, the extreme ones included. -/
theorem unpack_applyMask (res dst : UInt32) {m : Nat} (hm : m ≤ 255) :
    unpack (applyMask res dst m) =
      (unpack res).zipWith (fun r d => div255 (r * m + d * (255 - m))) (unpack dst) := by
  obtain ⟨hrb, hrg, hrr, hra⟩ := unpack_le res
  obtain ⟨hdb, hdg, hdr, hda⟩ := unpack_le dst
  rw [← unpack_a] at hra hda
  unfold applyMask
  split
  · subst m
    simp only [Channels.zipWith, Nat.sub_self, Nat.mul_zero, Nat.add_zero, div255_mul_255, *]
  · split
    · subst m
      simp only [Channels.zipWith, Nat.sub_zero, Nat.mul_zero, Nat.zero_add, div255_mul_255, *]
    · have hmix : (unpack res).zipWith (mixChannel m) (unpack dst) =
          (unpack res).zipWith (fun r d => div255 (r * m + d * (255 - m))) (unpack dst) := by
        simp only [Channels.zipWith, mixChannel_eq hm, *]
      rw [hmix]
      refine unpack_pack ?_ ?_ ?_ ?_ <;> exact div255_le (weighted_le ‹_› ‹_› hm)

/-! ## Sums in one rounding -/

theorem over_le {s a d : Nat} (hs : s ≤ a) (ha : a ≤ 255) (hd : d ≤ 255) :
    s * 255 + d * (255 - a) ≤ 65025 := by
  have := Nat.mul_le_mul_right (255 - a) hd
  omega

/-- A channel over what the rest of 255 leaves of another one, rounded once instead of twice. -/
theorem add_mul255 {s a d : Nat} (hs : s ≤ a) (ha : a ≤ 255) (hd : d ≤ 255) :
    s + mul255 d (255 - a) = div255 (s * 255 + d * (255 - a)) := by
  rw [mul255, div255_add (over_le hs ha hd)]

namespace ColorMix

theorem div255Clamped_cast {v : Nat} (h : v ≤ 65025) : div255Clamped v = div255 v := by
  rw [div255Clamped, Int.toNat_natCast, Nat.min_eq_left h]

theorem unionAlpha_eq {sa da : Nat} (hs : sa ≤ 255) (hd : da ≤ 255) :
    unionAlpha sa da = sa + mul255 da (255 - sa) := (add_mul255 le_rfl hs hd).symm

theorem unionAlpha_comm {sa da : Nat} (hs : sa ≤ 255) (hd : da ≤ 255) :
    unionAlpha sa da = unionAlpha da sa := by
  have := Nat.mul_le_mul_left da hs
  have := Nat.mul_le_mul_right sa hd
  refine congrArg div255 ?_
  rw [Nat.mul_sub, Nat.mul_sub, Nat.mul_comm sa da]
  omega

theorem unionAlpha_le {sa da : Nat} (hs : sa ≤ 255) (hd : da ≤ 255) : unionAlpha sa da ≤ 255 :=
  div255_le (over_le le_rfl hs hd)

theorem coveredAlpha_eq {sa da : Nat} (hs : sa ≤ 255) (hd : da ≤ 255) :
    coveredAlpha sa da = unionAlpha sa da := by
  have := mul255_add_mul255 hd hs
  rw [unionAlpha_eq hs hd, coveredAlpha, mul255_comm]
  omega

theorem minusAlpha_eq {sa da : Nat} (hs : sa ≤ 255) (hd : da ≤ 255) :
    minusAlpha sa da = unionAlpha sa da := by
  rw [unionAlpha_comm hs hd, unionAlpha_eq hd hs, minusAlpha]

end ColorMix

end Scanline
