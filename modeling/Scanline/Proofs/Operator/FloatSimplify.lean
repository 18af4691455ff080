import Scanline.Proofs.Numeric.NaturalSingles
import Scanline.Proofs.Operator.OpaqueDestination
import Scanline.Proofs.Operator.Promises

/-
  Simplification of the operators that work in floats. Under a source that has its alpha in every
  channel, burning is exact in single precision and is drawing under the destination
  (`FloatMix.burn_gray`). Dodging divides by the least divisor there is, and gives all that it can
  give, which is drawing over the destination, unless the destination channel is zero: then it gives
  nothing (`FloatMix.dodge_gray`), and what is drawn over the destination is more wherever the two
  alphas cover half a step together (`Operator.color_dodge_gray_iff`).
  `simplify_sound_float_iff`: this is the one answer that shows.
-/

namespace Scanline

/-! ## Mixes of a source without color -/

namespace FloatMix

variable {s d da : Nat}

theorem mul_mul_lt {x y z : Nat} (hx : x ≤ 255) (hy : y ≤ 255) (hz : z ≤ 255) :
    x * y < 2 ^ 24 ∧ x * y * z < 2 ^ 24 := by
  have hxy := Nat.mul_le_mul hx hy
  have hxyz := Nat.mul_le_mul hxy hz
  omega

/-- The least divisor. -/
theorem unpack_least :
    (0.001 : Float32).toModel.unpack = .finite .positive 8589935 (-33) (by decide) := rfl

/-- All numbers but zero are larger than the least divisor. -/
theorem larger_least (hs : 0 < s) (hs' : s ≤ 255) : larger (natSingle s) 0.001 = natSingle s := by
  have hnot : ¬ natSingle s < 0.001 := by
    rw [lt_iff_unpack, unpack_natSingle (by omega), natural_of_pos hs, unpack_least, lt_finite_iff]
    have : fullShift s ≤ 23 := Nat.sub_le _ _
    omega
  unfold larger
  rw [isNaN_natSingle (by omega), if_neg (by decide), if_neg hnot]

/-- Divided by the least divisor, the color is beyond all that dodging can give. -/
theorem dodge_lt (hs : 0 < s) (hs' : s ≤ 255) (hd : 0 < d) (hd' : d ≤ 255) (hda : da ≤ 255) :
    natSingle (s * da) < natSingle (d * s * s) / 0.001 := by
  obtain ⟨-, hp⟩ := mul_mul_lt hd' hs' hs'
  obtain ⟨hq, -⟩ := mul_mul_lt hs' hda hda
  have hpos : 0 < d * s * s := Nat.mul_pos (Nat.mul_pos hd hs) hs
  have hquotient := atLeast_natSingle_div hpos hp unpack_least (by decide) (by decide) (by decide)
    (by decide)
  refine natSingle_lt_of_atLeast hq hquotient ?_
  -- one factor of the source stands against the alpha of the destination
  have hlt : s * da < 2 ^ ((d * s * s).log2 + 9) := by
    have hself := Nat.lt_log2_self (n := d * s * s)
    have hle : s * da ≤ d * s * s * 255 :=
      Nat.mul_le_mul (Nat.le_mul_of_pos_left s (Nat.mul_pos hd hs)) hda
    rw [pow_succ] at hself
    rw [pow_add]
    omega
  by_cases hzero : s * da = 0
  · rw [hzero, Nat.log2_zero]
    omega
  · have := (Nat.log2_lt hzero).mpr hlt
    omega

theorem dodge_gray (hs : s ≤ 255) (hd : d ≤ 255) (hda : da ≤ 255) :
    dodge s d s da = if d = 0 then 0 else s * da := by
  obtain ⟨hds, hdss⟩ := mul_mul_lt hd hs hs
  obtain ⟨hsda, -⟩ := mul_mul_lt hs hda hda
  have hleast : larger (natSingle 0) 0.001 = 0.001 := rfl
  unfold dodge whole
  dsimp only
  rw [ofNat_eq_natSingle (n := s) (by omega), ofNat_eq_natSingle (n := d) (by omega),
    ofNat_eq_natSingle (n := da) (by omega), natSingle_sub (by omega) le_rfl, Nat.sub_self, hleast,
    natSingle_mul (by omega) (by omega) hds, natSingle_mul hds (by omega) hdss,
    natSingle_mul (by omega) (by omega) hsda]
  by_cases hzero : d * s * s = 0
  · have hquotient : natSingle 0 / 0.001 = natSingle 0 := rfl
    have hnone : min 0 (s * da) = if d = 0 then 0 else s * da := by
      rcases Nat.mul_eq_zero.mp hzero with h | rfl
      · rcases Nat.mul_eq_zero.mp h with rfl | rfl <;> simp
      · simp
    rw [hzero, hquotient, smaller_natSingle (by decide) hsda, toUInt32_natSingle (by omega), hnone]
  · have hd0 : d ≠ 0 := by
      rintro rfl
      simp at hzero
    have hs0 : s ≠ 0 := by
      rintro rfl
      simp at hzero
    have hlt := dodge_lt (Nat.pos_of_ne_zero hs0) hs (Nat.pos_of_ne_zero hd0) hd hda
    unfold smaller
    rw [if_pos hlt, ite_self, toUInt32_natSingle hsda, if_neg hd0]

theorem burn_gray (hs : s ≤ 255) (hd : d ≤ da) (hda : da ≤ 255) : burn s d s da = s * d := by
  obtain rfl | hs0 := s.eq_zero_or_pos
  · rw [burn_clear_source (hd.trans hda) hda, Nat.zero_mul]
  have hlack : da - d ≤ 255 := by omega
  obtain ⟨hls, hlss⟩ := mul_mul_lt hlack hs hs
  obtain ⟨hsda, -⟩ := mul_mul_lt hs hda hda
  have hle : (da - d) * s ≤ s * da := by
    rw [Nat.mul_comm]
    exact Nat.mul_le_mul_left s (Nat.sub_le da d)
  have hrest : s * da - (da - d) * s = s * d := by
    rw [Nat.mul_comm (da - d), ← Nat.mul_sub, Nat.sub_sub_self hd]
  have hsd : s * d < 2 ^ 24 := (mul_mul_lt hs (hd.trans hda) hda).1
  unfold burn whole
  dsimp only
  rw [ofNat_eq_natSingle (n := s) (by omega), ofNat_eq_natSingle (n := d) (by omega),
    ofNat_eq_natSingle (n := da) (by omega), larger_least hs0 hs, natSingle_sub (by omega) hd,
    natSingle_mul (by omega) (by omega) hls, natSingle_mul hls (by omega) hlss,
    natSingle_mul (by omega) (by omega) hsda, natSingle_div hlss hs0 (by omega),
    smaller_natSingle hsda hls, Nat.min_eq_right hle, natSingle_sub hsda hle, hrest,
    toUInt32_natSingle hsd]

end FloatMix

/-! ## Channels -/

namespace Operator

variable {s d da : Nat}

/-- Burning with an alpha is drawing it under the destination. -/
theorem color_burn_gray (hs : s ≤ 255) (hd : d ≤ da) (hda : da ≤ 255) :
    dstOver.formula.color s d s da = colorBurn.formula.color s d s da := by
  have hsum : s * (255 - da) + d * 255 = s * d + s * (255 - da) + d * (255 - s) := by
    rw [Nat.mul_sub d, Nat.mul_comm d s]
    have := Nat.mul_le_mul_left d hs
    rw [Nat.mul_comm d s] at this
    omega
  have hcolor : colorBurn.formula.color s d s da =
      min 255 (min 255 (div255 (FloatMix.burn s d s da + s * (255 - da) + d * (255 - s)))) := rfl
  rw [hcolor, FloatMix.burn_gray hs hd hda, ← hsum, ← Nat.min_assoc, Nat.min_self]
  rfl

/-- Dodging with an alpha is drawing it over the destination, unless the channel of the destination
is zero and the two alphas cover half a step together. -/
theorem color_dodge_gray_iff (hs : s ≤ 255) (hd : d ≤ da) (hda : da ≤ 255) :
    srcOver.formula.color s d s da = colorDodge.formula.color s d s da ↔
      ¬ (d = 0 ∧ 128 ≤ s * da) := by
  have hcolor : colorDodge.formula.color s d s da =
      min 255 (min 255 (div255 (FloatMix.dodge s d s da + s * (255 - da) + d * (255 - s)))) := rfl
  have hcover := Nat.mul_le_mul_left s hda
  have hpart : s * da + s * (255 - da) = s * 255 := by rw [Nat.mul_sub]; omega
  rw [hcolor, FloatMix.dodge_gray hs (hd.trans hda) hda, ← Nat.min_assoc, Nat.min_self]
  by_cases hzero : d = 0
  · subst hzero
    have hover : srcOver.formula.color s 0 s da = s := by
      rw [color_srcOver da le_rfl hs (Nat.zero_le _), zero_mul255, Nat.add_zero]
    rw [hover, if_pos rfl, Nat.zero_add, Nat.zero_mul, Nat.add_zero,
      div255_eq (by omega)]
    omega
  · rw [if_neg hzero, hpart]
    exact iff_of_true rfl fun h => hzero h.1

end Operator

/-! ## Answers -/

namespace Operator

/-- Nothing happens where the source is transparent, also where floats are used. -/
theorem agrees_clear_source {op : Operator} {d : PixelFormat} (hi : op.traits.idleOnClearSrc) :
    dstCopy.Agrees d .zero32 op := by
  intro cs cd sa da hm
  obtain ⟨rfl, rfl⟩ := hm.source
  refine ⟨fun _ => ?_, fun _ => ?_⟩
  · rw [color_dstCopy 0 0 da hm.cd_le, color_clear_source hi hm.cd_le_da hm.da_le]
  · rw [alpha_zero_source hi hm.da_le]
    exact color_dstCopy 0 0 da hm.da_le

theorem agrees_burn_gray (d : PixelFormat) : dstOver.Agrees d .a8 colorBurn :=
  agrees_gray (fun _ _ _ hs hd hda => color_burn_gray hs hd hda) fun _ _ hs hd =>
    (alpha_joined rfl hs hd).trans (alpha_joined rfl hs hd).symm

/-- Every answer for an operator that works in floats, but for dodging with an alpha, stands for the
operator. -/
theorem stands_simplify_float {op : Operator} {d s : PixelFormat} (hop : ¬ op.isIntegral)
    (hd : d = .prgb32 ∨ d = .xrgb32) (h : ¬ (op = colorDodge ∧ s = .a8)) :
    (op.simplify d s).Stands op d s := by
  have hclear (hi : op.traits.idleOnClearSrc) : Simplified.nothing.Stands op d .zero32 :=
    Simplified.stands_nothing (agrees_clear_source hi)
  cases op with
  | colorDodge =>
    obtain rfl | rfl := hd <;> cases s with
    | zero32 => exact hclear rfl
    | a8 => exact absurd ⟨rfl, rfl⟩ h
    | none | prgb32 | xrgb32 | frgb32 => exact Simplified.stands_keeping
  | colorBurn =>
    obtain rfl | rfl := hd <;> cases s with
    | zero32 => exact hclear rfl
    | a8 =>
      first
        | exact (Simplify.stands_underDst (.inl rfl)).of_agrees (agrees_burn_gray _)
        | exact Simplify.stands_underDst_xrgb32.of_agrees (agrees_burn_gray _)
    | none | prgb32 | xrgb32 | frgb32 => exact Simplified.stands_keeping
  | softLight =>
    obtain rfl | rfl := hd <;> cases s with
    | zero32 => exact hclear rfl
    | none | prgb32 | xrgb32 | a8 | frgb32 => exact Simplified.stands_keeping
  | _ => exact absurd rfl hop

/-- The source of these operators is not replaced. -/
theorem source_simplify_float {op : Operator} (hop : ¬ op.isIntegral) {d : PixelFormat}
    (hd : d = .prgb32 ∨ d = .xrgb32) (s : PixelFormat) (src : UInt32) :
    (op.simplify d s).source src = src := by
  cases op with
  | colorDodge | colorBurn | softLight => obtain rfl | rfl := hd <;> cases s <;> rfl
  | _ => exact absurd rfl hop

/-- A source of which nothing is known is drawn with the operator itself. -/
theorem simplify_float_prgb32 {op : Operator} (hop : ¬ op.isIntegral) {d : PixelFormat}
    (hd : d = .prgb32 ∨ d = .xrgb32) : op.simplify d .prgb32 = .keeping op d .prgb32 := by
  cases op with
  | colorDodge | colorBurn | softLight => obtain rfl | rfl := hd <;> rfl
  | _ => exact absurd rfl hop

end Operator

/-! ## Whole pixels -/

theorem unpack_combine (op : Operator) {d : PixelFormat} (hd : d ≠ .a8) (dst src : UInt32) :
    unpack (op.combine d dst src) =
      ⟨op.formula.color (unpack src).b (unpack dst).b (alphaOf src) (alphaOf dst),
        op.formula.color (unpack src).g (unpack dst).g (alphaOf src) (alphaOf dst),
        op.formula.color (unpack src).r (unpack dst).r (alphaOf src) (alphaOf dst),
        op.formula.alpha (alphaOf src) (alphaOf dst)⟩ := by
  rw [Operator.combine, if_neg hd]
  exact Formula.unpack_onColor op.formula dst src

/-- Pixels with the same alpha are stored alike exactly where they have the same color channels. -/
theorem stored_eq_iff {d : PixelFormat} (hd : d = .prgb32 ∨ d = .xrgb32) {p q : UInt32}
    (ha : alphaOf p = alphaOf q) :
    d.stored p = d.stored q ↔
      (unpack p).b = (unpack q).b ∧ (unpack p).g = (unpack q).g ∧ (unpack p).r = (unpack q).r := by
  refine ⟨fun h => ?_, fun ⟨hb, hg, hr⟩ => ?_⟩
  · have hunpack := congrArg unpack h
    obtain rfl | rfl := hd
    · exact ⟨congrArg Channels.b hunpack, congrArg Channels.g hunpack, congrArg Channels.r hunpack⟩
    · simp only [PixelFormat.stored, unpack_withFullAlpha, Channels.mk.injEq] at hunpack
      exact ⟨hunpack.1, hunpack.2.1, hunpack.2.2.1⟩
  · obtain rfl | rfl := hd
    · have hunpack : unpack p = unpack q := Channels.mk.injEq .. |>.mpr ⟨hb, hg, hr, ha⟩
      exact (pack_unpack p).symm.trans ((congrArg Channels.pack hunpack).trans (pack_unpack q))
    · exact withFullAlpha_congr hb hg hr

/-- An answer that stands for an operator leaves the pixels that the operator leaves. -/
theorem Simplified.Stands.stored_eq {x : Simplified} {op : Operator} {d s : PixelFormat}
    {dst src : UInt32} (hx : x.Stands op d s) (hd : d = .prgb32 ∨ d = .xrgb32)
    (hdst : d.Stores dst) (hsrc : s.Yields src) :
    d.stored (x.op.combine d dst (x.source src)) = d.stored (op.combine d dst src) := by
  obtain rfl | rfl := hd
  · exact hx.combine_eq (.inl rfl) hdst hsrc
  · obtain ⟨hb, hg, hr⟩ := hx.combine_color_eq hdst hsrc
    exact withFullAlpha_congr hb hg hr

theorem PixelFormat.Stores.stored_color_eq {d : PixelFormat} (hd : d = .prgb32 ∨ d = .xrgb32)
    {p : UInt32} (h : d.Stores p) : d.stored p = p := by
  obtain rfl | rfl := hd
  · rfl
  · exact h.withFullAlpha_eq

/-- Dodging with an alpha is drawing it over the destination, but for channels that are zero. -/
theorem stored_dodge_gray_iff {d : PixelFormat} (hd : d = .prgb32 ∨ d = .xrgb32)
    {dst src : UInt32} (hdst : d.Stores dst) (hsrc : PixelFormat.a8.Yields src) :
    d.stored (Operator.srcOver.combine d dst src) =
        d.stored (Operator.colorDodge.combine d dst src) ↔
      ¬ (128 ≤ alphaOf src * alphaOf dst ∧
        ((unpack dst).b = 0 ∨ (unpack dst).g = 0 ∨ (unpack dst).r = 0)) := by
  have hcolor : d ≠ .a8 := by obtain rfl | rfl := hd <;> decide
  have hs := (unpack_le src).2.2.2
  have hda := (unpack_le dst).2.2.2
  have hle {c : Nat} (hc : c ≤ 255) (h : d.KeepsChannel c (alphaOf dst)) : c ≤ alphaOf dst := by
    obtain rfl | rfl := hd
    · exact h
    · exact hc.trans_eq (Eq.symm h)
  have hb := Operator.color_dodge_gray_iff hs (hle (unpack_le dst).1 hdst.1) hda
  have hg := Operator.color_dodge_gray_iff hs (hle (unpack_le dst).2.1 hdst.2.1) hda
  have hr := Operator.color_dodge_gray_iff hs (hle (unpack_le dst).2.2.1 hdst.2.2) hda
  obtain ⟨hsb, hsg, hsr⟩ := hsrc
  have halpha (op : Operator) (hop : op.joinsAlpha) :
      alphaOf (op.combine d dst src) = ColorMix.unionAlpha (alphaOf src) (alphaOf dst) := by
    rw [← unpack_a, unpack_combine op hcolor]
    exact Operator.alpha_joined hop hs hda
  rw [stored_eq_iff hd ((halpha .srcOver rfl).trans (halpha .colorDodge rfl).symm),
    unpack_combine _ hcolor, unpack_combine _ hcolor]
  dsimp only
  rw [show (unpack src).b = alphaOf src from hsb, show (unpack src).g = alphaOf src from hsg,
    show (unpack src).r = alphaOf src from hsr, hb, hg, hr]
  omega

/-- On color destinations, the answers for the operators that work in floats give the pixels that
the operators give, and where nothing is to be drawn the operators leave every pixel as it is; but
for dodging with an alpha, which is answered with drawing over the destination, where a channel of
the destination is zero and the two alphas cover half a step together. -/
theorem simplify_sound_float_iff {op : Operator} (hop : ¬ op.isIntegral) {d s : PixelFormat}
    (hd : d = .prgb32 ∨ d = .xrgb32) {dst src : UInt32} (hdst : d.Stores dst)
    (hsrc : s = .prgb32 ∨ s.Yields src) :
    (d.stored ((op.simplify d s).op.combine d dst src) = d.stored (op.combine d dst src) ∧
        ((op.simplify d s).solid = .skip → d.stored (op.combine d dst src) = dst)) ↔
      ¬ (op = .colorDodge ∧ s = .a8 ∧ 128 ≤ alphaOf src * alphaOf dst ∧
        ((unpack dst).b = 0 ∨ (unpack dst).g = 0 ∨ (unpack dst).r = 0)) := by
  by_cases hdodge : op = .colorDodge ∧ s = .a8
  · obtain ⟨rfl, rfl⟩ := hdodge
    have hover : Operator.colorDodge.simplify d .a8 = .keeping .srcOver d .a8 := by
      obtain rfl | rfl := hd <;> rfl
    have hpixel := stored_dodge_gray_iff hd hdst (hsrc.resolve_left nofun)
    rw [hover]
    constructor
    · rintro ⟨heq, -⟩ ⟨-, -, hshows⟩
      exact hpixel.mp heq hshows
    · exact fun h => ⟨hpixel.mpr fun hshows => h ⟨rfl, rfl, hshows⟩, nofun⟩
  · refine iff_of_true ?_ fun h => hdodge ⟨h.1, h.2.1⟩
    by_cases hprgb : s = .prgb32
    · rw [hprgb, Operator.simplify_float_prgb32 hop hd]
      exact ⟨rfl, nofun⟩
    have hx := Operator.stands_simplify_float hop hd hdodge
    have heq := hx.stored_eq hd hdst (hsrc.resolve_left hprgb)
    rw [Operator.source_simplify_float hop hd] at heq
    refine ⟨heq, fun hskip => ?_⟩
    rw [← heq, hx.skips hskip, Operator.combine_dstCopy, hdst.stored_color_eq hd]

/-- Half an alpha over opaque black shows, over opaque gray it does not. -/
theorem simplify_sound_float_iff_black :
    PixelFormat.prgb32.stored (Operator.srcOver.combine .prgb32 0xFF000000 0x80808080) ≠
        PixelFormat.prgb32.stored (Operator.colorDodge.combine .prgb32 0xFF000000 0x80808080) ∧
      PixelFormat.prgb32.stored (Operator.srcOver.combine .prgb32 0xFF404040 0x80808080) =
        PixelFormat.prgb32.stored (Operator.colorDodge.combine .prgb32 0xFF404040 0x80808080) := by
  have hblack := (@simplify_sound_float_iff .colorDodge nofun .prgb32 .a8 (.inl rfl) 0xFF000000
    0x80808080 (by decide) (.inr (by decide))).not.mpr
  have hgray := (@simplify_sound_float_iff .colorDodge nofun .prgb32 .a8 (.inl rfl) 0xFF404040
    0x80808080 (by decide) (.inr (by decide))).mpr
  refine ⟨fun h => hblack (by decide) ⟨h, nofun⟩, (hgray (by decide)).1⟩

end Scanline
