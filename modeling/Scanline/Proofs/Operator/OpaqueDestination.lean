import Scanline.Proofs.Operator.SimplifySound

/-
  Simplification on destinations without alpha. Their pixels count as opaque, so a rule only has to
  keep the color channels, and may do so for pixels of full alpha alone (`agrees_xrgb32`). Every
  rule does, but one: what a transparent source leaves inside of an opaque destination is black,
  and `dstInside` answers that nothing is drawn.
  `simplify_sound_xrgb32_iff`: an operator is drawn as its answer says, unless it is `dstIn` and
  the source is known to be transparent.
-/

namespace Scanline

/-! ## Operators that agree under opaque pixels -/

namespace Operator
open ColorMix

variable {s : PixelFormat}

/-- Under an opaque destination only the color channels matter, and its alpha is known. -/
theorem agrees_xrgb32 {op op' : Operator}
    (h : ∀ cs cd sa, cs ≤ 255 → cd ≤ 255 → s.GivesChannel cs sa →
      op.formula.color cs cd sa 255 = op'.formula.color cs cd sa 255) :
    op.Agrees .xrgb32 s op' := by
  intro cs cd sa da hm
  obtain rfl : da = 255 := hm.dest
  exact ⟨fun _ => h cs cd sa hm.cs_le hm.cd_le hm.source, fun hd => absurd rfl hd⟩

theorem agrees_xrgb32_full {op op' : Operator} (hs : s = .xrgb32 ∨ s = .frgb32)
    (h : ∀ cs cd, cs ≤ 255 → cd ≤ 255 →
      op.formula.color cs cd 255 255 = op'.formula.color cs cd 255 255) :
    op.Agrees .xrgb32 s op' := by
  refine agrees_xrgb32 fun cs cd sa hcs hcd hgives => ?_
  obtain rfl : sa = 255 := by obtain rfl | rfl := hs <;> exact hgives
  exact h cs cd hcs hcd

/-- Nothing shows under an opaque pixel. -/
theorem color_dstOver_full {cs cd : Nat} (sa : Nat) (hcs : cs ≤ 255) (hcd : cd ≤ 255) :
    dstOver.formula.color cs cd sa 255 = cd := by
  rw [color_dstOver sa hcs hcd le_rfl, Nat.sub_self, mul255_zero, Nat.add_zero]

/-- Two opaque pixels are multiplied channel by channel. -/
theorem color_multiply_full (cs cd : Nat) :
    multiply.formula.color cs cd 255 255 = modulate.formula.color cs cd 255 255 := by
  show min 255 (min 255 (div255 (cd * (cs + 255 - 255) + cs * (255 - 255)))) =
    min 255 (div255 (cs * cd))
  rw [Nat.add_sub_cancel, Nat.sub_self, Nat.mul_zero, Nat.add_zero, Nat.mul_comm,
    ← Nat.min_assoc, Nat.min_self]

/-- What covers the destination and is cut to it is a copy where the destination is opaque. -/
theorem color_srcIn_full (cs cd sa : Nat) :
    srcIn.formula.color cs cd sa 255 = srcCopy.formula.color cs cd sa 255 := rfl

theorem color_srcAtop_full (cs cd sa : Nat) :
    srcAtop.formula.color cs cd sa 255 = srcOver.formula.color cs cd sa 255 := rfl

/-- Outside of an opaque pixel there is nothing. -/
theorem color_srcOut_full (cs cd sa : Nat) : srcOut.formula.color cs cd sa 255 = 0 := by
  simp [formula, Formula.color]

theorem color_dstAtop_full (cs cd sa : Nat) :
    dstAtop.formula.color cs cd sa 255 = dstIn.formula.color cs cd sa 255 := by
  simp [formula, Formula.color]

theorem color_xor_full (cs cd sa : Nat) :
    xor.formula.color cs cd sa 255 = dstOut.formula.color cs cd sa 255 := by
  simp [formula, Formula.color]

theorem color_dstIn_zero (cd : Nat) : dstIn.formula.color 0 cd 0 255 = 0 := by
  simp [formula, Formula.color]

end Operator

/-! ## The rules -/

namespace Simplify
open Simplified Operator PixelFormat

variable {s : PixelFormat}

/-- A transparent destination without alpha is opaque black. -/
theorem stands_clear_xrgb32 : (Simplify.clear xrgb32 s).Stands .clear xrgb32 s := by
  refine ⟨fun cs cd sa da _ => ⟨fun _ => ?_, fun hd => absurd rfl hd⟩, nofun⟩
  exact (color_srcCopy cd 255 da (Nat.zero_le _)).trans (color_clear cs cd sa da).symm

/-- Clearing is what an operator does that leaves no color. -/
theorem agrees_clear_xrgb32 {op : Operator}
    (h : ∀ cs cd sa, s.GivesChannel cs sa → op.formula.color cs cd sa 255 = 0) :
    Operator.clear.Agrees xrgb32 s op :=
  agrees_xrgb32 fun cs cd sa _ _ hgives => (color_clear cs cd sa 255).trans (h cs cd sa hgives).symm

theorem stands_copySrc_xrgb32 : (copySrc xrgb32 s).Stands srcCopy xrgb32 s := by
  cases s <;> exact stands_keeping

theorem stands_overDst_xrgb32 : (overDst xrgb32 s).Stands srcOver xrgb32 s := by
  have hfull {d' s' : PixelFormat} (hs : s = xrgb32 ∨ s = frgb32) :
      (keeping srcCopy d' s').Stands srcOver xrgb32 s :=
    stands_keeping.of_agrees (agrees_full hs (fun _ _ _ => rfl) fun _ => rfl)
  cases s with
  | zero32 => exact stands_idle rfl fun _ => rfl
  | xrgb32 => exact hfull (.inl rfl)
  | frgb32 => exact hfull (.inr rfl)
  | none | prgb32 | a8 => exact stands_keeping

/-- Drawing nothing stands for all that is drawn under opaque pixels. -/
theorem stands_underDst_xrgb32 : (underDst xrgb32 s).Stands dstOver xrgb32 s :=
  stands_nothing <| agrees_xrgb32 fun cs _ sa hcs hcd _ =>
    (color_dstCopy cs sa 255 hcd).trans (color_dstOver_full sa hcs hcd).symm

theorem stands_srcInside_xrgb32 : (srcInside xrgb32 s).Stands srcIn xrgb32 s :=
  stands_copySrc_xrgb32.of_agrees <| agrees_xrgb32 fun cs cd sa _ _ _ =>
    (color_srcIn_full cs cd sa).symm

/-- The one rule that needs a source that is not known to be transparent. -/
theorem stands_dstInside_xrgb32 (hs : s ≠ zero32) : (dstInside xrgb32 s).Stands dstIn xrgb32 s := by
  cases s with
  | zero32 => exact absurd rfl hs
  | xrgb32 => exact stands_nothing (agrees_full (.inl rfl) (fun _ _ _ => rfl) fun _ => rfl)
  | frgb32 => exact stands_nothing (agrees_full (.inr rfl) (fun _ _ _ => rfl) fun _ => rfl)
  | none | prgb32 | a8 => exact stands_keeping

theorem stands_srcOutside_xrgb32 : (srcOutside xrgb32 s).Stands srcOut xrgb32 s :=
  stands_clear_xrgb32.of_agrees <| agrees_clear_xrgb32 fun cs cd sa _ => color_srcOut_full cs cd sa

theorem stands_dstOutside_xrgb32 : (dstOutside xrgb32 s).Stands dstOut xrgb32 s := by
  have hfull (hs : s = xrgb32 ∨ s = frgb32) : (Simplify.clear xrgb32 s).Stands dstOut xrgb32 s :=
    stands_clear_xrgb32.of_agrees (agrees_full hs (fun _ _ _ => rfl) fun _ => rfl)
  cases s with
  | zero32 => exact stands_idle rfl fun _ => rfl
  | xrgb32 => exact hfull (.inl rfl)
  | frgb32 => exact hfull (.inr rfl)
  | none | prgb32 | a8 => exact stands_keeping

theorem stands_srcOnTop_xrgb32 : (srcOnTop xrgb32 s).Stands srcAtop xrgb32 s := by
  have hover : (overDst xrgb32 s).Stands srcAtop xrgb32 s :=
    stands_overDst_xrgb32.of_agrees <| agrees_xrgb32 fun cs cd sa _ _ _ =>
      (color_srcAtop_full cs cd sa).symm
  have hcopy (hs : s = xrgb32 ∨ s = frgb32) : (copySrc xrgb32 s).Stands srcAtop xrgb32 s :=
    stands_copySrc_xrgb32.of_agrees (agrees_xrgb32_full hs fun _ _ _ _ => rfl)
  cases s with
  | prgb32 | zero32 => exact hover
  | xrgb32 => exact hcopy (.inl rfl)
  | frgb32 => exact hcopy (.inr rfl)
  | none | a8 => exact stands_keeping

theorem stands_dstOnTop_xrgb32 : (dstOnTop xrgb32 s).Stands dstAtop xrgb32 s := by
  have hfull (hs : s = xrgb32 ∨ s = frgb32) : nothing.Stands dstAtop xrgb32 s :=
    stands_nothing <| agrees_xrgb32_full hs fun cs cd _ _ => (color_dstAtop_full cs cd 255).symm
  cases s with
  | prgb32 =>
    exact (stands_dstInside_xrgb32 (s := prgb32) nofun).of_agrees <|
      agrees_xrgb32 fun cs cd sa _ _ _ => (color_dstAtop_full cs cd sa).symm
  | zero32 =>
    refine stands_clear_xrgb32.of_agrees (agrees_clear_xrgb32 ?_)
    rintro _ cd _ ⟨rfl, rfl⟩
    exact (color_dstAtop_full 0 cd 0).trans (color_dstIn_zero cd)
  | xrgb32 => exact hfull (.inl rfl)
  | frgb32 => exact hfull (.inr rfl)
  | none | a8 => exact stands_keeping

theorem stands_exclusive_xrgb32 : (exclusive xrgb32 s).Stands xor xrgb32 s := by
  have hfull (hs : s = xrgb32 ∨ s = frgb32) : (Simplify.clear xrgb32 s).Stands xor xrgb32 s := by
    refine stands_clear_xrgb32.of_agrees (agrees_xrgb32_full hs fun cs cd _ _ => ?_)
    exact (color_xor_full cs cd 255).symm
  cases s with
  | zero32 => exact stands_idle rfl fun _ => rfl
  | prgb32 =>
    exact (stands_dstOutside_xrgb32 (s := prgb32)).of_agrees <| agrees_xrgb32 fun cs cd sa _ _ _ =>
      (color_xor_full cs cd sa).symm
  | xrgb32 => exact hfull (.inl rfl)
  | frgb32 => exact hfull (.inr rfl)
  | none | a8 => exact stands_keeping

theorem stands_plus_xrgb32 : (Simplify.plus xrgb32 s).Stands .plus xrgb32 s := by
  cases s with
  | zero32 => exact stands_idle rfl fun _ => rfl
  | none | prgb32 | xrgb32 | a8 | frgb32 => exact stands_keeping

theorem stands_minus_xrgb32 : (Simplify.minus xrgb32 s).Stands .minus xrgb32 s := by
  cases s with
  | zero32 => exact stands_idle rfl fun _ => rfl
  | none | prgb32 | xrgb32 | a8 | frgb32 => exact stands_keeping

theorem stands_modulate_xrgb32 : (Simplify.modulate xrgb32 s).Stands .modulate xrgb32 s := by
  cases s with
  | zero32 =>
    refine ⟨fun cs cd sa da hm => ⟨fun _ => ?_, fun hd => absurd rfl hd⟩, fun hskip => ?_⟩
    · obtain ⟨rfl, rfl⟩ := hm.source
      simp [Simplify.modulate, formula, Formula.uniform, Formula.color, ColorMix.modulate,
        Substitute.color]
    · cases hskip
  | a8 =>
    have hformat : a8 ≠ zero32 := by decide
    refine (stands_dstInside_xrgb32 (s := a8) hformat).of_agrees (agrees_gray ?_ ?_)
    · exact fun s cd da _ _ _ => (color_modulate_gray s cd da).symm
    · exact fun sa da _ _ => (color_modulate_gray sa da da).symm
  | none | prgb32 | xrgb32 | frgb32 => exact stands_keeping

theorem stands_multiply_xrgb32 : (Simplify.multiply xrgb32 s).Stands .multiply xrgb32 s := by
  have hfull (hs : s = xrgb32 ∨ s = frgb32) :
      (keeping .modulate xrgb32 prgb32).Stands .multiply xrgb32 s :=
    stands_keeping.of_agrees <| agrees_xrgb32_full hs fun cs cd _ _ =>
      (color_multiply_full cs cd).symm
  cases s with
  | zero32 => exact stands_idle rfl fun _ => rfl
  | a8 => exact stands_underDst_xrgb32.of_agrees (agrees_under .multiply (by simp) rfl)
  | xrgb32 => exact hfull (.inl rfl)
  | frgb32 => exact hfull (.inr rfl)
  | none | prgb32 => exact stands_keeping

theorem stands_screen_xrgb32 : (Simplify.screen xrgb32 s).Stands .screen xrgb32 s := by
  cases s with
  | zero32 => exact stands_idle rfl fun _ => rfl
  | a8 => exact stands_overDst_xrgb32.of_agrees (agrees_over .screen (by simp) rfl)
  | none | prgb32 | xrgb32 | frgb32 => exact stands_keeping

theorem stands_overlay_xrgb32 : (Simplify.overlay xrgb32 s).Stands .overlay xrgb32 s := by
  cases s with
  | zero32 => exact stands_idle rfl fun _ => rfl
  | none | prgb32 | xrgb32 | a8 | frgb32 => exact stands_keeping

theorem stands_blend_xrgb32 {op : Operator} {pf xf : PixelFormat} {colorless : Colorless}
    (hop : op.isIntegral) (hi : op.traits.idleOnClearSrc) (hc : colorless.Fits op xrgb32) :
    (blend op pf xf colorless xrgb32 s).Stands op xrgb32 s := by
  cases s with
  | zero32 => exact stands_idle hi fun _ => hop
  | a8 =>
    cases colorless with
    | underEither => exact stands_underDst_xrgb32.of_agrees hc
    | overEither => exact stands_overDst_xrgb32.of_agrees hc
    | overDst => exact stands_keeping
  | frgb32 => exact stands_keeping
  | none | prgb32 | xrgb32 => cases colorless <;> exact stands_keeping

end Simplify

/-- Every answer but one stands for the operator that was asked for. -/
theorem Operator.stands_simplify_xrgb32 {op : Operator} {s : PixelFormat} (hop : op.isIntegral)
    (h : ¬ (op = .dstIn ∧ s = .zero32)) : (op.simplify .xrgb32 s).Stands op .xrgb32 s := by
  cases op with
  | srcOver => exact Simplify.stands_overDst_xrgb32
  | srcCopy => exact Simplify.stands_copySrc_xrgb32
  | srcIn => exact Simplify.stands_srcInside_xrgb32
  | srcOut => exact Simplify.stands_srcOutside_xrgb32
  | srcAtop => exact Simplify.stands_srcOnTop_xrgb32
  | dstOver => exact Simplify.stands_underDst_xrgb32
  | dstCopy => exact Simplified.stands_nothing fun _ _ _ _ _ => ⟨fun _ => rfl, fun _ => rfl⟩
  | dstIn => exact Simplify.stands_dstInside_xrgb32 fun hs => h ⟨rfl, hs⟩
  | dstOut => exact Simplify.stands_dstOutside_xrgb32
  | dstAtop => exact Simplify.stands_dstOnTop_xrgb32
  | xor => exact Simplify.stands_exclusive_xrgb32
  | clear => exact Simplify.stands_clear_xrgb32
  | plus => exact Simplify.stands_plus_xrgb32
  | minus => exact Simplify.stands_minus_xrgb32
  | modulate => exact Simplify.stands_modulate_xrgb32
  | multiply => exact Simplify.stands_multiply_xrgb32
  | screen => exact Simplify.stands_screen_xrgb32
  | overlay => exact Simplify.stands_overlay_xrgb32
  | darken =>
    rw [simplify]
    exact Simplify.stands_blend_xrgb32 rfl rfl (Simplify.agrees_under darken (by simp) rfl)
  | linearBurn =>
    rw [simplify]
    exact Simplify.stands_blend_xrgb32 rfl rfl (Simplify.agrees_under linearBurn (by simp) rfl)
  | lighten =>
    rw [simplify]
    exact Simplify.stands_blend_xrgb32 rfl rfl (Simplify.agrees_over lighten (by simp) rfl)
  | linearLight =>
    rw [simplify]
    exact Simplify.stands_blend_xrgb32 rfl rfl (Simplify.agrees_over linearLight (by simp) rfl)
  | pinLight =>
    rw [simplify]
    exact Simplify.stands_blend_xrgb32 rfl rfl (Simplify.agrees_over pinLight (by simp) rfl)
  | hardLight =>
    rw [simplify]
    exact Simplify.stands_blend_xrgb32 rfl rfl (Simplify.agrees_over hardLight (by simp) rfl)
  | difference | exclusion =>
    rw [simplify]
    exact Simplify.stands_blend_xrgb32 rfl rfl trivial
  | colorDodge | colorBurn | softLight => cases hop
  | alphaInv => exact ⟨fun _ _ _ _ _ => ⟨fun _ => rfl, fun _ => rfl⟩, fun hskip => by cases hskip⟩

/-! ## Whole pixels -/

/-- A pixel that counts as opaque is known by its color channels. -/
theorem withFullAlpha_congr {p q : UInt32} (hb : (unpack p).b = (unpack q).b)
    (hg : (unpack p).g = (unpack q).g) (hr : (unpack p).r = (unpack q).r) :
    withFullAlpha p = withFullAlpha q := by
  rw [← pack_unpack (withFullAlpha p), ← pack_unpack (withFullAlpha q), unpack_withFullAlpha,
    unpack_withFullAlpha]
  simp only [hb, hg, hr]

/-- An opaque pixel is kept by a destination without alpha as it is. -/
theorem PixelFormat.Stores.withFullAlpha_eq {p : UInt32} (h : PixelFormat.xrgb32.Stores p) :
    withFullAlpha p = p := by
  have ha : (unpack p).a = 255 := h.1
  rw [← pack_unpack (withFullAlpha p), unpack_withFullAlpha, ← ha]
  exact pack_unpack p

namespace Simplified

/-- An answer that stands for an operator gives the color channels that the operator gives. -/
theorem Stands.combine_color_eq {x : Simplified} {op : Operator} {s : PixelFormat}
    {dst src : UInt32} (hx : x.Stands op .xrgb32 s) (hdst : PixelFormat.xrgb32.Stores dst)
    (hsrc : s.Yields src) :
    let r := unpack (x.op.combine .xrgb32 dst (x.source src))
    let r' := unpack (op.combine .xrgb32 dst src)
    r.b = r'.b ∧ r.g = r'.g ∧ r.r = r'.r := by
  obtain ⟨hsb, hsg, hsr⟩ := hsrc
  obtain ⟨hdb, hdg, hdr⟩ := hdst
  obtain ⟨hsb', hsg', hsr', hsa'⟩ := unpack_le src
  obtain ⟨hdb', hdg', hdr', hda'⟩ := unpack_le dst
  obtain ⟨hb, -⟩ := hx.channels _ _ _ _ ⟨hsb', hdb', hsa', hda', hsb, hdb⟩
  obtain ⟨hg, -⟩ := hx.channels _ _ _ _ ⟨hsg', hdg', hsa', hda', hsg, hdg⟩
  obtain ⟨hr, -⟩ := hx.channels _ _ _ _ ⟨hsr', hdr', hsa', hda', hsr, hdr⟩
  simp only [Operator.combine, reduceCtorEq, if_false, Operator.onColor, Formula.unpack_onColor,
    alphaOf_source, unpack_source]
  have hformat : PixelFormat.xrgb32 ≠ .a8 := by decide
  exact ⟨hb hformat, hg hformat, hr hformat⟩

theorem Stands.drawn_xrgb32_eq {x : Simplified} {op : Operator} {s : PixelFormat}
    {dst src : UInt32} {m : Nat} (hx : x.Stands op .xrgb32 s)
    (hdst : PixelFormat.xrgb32.Stores dst) (hsrc : s.Yields src) (hm : m ≤ 255) :
    x.op.drawn .xrgb32 dst (x.source src) m = op.drawn .xrgb32 dst src m := by
  obtain ⟨hb, hg, hr⟩ := hx.combine_color_eq hdst hsrc
  refine withFullAlpha_congr ?_ ?_ ?_ <;>
    simp only [unpack_applyMask _ _ hm, Channels.zipWith, hb, hg, hr]

end Simplified

/-- On destinations whose pixels are opaque, the answer of `simplify` draws the pixels that the
operator draws, and where it says that nothing is drawn the operator leaves every pixel as it is;
but for `dstIn` with a source that is known to be transparent, which would leave black. -/
theorem simplify_sound_xrgb32_iff {op : Operator} (hop : op.isIntegral) (s : PixelFormat) :
    (∀ dst src m, PixelFormat.xrgb32.Stores dst → s.Yields src → m ≤ 255 →
      (op.simplify .xrgb32 s).op.drawn .xrgb32 dst
            ((op.simplify .xrgb32 s).solid.color?.getD src) m =
          op.drawn .xrgb32 dst src m ∧
        ((op.simplify .xrgb32 s).solid = .skip →
          PixelFormat.xrgb32.stored (op.combine .xrgb32 dst src) = dst)) ↔
      ¬ (op = .dstIn ∧ s = .zero32) := by
  constructor
  · rintro h ⟨rfl, rfl⟩
    -- a white pixel
    have hskip := (h 0xFFFFFFFF 0 255 (by decide) (by decide) le_rfl).2 rfl
    exact absurd hskip (by decide)
  · intro h dst src m hdst hsrc hm
    have hx := Operator.stands_simplify_xrgb32 hop h
    refine ⟨hx.drawn_xrgb32_eq hdst hsrc hm, fun hskip => ?_⟩
    obtain ⟨hb, hg, hr⟩ := hx.combine_color_eq hdst hsrc
    have hkeep := Operator.combine_dstCopy .xrgb32 dst ((op.simplify .xrgb32 s).source src)
    rw [← hx.skips hskip] at hkeep
    exact (withFullAlpha_congr hb hg hr).symm.trans (hkeep.trans hdst.withFullAlpha_eq)

/-- Multiplying by an opaque source is modulating, and half of it is mixed in half. A transparent
source under `dstIn` is the exception. -/
theorem simplify_sound_xrgb32_iff_multiply :
    Operator.modulate.drawn .xrgb32 0xFF804020 0xFF336699 128 =
        Operator.multiply.drawn .xrgb32 0xFF804020 0xFF336699 128 ∧
      Operator.dstCopy.drawn .xrgb32 0xFFFFFFFF 0 255 ≠
        Operator.dstIn.drawn .xrgb32 0xFFFFFFFF 0 255 := by
  have h := (@simplify_sound_xrgb32_iff .multiply rfl .xrgb32).mpr nofun 0xFF804020 0xFF336699 128
    (by decide) (by decide) (by decide)
  exact ⟨h.1, by decide⟩

end Scanline
