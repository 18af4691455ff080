import Scanline.Operator.Simplify
import Scanline.Proofs.Operator.Sources

/-
  Simplification does not show. An answer of `simplify` stands for an operator (`Stands`) when it
  gives the same channels for everything that the two formats allow. There is one lemma for each
  rule, which follows the rule: an answer that comes from another rule stands for that rule's
  operator, and the two operators agree on the formats at hand (`Stands.of_agrees`).
  `simplify_sound`: on premultiplied and on alpha destinations, every pixel that is drawn with the
  answer is the pixel that is drawn with the operator.
-/

namespace Scanline

/-- A color channel and the alphas of a destination and a source that their formats allow. -/
structure Meets (d s : PixelFormat) (cs cd sa da : Nat) : Prop where
  cs_le : cs ≤ 255
  cd_le : cd ≤ 255
  sa_le : sa ≤ 255
  da_le : da ≤ 255
  source : s.GivesChannel cs sa
  dest : d.KeepsChannel cd da

theorem Meets.cd_le_da {d s : PixelFormat} {cs cd sa da : Nat} (h : Meets d s cs cd sa da) :
    cd ≤ da := by
  obtain ⟨_, hcd, _, _, _, hd⟩ := h
  cases d <;> simp only [PixelFormat.KeepsChannel] at hd <;> omega

/-- Two operators give the same channels on the formats, as far as the destination keeps them. -/
def Operator.Agrees (d s : PixelFormat) (op op' : Operator) : Prop :=
  ∀ cs cd sa da, Meets d s cs cd sa da →
    (d ≠ .a8 → op.formula.color cs cd sa da = op'.formula.color cs cd sa da) ∧
      (d ≠ .xrgb32 → op.formula.alpha sa da = op'.formula.alpha sa da)

/-- The color channels and the alpha of a substituted source, otherwise the given ones. -/
def Substitute.color : Substitute → Nat → Nat
  | transparent, _ | opaqueBlack, _ => 0
  | opaqueWhite, _ => 255
  | keep, c | skip, c => c

def Substitute.alpha : Substitute → Nat → Nat
  | transparent, _ => 0
  | opaqueBlack, _ | opaqueWhite, _ => 255
  | keep, a | skip, a => a

namespace Simplified

/-- The source that is drawn in place of the given one. -/
def source (x : Simplified) (src : UInt32) : UInt32 := x.solid.color?.getD src

/-- An answer gives the same channels as an operator, and only says that nothing is drawn where
the destination is kept. -/
structure Stands (x : Simplified) (op : Operator) (d s : PixelFormat) : Prop where
  channels : ∀ cs cd sa da, Meets d s cs cd sa da →
    (d ≠ .a8 → x.op.formula.color (x.solid.color cs) cd (x.solid.alpha sa) da =
      op.formula.color cs cd sa da) ∧
      (d ≠ .xrgb32 → x.op.formula.alpha (x.solid.alpha sa) da = op.formula.alpha sa da)
  skips : x.solid = .skip → x.op = .dstCopy

theorem Stands.of_agrees {x : Simplified} {op op' : Operator} {d s : PixelFormat}
    (hx : x.Stands op d s) (h : op.Agrees d s op') : x.Stands op' d s := by
  refine ⟨fun cs cd sa da hm => ?_, hx.skips⟩
  obtain ⟨hc, ha⟩ := hx.channels cs cd sa da hm
  obtain ⟨hc', ha'⟩ := h cs cd sa da hm
  exact ⟨fun hd => (hc hd).trans (hc' hd), fun hd => (ha hd).trans (ha' hd)⟩

theorem stands_keeping {op : Operator} {d s d' s' : PixelFormat} :
    (keeping op d' s').Stands op d s :=
  ⟨fun _ _ _ _ _ => ⟨fun _ => rfl, fun _ => rfl⟩, nofun⟩

theorem stands_nothing {op : Operator} {d s : PixelFormat} (h : Operator.dstCopy.Agrees d s op) :
    nothing.Stands op d s := ⟨h, fun _ => rfl⟩

end Simplified

/-! ## Operators that agree on formats -/

namespace Operator

/-- Under a destination without color only the alphas matter. -/
theorem agrees_a8 {op op' : Operator} {s : PixelFormat}
    (h : ∀ sa da, sa ≤ 255 → da ≤ 255 → op.formula.alpha sa da = op'.formula.alpha sa da) :
    op.Agrees .a8 s op' :=
  fun _ _ sa da hm => ⟨fun hd => absurd rfl hd, fun _ => h sa da hm.sa_le hm.da_le⟩

/-- Nothing happens where the source is transparent. -/
theorem agrees_zero32 {op : Operator} {d : PixelFormat} (hi : op.traits.idleOnClearSrc)
    (hop : d ≠ .a8 → op.isIntegral) : dstCopy.Agrees d .zero32 op := by
  intro cs cd sa da hm
  obtain ⟨rfl, rfl⟩ := hm.source
  refine ⟨fun hd => ?_, fun _ => ?_⟩
  · rw [color_dstCopy 0 0 da hm.cd_le, color_zero_source (hop hd) hi hm.cd_le_da hm.da_le]
  · rw [alpha_zero_source hi hm.da_le]
    exact color_dstCopy 0 0 da hm.da_le

/-- Sources without undefined alpha have full alpha. -/
theorem agrees_full {op op' : Operator} {d s : PixelFormat} (hs : s = .xrgb32 ∨ s = .frgb32)
    (hc : ∀ cs cd da, op.formula.color cs cd 255 da = op'.formula.color cs cd 255 da)
    (ha : ∀ da, op.formula.alpha 255 da = op'.formula.alpha 255 da) : op.Agrees d s op' := by
  intro cs cd sa da hm
  obtain rfl : sa = 255 := by obtain rfl | rfl := hs <;> exact hm.source
  exact ⟨fun _ => hc cs cd da, fun _ => ha da⟩

theorem agrees_full_a8 {op op' : Operator} {s : PixelFormat} (hs : s = .xrgb32 ∨ s = .frgb32)
    (ha : ∀ da, da ≤ 255 → op.formula.alpha 255 da = op'.formula.alpha 255 da) :
    op.Agrees .a8 s op' := by
  intro cs cd sa da hm
  obtain rfl : sa = 255 := by obtain rfl | rfl := hs <;> exact hm.source
  exact ⟨fun hd => absurd rfl hd, fun _ => ha da hm.da_le⟩

/-- An alpha source has its alpha in every channel. -/
theorem agrees_gray {op op' : Operator} {d : PixelFormat}
    (h : ∀ s cd da, s ≤ 255 → cd ≤ da → da ≤ 255 →
      op.formula.color s cd s da = op'.formula.color s cd s da)
    (ha : ∀ sa da, sa ≤ 255 → da ≤ 255 → op.formula.alpha sa da = op'.formula.alpha sa da) :
    op.Agrees d .a8 op' := by
  intro cs cd sa da hm
  obtain rfl : cs = sa := hm.source
  exact ⟨fun _ => h cs cd da hm.cs_le hm.cd_le_da hm.da_le, fun _ => ha cs da hm.cs_le hm.da_le⟩

/-- Clearing is what happens where a transparent source leaves nothing. -/
theorem agrees_clear_zero32 {op : Operator} {d : PixelFormat}
    (hc : ∀ cd da, op.formula.color 0 cd 0 da = 0) (ha : ∀ da, op.formula.alpha 0 da = 0) :
    clear.Agrees d .zero32 op := by
  intro cs cd sa da hm
  obtain ⟨rfl, rfl⟩ := hm.source
  exact ⟨fun _ => (color_clear 0 cd 0 da).trans (hc cd da).symm,
    fun _ => (alpha_clear 0 da).trans (ha da).symm⟩

end Operator

/-- Under a destination without color an opaque source may be white. -/
theorem Simplified.stands_white {op op' : Operator} {s d' s' : PixelFormat}
    (hs : s = .xrgb32 ∨ s = .frgb32)
    (h : ∀ da, op.formula.alpha 255 da = op'.formula.alpha 255 da) :
    (Simplified.mk op d' s' .opaqueWhite).Stands op' .a8 s := by
  refine ⟨fun cs cd sa da hm => ?_, nofun⟩
  obtain rfl : sa = 255 := by obtain rfl | rfl := hs <;> exact hm.source
  exact ⟨fun hd => absurd rfl hd, fun _ => h da⟩

/-! ## The rules -/

namespace Simplify
open Simplified Operator PixelFormat

variable {d s : PixelFormat}

theorem stands_clear (hd : d = prgb32 ∨ d = a8) : (Simplify.clear d s).Stands .clear d s := by
  obtain rfl | rfl := hd <;> refine ⟨fun cs cd sa da _ => ⟨fun _ => ?_, fun _ => ?_⟩, nofun⟩
  · exact (color_srcCopy cd 0 da (Nat.zero_le _)).trans (color_clear cs cd sa da).symm
  · exact (alpha_srcCopy da (Nat.zero_le _)).trans (alpha_clear sa da).symm
  · exact (color_srcCopy cd 0 da (Nat.zero_le _)).trans (color_clear cs cd sa da).symm
  · exact (alpha_srcCopy da (Nat.zero_le _)).trans (alpha_clear sa da).symm

theorem stands_copySrc (hd : d = prgb32 ∨ d = a8) : (copySrc d s).Stands srcCopy d s := by
  obtain rfl | rfl := hd
  · cases s <;> exact stands_keeping
  · cases s with
    | zero32 =>
      refine (stands_clear (.inr rfl)).of_agrees (agrees_clear_zero32 ?_ ?_)
      · exact fun cd da => color_srcCopy cd 0 da (Nat.zero_le _)
      · exact fun da => alpha_srcCopy da (Nat.zero_le _)
    | xrgb32 | frgb32 => exact stands_white (by simp) fun _ => rfl
    | none | prgb32 | a8 => exact stands_keeping

/-- Drawing nothing stands for an operator that a transparent source leaves idle. -/
theorem stands_idle {op : Operator} (hi : op.traits.idleOnClearSrc)
    (hop : d ≠ a8 → op.isIntegral) : nothing.Stands op d zero32 :=
  stands_nothing (agrees_zero32 hi hop)

theorem stands_overDst (hd : d = prgb32 ∨ d = a8) : (overDst d s).Stands srcOver d s := by
  have hzero : nothing.Stands srcOver d zero32 := stands_idle rfl fun _ => rfl
  have hfull (hs : s = xrgb32 ∨ s = frgb32) : (copySrc d s).Stands srcOver d s :=
    (stands_copySrc hd).of_agrees (agrees_full hs (fun _ _ _ => rfl) fun _ => rfl)
  obtain rfl | rfl := hd <;> cases s with
  | zero32 => exact hzero
  | xrgb32 => exact hfull (.inl rfl)
  | frgb32 => exact hfull (.inr rfl)
  | none | prgb32 | a8 => exact stands_keeping

/-- On alpha, drawing over the destination stands for all that joins the alphas. -/
theorem stands_overDst_a8 {op : Operator} (hj : op.joinsAlpha) :
    (overDst a8 s).Stands op a8 s :=
  (stands_overDst (.inr rfl)).of_agrees <| agrees_a8 fun _ _ hs hd =>
    (alpha_joined rfl hs hd).trans (alpha_joined hj hs hd).symm

theorem stands_underDst (hd : d = prgb32 ∨ d = a8) : (underDst d s).Stands dstOver d s := by
  obtain rfl | rfl := hd
  · cases s with
    | zero32 => exact stands_idle rfl fun _ => rfl
    | none | prgb32 | xrgb32 | a8 | frgb32 => exact stands_keeping
  · exact stands_overDst_a8 rfl

theorem stands_underDst_a8 {op : Operator} (hj : op.joinsAlpha) :
    (underDst a8 s).Stands op a8 s := stands_overDst_a8 hj

theorem stands_srcInside (hd : d = prgb32 ∨ d = a8) : (srcInside d s).Stands srcIn d s := by
  have hfull (hs : s = xrgb32 ∨ s = frgb32) : nothing.Stands srcIn a8 s :=
    stands_nothing <| agrees_full_a8 hs fun da hda => by
      rw [alpha_dstCopy 255 hda, ← alpha_dstIn]
      exact (alpha_dstCopy 255 hda).symm
  obtain rfl | rfl := hd
  · cases s <;> exact stands_keeping
  · cases s with
    | zero32 =>
      refine (stands_clear (.inr rfl)).of_agrees (agrees_clear_zero32 ?_ ?_) <;>
        simp [formula, Formula.color, Formula.alpha]
    | xrgb32 => exact hfull (.inl rfl)
    | frgb32 => exact hfull (.inr rfl)
    | none | prgb32 | a8 => exact stands_keeping

theorem stands_srcInside_a8 {op : Operator}
    (h : ∀ sa da, srcIn.formula.alpha sa da = op.formula.alpha sa da) :
    (srcInside a8 s).Stands op a8 s :=
  (stands_srcInside (.inr rfl)).of_agrees (agrees_a8 fun sa da _ _ => h sa da)

theorem stands_dstInside (hd : d = prgb32 ∨ d = a8) : (dstInside d s).Stands dstIn d s := by
  obtain rfl | rfl := hd
  · cases s with
    | zero32 =>
      have hcopy : srcCopy.Agrees prgb32 zero32 dstIn := by
        intro cs cd sa da hm
        obtain ⟨rfl, rfl⟩ := hm.source
        simp [formula, Formula.color, Formula.alpha]
      exact Stands.of_agrees stands_keeping hcopy
    | xrgb32 =>
      exact stands_nothing (agrees_full (.inl rfl) (fun _ _ _ => rfl) fun _ => rfl)
    | frgb32 =>
      exact stands_nothing (agrees_full (.inr rfl) (fun _ _ _ => rfl) fun _ => rfl)
    | none | prgb32 | a8 => exact stands_keeping
  · exact stands_srcInside_a8 fun sa da => (alpha_dstIn sa da).symm

theorem stands_srcOutside (hd : d = prgb32 ∨ d = a8) : (srcOutside d s).Stands srcOut d s := by
  have hzero : (Simplify.clear d zero32).Stands srcOut d zero32 := by
    refine (stands_clear hd).of_agrees (agrees_clear_zero32 ?_ ?_) <;>
      simp [formula, Formula.color, Formula.alpha]
  obtain rfl | rfl := hd
  · cases s with
    | zero32 => exact hzero
    | none | prgb32 | xrgb32 | a8 | frgb32 => exact stands_keeping
  · cases s with
    | zero32 => exact hzero
    | xrgb32 => exact stands_white (.inl rfl) alpha_alphaInv
    | frgb32 => exact stands_white (.inr rfl) alpha_alphaInv
    | none | prgb32 | a8 => exact stands_keeping

theorem stands_dstOutside (hd : d = prgb32 ∨ d = a8) : (dstOutside d s).Stands dstOut d s := by
  have hzero : nothing.Stands dstOut d zero32 := stands_idle rfl fun _ => rfl
  have hfull (hs : s = xrgb32 ∨ s = frgb32) : (Simplify.clear d s).Stands dstOut d s :=
    (stands_clear hd).of_agrees (agrees_full hs (fun _ _ _ => rfl) fun _ => rfl)
  obtain rfl | rfl := hd <;> cases s with
  | zero32 => exact hzero
  | xrgb32 => exact hfull (.inl rfl)
  | frgb32 => exact hfull (.inr rfl)
  | none | prgb32 | a8 => exact stands_keeping

theorem stands_srcOnTop (hd : d = prgb32 ∨ d = a8) : (srcOnTop d s).Stands srcAtop d s := by
  obtain rfl | rfl := hd
  · have hfull (hs : s = xrgb32 ∨ s = frgb32) : (srcInside prgb32 s).Stands srcAtop prgb32 s :=
      (stands_srcInside (.inl rfl)).of_agrees (agrees_full hs (fun _ _ _ => rfl) fun _ => rfl)
    cases s with
    | zero32 => exact stands_idle rfl fun _ => rfl
    | xrgb32 => exact hfull (.inl rfl)
    | frgb32 => exact hfull (.inr rfl)
    | none | prgb32 | a8 => exact stands_keeping
  · exact stands_nothing <| agrees_a8 fun sa da hs hda =>
      (alpha_dstCopy sa hda).trans (alpha_srcAtop hs hda).symm

theorem stands_dstOnTop (hd : d = prgb32 ∨ d = a8) : (dstOnTop d s).Stands dstAtop d s := by
  obtain rfl | rfl := hd
  · have hfull (hs : s = xrgb32 ∨ s = frgb32) : (underDst prgb32 s).Stands dstAtop prgb32 s :=
      (stands_underDst (.inl rfl)).of_agrees (agrees_full hs (fun _ _ _ => rfl) fun _ => rfl)
    cases s with
    | zero32 =>
      refine (stands_clear (.inl rfl)).of_agrees (agrees_clear_zero32 ?_ ?_) <;>
        simp [formula, Formula.color, Formula.alpha]
    | xrgb32 => exact hfull (.inl rfl)
    | frgb32 => exact hfull (.inr rfl)
    | none | prgb32 | a8 => exact stands_keeping
  · exact (stands_copySrc (.inr rfl)).of_agrees <| agrees_a8 fun sa da hs hda =>
      (alpha_srcCopy da hs).trans (alpha_dstAtop hs hda).symm

theorem stands_exclusive (hd : d = prgb32 ∨ d = a8) : (exclusive d s).Stands xor d s := by
  obtain rfl | rfl := hd
  · have hfull (hs : s = xrgb32 ∨ s = frgb32) : (srcOutside prgb32 s).Stands xor prgb32 s :=
      (stands_srcOutside (.inl rfl)).of_agrees (agrees_full hs (fun _ _ _ => rfl) fun _ => rfl)
    cases s with
    | zero32 => exact stands_idle rfl fun _ => rfl
    | xrgb32 => exact hfull (.inl rfl)
    | frgb32 => exact hfull (.inr rfl)
    | none | prgb32 | a8 => exact stands_keeping
  · cases s with
    | zero32 => exact stands_idle rfl fun _ => rfl
    | xrgb32 => exact stands_white (.inl rfl) alpha_alphaInv
    | frgb32 => exact stands_white (.inr rfl) alpha_alphaInv
    | none | prgb32 | a8 => exact stands_keeping

theorem stands_plus (hd : d = prgb32 ∨ d = a8) : (Simplify.plus d s).Stands .plus d s := by
  have hzero : nothing.Stands .plus d zero32 := stands_idle rfl fun _ => rfl
  obtain rfl | rfl := hd
  · cases s with
    | zero32 => exact hzero
    | none | prgb32 | xrgb32 | a8 | frgb32 => exact stands_keeping
  · cases s with
    | zero32 => exact hzero
    | xrgb32 => exact stands_white (.inl rfl) fun _ => rfl
    | frgb32 => exact stands_white (.inr rfl) fun _ => rfl
    | none | prgb32 | a8 => exact stands_keeping

theorem stands_minus (hd : d = prgb32 ∨ d = a8) : (Simplify.minus d s).Stands .minus d s := by
  obtain rfl | rfl := hd
  · cases s with
    | zero32 => exact stands_idle rfl fun _ => rfl
    | none | prgb32 | xrgb32 | a8 | frgb32 => exact stands_keeping
  · exact stands_overDst_a8 rfl

theorem stands_modulate (hd : d = prgb32 ∨ d = a8) :
    (Simplify.modulate d s).Stands .modulate d s := by
  obtain rfl | rfl := hd
  · cases s with
    | zero32 =>
      refine ⟨fun cs cd sa da hm => ?_, nofun⟩
      obtain ⟨rfl, rfl⟩ := hm.source
      simp [Simplify.modulate, formula, Formula.uniform, Formula.color, Formula.alpha,
        ColorMix.modulate, Substitute.color, Substitute.alpha]
    | a8 =>
      refine (stands_dstInside (.inl rfl)).of_agrees (agrees_gray ?_ ?_)
      · exact fun s cd da _ _ _ => (color_modulate_gray s cd da).symm
      · exact fun sa da _ _ => (color_modulate_gray sa da da).symm
    | none | prgb32 | xrgb32 | frgb32 => exact stands_keeping
  · exact stands_srcInside_a8 fun sa da =>
      (alpha_dstIn sa da).symm.trans (color_modulate_gray sa da da).symm

theorem agrees_under (op : Operator) (hop : op ∈ [Operator.multiply, darken, linearBurn])
    (hj : op.joinsAlpha) : dstOver.Agrees d a8 op :=
  agrees_gray (fun _ _ _ hs hd ha => (color_gray_source_under hop hs hd ha).symm)
    fun _ _ hs hd => (alpha_joined rfl hs hd).trans (alpha_joined hj hs hd).symm

theorem agrees_over (op : Operator)
    (hop : op ∈ [Operator.screen, lighten, linearLight, pinLight, hardLight])
    (hj : op.joinsAlpha) : srcOver.Agrees d a8 op :=
  agrees_gray (fun _ _ _ hs hd ha => (color_gray_source_over hop hs hd ha).symm)
    fun _ _ hs hd => (alpha_joined rfl hs hd).trans (alpha_joined hj hs hd).symm

theorem stands_multiply (hd : d = prgb32 ∨ d = a8) :
    (Simplify.multiply d s).Stands .multiply d s := by
  obtain rfl | rfl := hd
  · cases s with
    | zero32 => exact stands_idle rfl fun _ => rfl
    | a8 => exact (stands_underDst (.inl rfl)).of_agrees (agrees_under .multiply (by simp) rfl)
    | none | prgb32 | xrgb32 | frgb32 => exact stands_keeping
  · exact stands_underDst_a8 rfl

theorem stands_screen (hd : d = prgb32 ∨ d = a8) : (Simplify.screen d s).Stands .screen d s := by
  obtain rfl | rfl := hd
  · cases s with
    | zero32 => exact stands_idle rfl fun _ => rfl
    | a8 => exact (stands_overDst (.inl rfl)).of_agrees (agrees_over .screen (by simp) rfl)
    | none | prgb32 | xrgb32 | frgb32 => exact stands_keeping
  · exact stands_overDst_a8 rfl

theorem stands_overlay (hd : d = prgb32 ∨ d = a8) :
    (Simplify.overlay d s).Stands .overlay d s := by
  obtain rfl | rfl := hd
  · cases s with
    | zero32 => exact stands_idle rfl fun _ => rfl
    | none | prgb32 | xrgb32 | a8 | frgb32 => exact stands_keeping
  · exact stands_overDst_a8 rfl

/-- What the shared rules need to know of an operator that meets an alpha source. -/
def Colorless.Fits (colorless : Colorless) (op : Operator) (d : PixelFormat) : Prop :=
  match colorless with
  | .underEither => dstOver.Agrees d a8 op
  | .overEither => srcOver.Agrees d a8 op
  | .overDst => True

theorem stands_blend {op : Operator} {pf xf : PixelFormat} {colorless : Colorless}
    (hd : d = prgb32 ∨ d = a8) (hi : op.traits.idleOnClearSrc) (hj : op.joinsAlpha)
    (hop : d = prgb32 → op.isIntegral) (hc : d = prgb32 → colorless.Fits op d) :
    (blend op pf xf colorless d s).Stands op d s := by
  obtain rfl | rfl := hd
  · cases s with
    | zero32 => exact stands_idle hi fun _ => hop rfl
    | a8 =>
      cases colorless with
      | underEither => exact (stands_underDst (.inl rfl)).of_agrees (hc rfl)
      | overEither => exact (stands_overDst (.inl rfl)).of_agrees (hc rfl)
      | overDst => exact stands_keeping
    | frgb32 => exact stands_keeping
    | none | prgb32 | xrgb32 => cases colorless <;> exact stands_keeping
  · -- the rules for a destination without color do not look at the source
    have hover : (blend op pf xf colorless a8 s) = overDst a8 s := by
      cases colorless <;> cases s <;> rfl
    rw [hover]
    exact stands_overDst_a8 hj

end Simplify

/-- Every answer stands for the operator that was asked for. -/
theorem Operator.stands_simplify {op : Operator} {d s : PixelFormat}
    (hd : d = .prgb32 ∨ d = .a8) (hop : d = .prgb32 → op.isIntegral) :
    (op.simplify d s).Stands op d s := by
  cases op with
  | srcOver => exact Simplify.stands_overDst hd
  | srcCopy => exact Simplify.stands_copySrc hd
  | srcIn => exact Simplify.stands_srcInside hd
  | srcOut => exact Simplify.stands_srcOutside hd
  | srcAtop => exact Simplify.stands_srcOnTop hd
  | dstOver => exact Simplify.stands_underDst hd
  | dstCopy => exact Simplified.stands_nothing fun _ _ _ _ _ => ⟨fun _ => rfl, fun _ => rfl⟩
  | dstIn => exact Simplify.stands_dstInside hd
  | dstOut => exact Simplify.stands_dstOutside hd
  | dstAtop => exact Simplify.stands_dstOnTop hd
  | xor => exact Simplify.stands_exclusive hd
  | clear => exact Simplify.stands_clear hd
  | plus => exact Simplify.stands_plus hd
  | minus => exact Simplify.stands_minus hd
  | modulate => exact Simplify.stands_modulate hd
  | multiply => exact Simplify.stands_multiply hd
  | screen => exact Simplify.stands_screen hd
  | overlay => exact Simplify.stands_overlay hd
  | darken =>
    rw [simplify]
    exact Simplify.stands_blend hd rfl rfl hop fun _ => Simplify.agrees_under darken (by simp) rfl
  | linearBurn =>
    rw [simplify]
    exact Simplify.stands_blend hd rfl rfl hop fun _ =>
      Simplify.agrees_under linearBurn (by simp) rfl
  | lighten =>
    rw [simplify]
    exact Simplify.stands_blend hd rfl rfl hop fun _ => Simplify.agrees_over lighten (by simp) rfl
  | linearLight =>
    rw [simplify]
    exact Simplify.stands_blend hd rfl rfl hop fun _ =>
      Simplify.agrees_over linearLight (by simp) rfl
  | pinLight =>
    rw [simplify]
    exact Simplify.stands_blend hd rfl rfl hop fun _ => Simplify.agrees_over pinLight (by simp) rfl
  | hardLight =>
    rw [simplify]
    exact Simplify.stands_blend hd rfl rfl hop fun _ => Simplify.agrees_over hardLight (by simp) rfl
  | colorDodge | colorBurn =>
    rw [simplify]
    exact Simplify.stands_blend hd rfl rfl hop fun h => nomatch hop h
  | softLight | difference | exclusion =>
    rw [simplify]
    exact Simplify.stands_blend hd rfl rfl hop fun _ => trivial
  | alphaInv => exact ⟨fun _ _ _ _ _ => ⟨fun _ => rfl, fun _ => rfl⟩, nofun⟩

/-! ## Whole pixels -/

namespace Simplified

theorem unpack_source (x : Simplified) (src : UInt32) :
    unpack (x.source src) =
      ⟨x.solid.color (unpack src).b, x.solid.color (unpack src).g, x.solid.color (unpack src).r,
        x.solid.alpha (alphaOf src)⟩ := by
  obtain ⟨op, d, s, solid⟩ := x
  cases solid with
  | keep | skip => rfl
  | transparent => exact (by decide : unpack 0x00000000 = ⟨0, 0, 0, 0⟩)
  | opaqueBlack => exact (by decide : unpack 0xFF000000 = ⟨0, 0, 0, 255⟩)
  | opaqueWhite => exact (by decide : unpack 0xFFFFFFFF = ⟨255, 255, 255, 255⟩)

theorem alphaOf_source (x : Simplified) (src : UInt32) :
    alphaOf (x.source src) = x.solid.alpha (alphaOf src) := by
  rw [← unpack_a, unpack_source]

/-- An answer that stands for an operator gives its pixels. -/
theorem Stands.combine_eq {x : Simplified} {op : Operator} {d s : PixelFormat} {dst src : UInt32}
    (hx : x.Stands op d s) (hd : d = .prgb32 ∨ d = .a8) (hdst : d.Stores dst)
    (hsrc : s.Yields src) : x.op.combine d dst (x.source src) = op.combine d dst src := by
  obtain ⟨hsb, hsg, hsr⟩ := hsrc
  obtain ⟨hdb, hdg, hdr⟩ := hdst
  obtain ⟨hsb', hsg', hsr', hsa'⟩ := unpack_le src
  obtain ⟨hdb', hdg', hdr', hda'⟩ := unpack_le dst
  obtain ⟨hb, hba⟩ := hx.channels _ _ _ _ ⟨hsb', hdb', hsa', hda', hsb, hdb⟩
  obtain ⟨hg, -⟩ := hx.channels _ _ _ _ ⟨hsg', hdg', hsa', hda', hsg, hdg⟩
  obtain ⟨hr, -⟩ := hx.channels _ _ _ _ ⟨hsr', hdr', hsa', hda', hsr, hdr⟩
  obtain rfl | rfl := hd
  · have hcolor : PixelFormat.prgb32 ≠ .a8 := by decide
    have halpha : PixelFormat.prgb32 ≠ .xrgb32 := by decide
    simp only [Operator.combine, reduceCtorEq, if_false, Operator.onColor, Formula.onColor_eq,
      alphaOf_source, unpack_source, hb hcolor, hg hcolor, hr hcolor, hba halpha]
  · have halpha : PixelFormat.a8 ≠ .xrgb32 := by decide
    simp only [Operator.combine, if_true, Operator.onAlpha, Formula.onAlpha_eq, alphaOf_source,
      hba halpha]

end Simplified

theorem Operator.combine_dstCopy (d : PixelFormat) (dst src : UInt32) :
    d.stored (dstCopy.combine d dst src) = d.stored dst := by
  obtain ⟨hb, hg, hr, ha⟩ := unpack_le dst
  by_cases hd : d = .a8
  · subst hd
    show ofAlpha (alphaOf (dstCopy.formula.onAlpha dst src)) = ofAlpha (alphaOf dst)
    rw [Formula.onAlpha_eq, alpha_dstCopy _ ha, alphaOf_ofAlpha (alphaOf_lt dst)]
  · rw [Operator.combine, if_neg hd, onColor, Formula.onColor_eq, color_dstCopy _ _ _ hb,
      color_dstCopy _ _ _ hg, color_dstCopy _ _ _ hr, alpha_dstCopy _ ha]
    exact congrArg d.stored (pack_unpack dst)

/-- The answer of `simplify` draws the pixels that the operator draws, and where it says that
nothing is drawn the operator leaves every pixel as it is. -/
theorem simplify_sound {op : Operator} {d s : PixelFormat} {dst src : UInt32}
    (hd : d = .prgb32 ∨ d = .a8) (hop : d = .prgb32 → op.isIntegral) (hdst : d.Stores dst)
    (hsrc : s.Yields src) (m : Nat) :
    (op.simplify d s).op.drawn d dst ((op.simplify d s).solid.color?.getD src) m =
        op.drawn d dst src m ∧
      ((op.simplify d s).solid = .skip → d.stored (op.combine d dst src) = dst) := by
  have hx := Operator.stands_simplify (s := s) hd hop
  have hcombine := hx.combine_eq hd hdst hsrc
  refine ⟨?_, fun hskip => ?_⟩
  · exact congrArg (fun p => d.stored (applyMask p dst m)) hcombine
  · rw [← hcombine, hx.skips hskip, Operator.combine_dstCopy, hdst.stored_eq hd]

/-- Screening a pixel without color is drawing it over the destination. -/
theorem simplify_sound_screen_gray :
    Operator.srcOver.drawn .prgb32 0x80402010 0x66666666 200 =
      Operator.screen.drawn .prgb32 0x80402010 0x66666666 200 := by
  have h := @simplify_sound .screen .prgb32 .a8 0x80402010 0x66666666 (.inl rfl) (fun _ => rfl)
    (by decide) (by decide) 200
  exact h.1

end Scanline
