import Scanline.Operator.Formula
import Scanline.Proofs.Numeric.Singles
import Scanline.Proofs.Operator.PorterDuff

/-
  What the record of an operator promises: occasions on which it changes nothing, and parts of
  the two pixels that it does not read (`OperatorTraits.promises`). On premultiplied pixels every
  promise is kept but one (`Operator.broken_promise_iff`): multiplying is said to do nothing to a
  clear destination, and makes of it the source (`onColor_multiply_clear_dst`). The mixes in floats
  keep the destination under a clear source, too: what they add to it has a zero for a factor, and
  everything else stays far from overflow.
-/

namespace Scanline

/-! ## Float mixes of a clear source -/

namespace FloatMix

/-- A byte stands for a single float of its own, and comes back from a fraction of 255. -/
theorem byte_single {n : Nat} (h : n ≤ 255) :
    Within (-16) (Float32.ofNat n) ∧ nearestByte (Float32.ofNat n / 255 * 255) = n := by
  have hall : ∀ n < 256,
      Within (-16) (Float32.ofNat n) ∧ nearestByte (Float32.ofNat n / 255 * 255) = n := by
    decide +kernel
  exact hall n (by omega)

theorem isZero_ofNat : IsZero (Float32.ofNat 0) := ⟨.positive, rfl⟩

theorem atLeast_least : AtLeast (-33) 0.001 := ⟨_, _, _, rfl, by decide⟩

theorem atLeast_255 : AtLeast (-16) 255 := ⟨_, _, _, rfl, by decide⟩

theorem whole_of_isZero {x : Float32} (h : IsZero x) : whole x = 0 := by
  obtain ⟨s, hs⟩ := h
  have hwhole : whole x = x.toModel.unpack.toUInt32.toNat := rfl
  rw [hwhole, hs]
  rfl

theorem nearestByte_of_isZero {x : Float32} (h : IsZero x) : nearestByte x = 0 := by
  obtain ⟨s, hs⟩ := h.sub isZero_ofNat
  have hhalf : ¬ 0.5 ≤ x - Float32.ofNat 0 := by
    rw [le_iff_unpack, hs]
    cases s <;> decide
  unfold nearestByte
  dsimp only
  rw [whole_of_isZero h, if_neg hhalf]
  rfl

variable {d da : Nat} (hd : d ≤ 255) (hda : da ≤ 255)
include hd hda

theorem dodge_clear_source : dodge 0 d 0 da = 0 := by
  have hd' := (byte_single hd).1
  have hda' := (byte_single hda).1
  have hzero := isZero_ofNat.within (-16)
  have hdivisor : AtLeast (-33) (larger (Float32.ofNat 0 - Float32.ofNat 0) 0.001) :=
    ((isZero_ofNat.sub isZero_ofNat).within (-16)).atLeast_larger atLeast_least
  have hquotient := ((hd'.mul_isZero isZero_ofNat).mul hzero).div hdivisor
  exact whole_of_isZero (hquotient.smaller (isZero_ofNat.mul hda'))

theorem burn_clear_source : burn 0 d 0 da = 0 := by
  have hd' := (byte_single hd).1
  have hda' := (byte_single hda).1
  have hzero := isZero_ofNat.within 0
  have hlack : Within 0 (Float32.ofNat da - Float32.ofNat d) :=
    hda'.sub hd' (by decide) (by decide) (by decide)
  have hdivisor : AtLeast (-33) (larger (Float32.ofNat 0) 0.001) :=
    hzero.atLeast_larger atLeast_least
  have hquotient := ((hlack.mul_isZero isZero_ofNat).mul hzero).div hdivisor
  have hjoint := isZero_ofNat.mul hda'
  exact whole_of_isZero (hjoint.sub (hjoint.smaller hquotient))

theorem softLight_clear_source : softLight 0 d 0 da = d := by
  have hfraction {n : Nat} (h : n ≤ 255) : Within 1 (Float32.ofNat n / 255) :=
    (byte_single h).1.div atLeast_255 (by decide) (by decide) (by decide)
  have hone : Within 35 1 := by decide
  have hsource : IsZero (Float32.ofNat 0 / 255) := ⟨.positive, rfl⟩
  have hk : IsZero (2 * (Float32.ofNat 0 / 255) - Float32.ofNat 0 / 255) := ⟨.positive, rfl⟩
  have hdark : 2 * (Float32.ofNat 0 / 255) - Float32.ofNat 0 / 255 ≤ 0 := by decide
  unfold softLight
  dsimp only
  rw [if_pos hdark]
  have hback := (byte_single hd).2
  have hd' := hfraction hd
  have hda' := hfraction hda
  generalize Float32.ofNat d / 255 = fd at hback hd' ⊢
  generalize Float32.ofNat da / 255 = fda at hda' ⊢
  -- the color without its alpha, and what is made of it, stay far from overflow
  have hc : Within 35 (fd / larger fda 0.001) :=
    hd'.div (hda'.atLeast_larger atLeast_least) (by decide) (by decide) (by decide)
  have hrest : Within 37 (1 - fd / larger fda 0.001) :=
    hone.sub hc (by decide) (by decide) (by decide)
  have hx : Within 97 (fd / larger fda 0.001 * (1 - fd / larger fda 0.001)) :=
    hc.mul hrest (by decide) (by decide) (by decide)
  have houtside : Within 37 (1 - fda) :=
    hone.sub (hda'.mono (by decide)) (by decide) (by decide) (by decide)
  have hover := hsource.mul houtside
  have hshade := (hk.mul hda').mul hx
  by_cases hzero : IsZero fd
  · have hsum := (hzero.add_isZero hover).add_isZero hshade
    have hbyte : Within (-16) 255 := by decide
    rw [nearestByte_of_isZero (hsum.mul hbyte), ← hback, nearestByte_of_isZero (hzero.mul hbyte)]
  · rw [hover.add hd' hzero, hshade.add hd' hzero, hback]

end FloatMix

/-! ## Promises -/

/-- When an operator may promise to change nothing. -/
inductive Occasion where
  | always
  | clearDst
  | fullDst
  | clearSrc
  | fullSrc

/-- The occasion for pixels with the alphas `sa` and `da`. -/
def Occasion.Holds (sa da : Nat) : Occasion → Prop
  | always => True
  | clearDst => da = 0
  | fullDst => da = 255
  | clearSrc => sa = 0
  | fullSrc => sa = 255

/-- What of a destination and a source an operator may promise not to read. -/
inductive Part where
  | dstColor
  | dstAlpha
  | srcColor
  | srcAlpha

/-- A destination and a source differ from two other pixels in no other part. -/
def Part.SameElsewhere (d s d' s' : Channels) : Part → Prop
  | dstColor => d.a = d'.a ∧ s = s'
  | dstAlpha => { d with a := 0 } = { d' with a := 0 } ∧ s = s'
  | srcColor => s.a = s'.a ∧ d = d'
  | srcAlpha => { s with a := 0 } = { s' with a := 0 } ∧ d = d'

/-- What can be known of an operator without working it out. -/
inductive Promise where
  /-- Nothing changes on the occasion. -/
  | idle (on : Occasion)
  /-- The part is not read. -/
  | unread (part : Part)

/-- The promises in the record of an operator. -/
def OperatorTraits.promises (t : OperatorTraits) : Promise → Bool
  | .idle .always => t.idle
  | .idle .clearDst => t.idleOnClearDst
  | .idle .fullDst => t.idleOnFullDst
  | .idle .clearSrc => t.idleOnClearSrc
  | .idle .fullSrc => t.idleOnFullSrc
  | .unread .dstColor => !t.dstColor
  | .unread .dstAlpha => !t.dstAlpha
  | .unread .srcColor => !t.srcColor
  | .unread .srcAlpha => !t.srcAlpha

/-- The operator does to premultiplied pixels what is promised. -/
def Promise.KeptBy (op : Operator) : Promise → Prop
  | idle on => ∀ dst src, Premultiplied dst → Premultiplied src →
      on.Holds (alphaOf src) (alphaOf dst) → op.onColor dst src = dst
  | unread part => ∀ dst src dst' src', Premultiplied dst → Premultiplied src →
      Premultiplied dst' → Premultiplied src' →
      part.SameElsewhere (unpack dst) (unpack src) (unpack dst') (unpack src') →
      op.onColor dst src = op.onColor dst' src'

namespace Operator
open ColorMix Formula

/-- An operator keeps the destination where it keeps every channel. -/
theorem onColor_eq_dst {op : Operator} {dst src : UInt32} {sa da : Nat} (hd : Premultiplied dst)
    (hs : Premultiplied src) (hsa : alphaOf src = sa) (hda : alphaOf dst = da)
    (hcolor : ∀ s d, s ≤ sa → d ≤ da → op.formula.color s d sa da = d)
    (halpha : op.formula.alpha sa da = da) : op.onColor dst src = dst := by
  subst hsa hda
  obtain ⟨hdb, hdg, hdr⟩ := hd
  obtain ⟨hsb, hsg, hsr⟩ := hs
  rw [Operator.onColor, Formula.onColor_eq, hcolor _ _ hsb hdb, hcolor _ _ hsg hdg,
    hcolor _ _ hsr hdr, halpha]
  exact pack_unpack dst

/-- A clear source leaves a color channel as it is, also where floats are used. -/
theorem color_clear_source {op : Operator} {d da : Nat} (hi : op.traits.idleOnClearSrc)
    (hd : d ≤ da) (hda : da ≤ 255) : op.formula.color 0 d 0 da = d := by
  have hd' := hd.trans hda
  have hz := div255_mul_255 hd'
  by_cases hop : op.isIntegral
  · exact color_zero_source hop hi hd hda
  · cases op with
    | colorDodge =>
      simp [formula, Formula.color, ColorMix.colorDodge, FloatMix.dodge_clear_source hd' hda, hz,
        hd']
    | colorBurn =>
      simp [formula, Formula.color, ColorMix.colorBurn, FloatMix.burn_clear_source hd' hda, hz,
        hd']
    | softLight =>
      simp [formula, Formula.color, FloatMix.softLight_clear_source hd' hda, hd']
    | _ => exact absurd rfl hop

theorem color_clear_dst {op : Operator} (hi : op.traits.idleOnClearDst) (hop : op ≠ multiply)
    (s sa : Nat) : op.formula.color s 0 sa 0 = 0 := by
  cases op with
  | srcIn | srcAtop | clear => simp [formula, Formula.color]
  | modulate => simp [formula, uniform, Formula.color, ColorMix.modulate]
  | multiply => exact absurd rfl hop
  | _ => cases hi

theorem alpha_clear_dst {op : Operator} (hi : op.traits.idleOnClearDst) (hop : op ≠ multiply)
    (sa : Nat) : op.formula.alpha sa 0 = 0 := by
  cases op with
  | srcIn | srcAtop | clear | modulate => exact color_clear_dst hi hop sa sa
  | multiply => exact absurd rfl hop
  | _ => cases hi

/-- Multiplying makes of a clear destination the source. -/
theorem onColor_multiply_clear_dst {dst : UInt32} (hd : Premultiplied dst) (ha : alphaOf dst = 0)
    (src : UInt32) : multiply.onColor dst src = src := by
  obtain ⟨hdb, hdg, hdr⟩ := hd
  obtain ⟨hsb, hsg, hsr, hsa⟩ := unpack_le src
  rw [unpack_a, ha, Nat.le_zero] at hdb hdg hdr
  have hcolor {s : Nat} (sa : Nat) (hs : s ≤ 255) : multiply.formula.color s 0 sa 0 = s := by
    simp [formula, uniform, Formula.color, ColorMix.multiply, div255_mul_255 hs, hs]
  have halpha : multiply.formula.alpha (alphaOf src) 0 = alphaOf src := hcolor _ hsa
  rw [Operator.onColor, Formula.onColor_eq, hdb, hdg, hdr, ha, hcolor _ hsb, hcolor _ hsg,
    hcolor _ hsr, halpha]
  exact pack_unpack src

/-! ## What is kept -/

theorem idle_kept {op : Operator} {on : Occasion} (h : op.traits.promises (.idle on))
    (hne : ¬ (op = multiply ∧ on = .clearDst)) : (Promise.idle on).KeptBy op := by
  intro dst src hd hs hon
  have hsa := (unpack_le src).2.2.2
  have hda := (unpack_le dst).2.2.2
  cases on with
  | always =>
    cases op <;> cases h
    exact onColor_eq_dst hd hs rfl rfl (fun s d _ hd => color_dstCopy s _ _ (hd.trans hda))
      (alpha_dstCopy _ hda)
  | clearDst =>
    have hop : op ≠ multiply := fun hop => hne ⟨hop, rfl⟩
    refine onColor_eq_dst hd hs rfl hon (fun s d _ hd => ?_) (alpha_clear_dst h hop _)
    obtain rfl := Nat.le_zero.mp hd
    exact color_clear_dst h hop s _
  | fullDst =>
    cases op <;> cases h
    have hcolor {s d : Nat} (hs : s ≤ 255) (hd : d ≤ 255) :
        dstOver.formula.color s d (alphaOf src) 255 = d := by
      rw [color_dstOver _ hs hd le_rfl, Nat.sub_self, mul255, Nat.mul_zero]
      rfl
    exact onColor_eq_dst hd hs rfl hon (fun s d hs hd => hcolor (hs.trans hsa) hd)
      (hcolor hsa le_rfl)
  | clearSrc =>
    refine onColor_eq_dst hd hs hon rfl (fun s d hs hd => ?_) (alpha_zero_source h hda)
    obtain rfl := Nat.le_zero.mp hs
    exact color_clear_source h hd hda
  | fullSrc =>
    cases op <;> cases h
    have hcolor (s : Nat) {d : Nat} (hd : d ≤ 255) :
        dstIn.formula.color s d 255 (alphaOf dst) = d := by
      simp [formula, Formula.color, div255_mul_255 hd, hd]
    exact onColor_eq_dst hd hs hon rfl (fun s d _ hd => hcolor s (hd.trans hda)) (hcolor _ hda)

theorem unread_kept {op : Operator} {part : Part} (h : op.traits.promises (.unread part)) :
    (Promise.unread part).KeptBy op := by
  intro dst src dst' src' _ _ _ _ hsame
  rw [Operator.onColor, Operator.onColor, Formula.onColor_eq, Formula.onColor_eq]
  simp only [← unpack_a]
  generalize unpack dst = d at hsame ⊢
  generalize unpack src = s at hsame ⊢
  generalize unpack dst' = d' at hsame ⊢
  generalize unpack src' = s' at hsame ⊢
  obtain ⟨db, dg, dr, da⟩ := d
  obtain ⟨db', dg', dr', da'⟩ := d'
  obtain ⟨sb, sg, sr, sa⟩ := s
  obtain ⟨sb', sg', sr', sa'⟩ := s'
  cases part <;> obtain ⟨hpart, hrest⟩ := hsame <;> cases hpart <;> cases hrest <;> cases op <;>
    cases h <;> rfl

/-- The only promise that is not kept is that of multiplying to do nothing to a clear
destination. -/
theorem broken_promise_iff (op : Operator) (p : Promise) :
    (op.traits.promises p ∧ ¬ p.KeptBy op) ↔ (op = multiply ∧ p = .idle .clearDst) := by
  constructor
  · rintro ⟨h, hbroken⟩
    by_contra hne
    cases p with
    | idle on =>
      refine hbroken (idle_kept h ?_)
      rintro ⟨rfl, rfl⟩
      exact hne ⟨rfl, rfl⟩
    | unread part => exact hbroken (unread_kept h)
  · rintro ⟨rfl, rfl⟩
    refine ⟨rfl, fun hkept => ?_⟩
    have hclear := hkept 0 0x80402000 (by decide) (by decide) rfl
    rw [onColor_multiply_clear_dst (by decide) rfl] at hclear
    exact absurd hclear (by decide)

end Operator

end Scanline
