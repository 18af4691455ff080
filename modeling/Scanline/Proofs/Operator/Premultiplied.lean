import Scanline.Proofs.Operator.Sources

/-
  Premultiplied pixels: no color channel is more than the alpha. Every operator that works in
  integers keeps this, for a color channel of its result is at most the alpha of its result
  (`Operator.color_le_alpha`), and so does coverage (`Premultiplied.combine_applyMask`).
-/

namespace Scanline

namespace Channels

/-- No color channel is more than the alpha. -/
def Premultiplied (c : Channels) : Prop := c.b ≤ c.a ∧ c.g ≤ c.a ∧ c.r ≤ c.a

instance (c : Channels) : Decidable c.Premultiplied := inferInstanceAs (Decidable (_ ∧ _))

variable {c d : Channels}

theorem Premultiplied.map {f : Nat → Nat} (hf : ∀ u v, u ≤ v → f u ≤ f v) (h : c.Premultiplied) :
    (c.map f).Premultiplied :=
  ⟨hf _ _ h.1, hf _ _ h.2.1, hf _ _ h.2.2⟩

theorem Premultiplied.zipWith {f : Nat → Nat → Nat}
    (hf : ∀ u u' v v', u ≤ u' → v ≤ v' → f u v ≤ f u' v') (h : c.Premultiplied)
    (h' : d.Premultiplied) : (c.zipWith f d).Premultiplied :=
  ⟨hf _ _ _ _ h.1 h'.1, hf _ _ _ _ h.2.1 h'.2.1, hf _ _ _ _ h.2.2 h'.2.2⟩

theorem premultiplied_splat (v : Nat) : (splat v).Premultiplied := ⟨le_rfl, le_rfl, le_rfl⟩

/-- Packing cuts every channel at 255. -/
theorem unpack_pack_min (c : Channels) : unpack c.pack = c.map (min · 255) := by
  have hpack : c.pack = (c.map (min · 255)).pack := by
    simp only [pack, map, Nat.min_assoc, Nat.min_self]
  rw [hpack]
  exact unpack_pack (Nat.min_le_right _ _) (Nat.min_le_right _ _) (Nat.min_le_right _ _)
    (Nat.min_le_right _ _)

end Channels

/-- A pixel of which no color channel is more than the alpha. -/
def Premultiplied (p : UInt32) : Prop := (unpack p).Premultiplied

instance (p : UInt32) : Decidable (Premultiplied p) :=
  inferInstanceAs (Decidable (Channels.Premultiplied _))

theorem Channels.Premultiplied.pack {c : Channels} (h : c.Premultiplied) :
    Scanline.Premultiplied c.pack := by
  rw [Scanline.Premultiplied, unpack_pack_min]
  exact h.map fun u v huv => by omega

theorem premultiplied_withFullAlpha (p : UInt32) : Premultiplied (withFullAlpha p) := by
  obtain ⟨hb, hg, hr, -⟩ := unpack_le p
  rw [Premultiplied, unpack_withFullAlpha]
  exact ⟨hb, hg, hr⟩

/-! ## Mixes -/

theorem mul255_mono {x x' y y' : Nat} (hx : x ≤ x') (hy : y ≤ y') :
    mul255 x y ≤ mul255 x' y' := div255_mono (Nat.mul_le_mul hx hy)

/-- A product grows by no more than its factor. -/
theorem mul255_add_le {s p d : Nat} (hs : s + p ≤ 255) (hd : d ≤ 255) :
    mul255 (s + p) d ≤ mul255 s d + p := by
  have hp := Nat.mul_le_mul_left p hd
  have hsd := Nat.mul_le_mul_left s hd
  rw [mul255, Nat.add_mul, mul255, Nat.add_comm (div255 _), ← div255_add (by omega)]
  exact div255_mono (by omega)

namespace ColorMix

variable {s d sa da : Nat}

theorem unionAlpha_mono (hs : s ≤ sa) (hsa : sa ≤ 255) (hd : d ≤ da) (hda : da ≤ 255) :
    unionAlpha s d ≤ unionAlpha sa da := by
  have hright {s d d' : Nat} (h : d ≤ d') : unionAlpha s d ≤ unionAlpha s d' :=
    div255_mono (Nat.add_le_add_left (Nat.mul_le_mul_right _ h) _)
  calc unionAlpha s d ≤ unionAlpha s da := hright hd
    _ = unionAlpha da s := unionAlpha_comm (hs.trans hsa) hda
    _ ≤ unionAlpha da sa := hright hs
    _ = unionAlpha sa da := unionAlpha_comm hda hsa

/-- What is over the destination, or under it, joins no more than the alphas. -/
theorem over_le_union (hs : s ≤ sa) (hsa : sa ≤ 255) (hd : d ≤ da) (hda : da ≤ 255) :
    s + mul255 d (255 - sa) ≤ unionAlpha sa da := by
  rw [unionAlpha_eq hsa hda]
  exact Nat.add_le_add hs (mul255_mono hd le_rfl)

theorem under_le_union (hs : s ≤ sa) (hsa : sa ≤ 255) (hd : d ≤ da) (hda : da ≤ 255) :
    d + mul255 s (255 - da) ≤ unionAlpha sa da := by
  rw [unionAlpha_comm hsa hda]
  exact over_le_union hd hda hs hsa

/-- A mix in integers of either sign is at most the joined alpha where its dividend is. -/
theorem div255Clamped_le_union {v : Int} (hsa : sa ≤ 255) (h : v ≤ sa * 255 + da * (255 - sa)) :
    div255Clamped v ≤ unionAlpha sa da := by
  have hv : v ≤ (sa * 255 + da * (255 - sa) : Nat) := by
    push_cast [Nat.cast_sub hsa]
    exact h
  exact div255_mono ((Nat.min_le_left _ _).trans (Int.toNat_le.mpr hv))

theorem multiply_le_alpha (hs : s ≤ sa) (hd : d ≤ da) :
    multiply s d sa da ≤ multiply sa da sa da := by
  have hleft : d * (s + 255 - sa) ≤ da * (sa + 255 - sa) := Nat.mul_le_mul hd (by omega)
  have hright : s * (255 - da) ≤ sa * (255 - da) := Nat.mul_le_mul_right _ hs
  have hdiv := div255_mono (Nat.add_le_add hleft hright)
  unfold multiply
  omega

theorem minus_le_alpha (hs : s ≤ sa) (hd : d ≤ da) : minus s d sa da ≤ minusAlpha sa da := by
  have hmul := mul255_mono hs (Nat.le_refl (255 - da))
  unfold minus minusAlpha
  omega

/-- What a channel lacks of its alpha. -/
theorem exists_lack {c a : Nat} (h : c ≤ a) : ∃ p : Int, 0 ≤ p ∧ (a : Int) = c + p :=
  ⟨a - c, by omega, by omega⟩

section Mixes

variable (hs : s ≤ sa) (hsa : sa ≤ 255) (hd : d ≤ da) (hda : da ≤ 255)
include hs hsa hd hda

theorem screen_le_union : screen s d sa da ≤ unionAlpha sa da := by
  rw [screen, ← unionAlpha_eq (hs.trans hsa) (hd.trans hda)]
  exact unionAlpha_mono hs hsa hd hda

theorem darken_le_union : darken s d sa da ≤ unionAlpha sa da :=
  (Nat.min_le_right _ _).trans (over_le_union hs hsa hd hda)

theorem lighten_le_union : lighten s d sa da ≤ unionAlpha sa da :=
  Nat.max_le.mpr ⟨under_le_union hs hsa hd hda, over_le_union hs hsa hd hda⟩

theorem linearBurn_le_union : linearBurn s d sa da ≤ unionAlpha sa da := by
  rw [← coveredAlpha_eq hsa hda]
  unfold linearBurn coveredAlpha
  omega

theorem contrast_le_union {chosen : Bool} (hc : chosen → 2 * s < sa ∨ 2 * d < da) :
    contrast chosen s d sa da ≤ unionAlpha sa da := by
  refine div255Clamped_le_union hsa ?_
  obtain ⟨p, hp, hsp⟩ := exists_lack hs
  obtain ⟨q, hq, hdq⟩ := exists_lack hd
  have hsp' : (0 : Int) ≤ 255 - s := by omega
  have hdp' : (0 : Int) ≤ 255 - d := by omega
  cases chosen with
  | false =>
    have h1 := mul_nonneg hp hdp'
    have h2 := mul_nonneg hq hsp'
    simp only [Bool.false_eq_true, if_false]
    rw [hsp, hdq]
    linarith
  | true =>
    simp only [if_true]
    have hsa' : (0 : Int) ≤ 255 - sa := by omega
    have hda' : (0 : Int) ≤ 255 - da := by omega
    rcases hc rfl with hlt | hlt
    · have h1 := mul_nonneg (show (0 : Int) ≤ p - s by omega) (Int.natCast_nonneg d)
      have h2 := mul_nonneg hp hda'
      rw [hdq] at h2
      rw [hsp, hdq]
      linarith
    · have h1 := mul_nonneg (show (0 : Int) ≤ q - d by omega) (Int.natCast_nonneg s)
      have h2 := mul_nonneg hq hsa'
      rw [hsp] at h2
      rw [hsp, hdq]
      linarith

theorem linearLight_le_union : linearLight s d sa da ≤ unionAlpha sa da := by
  refine div255Clamped_le_union hsa ?_
  have hprod : (0 : Int) ≤ sa * da := by positivity
  have hlight : max 0 (min ((d : Int) * sa + 2 * s * da - sa * da) (sa * da)) ≤ sa * da :=
    max_le hprod (min_le_right _ _)
  have hleft : (s : Int) * (255 - da) ≤ sa * (255 - da) :=
    mul_le_mul_of_nonneg_right (by omega) (by omega)
  have hright : (d : Int) * (255 - sa) ≤ da * (255 - sa) :=
    mul_le_mul_of_nonneg_right (by omega) (by omega)
  linarith

theorem pinLight_le_union : pinLight s d sa da ≤ unionAlpha sa da := by
  refine div255Clamped_le_union hsa ?_
  obtain ⟨p, hp, hsp⟩ := exists_lack hs
  obtain ⟨q, hq, hdq⟩ := exists_lack hd
  have h1 := mul_nonneg hp (show (0 : Int) ≤ 255 - da by omega)
  have h2 := mul_nonneg hq (show (0 : Int) ≤ 255 - s by omega)
  have h3 := mul_nonneg hp (Int.natCast_nonneg d)
  have hdarker : ((d : Int) + s) * 255 - s * da ≤ sa * 255 + da * (255 - sa) := by
    rw [hdq] at h1
    rw [hsp, hdq]
    linarith
  have hlighter :
      ((d : Int) + s) * 255 + s * da - d * sa - da * sa ≤ sa * 255 + da * (255 - sa) := by
    rw [hsp, hdq]
    linarith
  split_ifs
  · exact (min_le_left _ _).trans hdarker
  · exact max_le hdarker hlighter

/-- The product of the alphas exceeds what is taken off by no more than what a color lacks of its
alpha. -/
theorem difference_le_covered : difference s d sa da ≤ coveredAlpha sa da := by
  unfold difference coveredAlpha
  obtain ⟨p, rfl⟩ := Nat.exists_eq_add_of_le hs
  obtain ⟨q, rfl⟩ := Nat.exists_eq_add_of_le hd
  rcases Nat.le_total (s * (d + q)) (d * (s + p)) with h | h
  · rw [Nat.min_eq_left h]
    have hgrow := mul255_add_le hsa hda
    change mul255 (s + p) (d + q) ≤ div255 (s * (d + q)) + p at hgrow
    omega
  · rw [Nat.min_eq_right h]
    have hgrow := mul255_add_le hda hsa
    rw [mul255_comm] at hgrow
    change mul255 (s + p) (d + q) ≤ div255 (d * (s + p)) + q at hgrow
    omega

theorem exclusion_le_covered : exclusion s d sa da ≤ coveredAlpha sa da := by
  unfold exclusion coveredAlpha
  obtain ⟨p, rfl⟩ := Nat.exists_eq_add_of_le hs
  obtain ⟨q, rfl⟩ := Nat.exists_eq_add_of_le hd
  have hsource := mul255_add_le hsa hda
  have hdest := mul255_add_le hda (Nat.le_of_add_right_le hsa)
  rw [mul255_comm (d + q), mul255_comm d] at hdest
  omega

end Mixes

end ColorMix

/-! ## Operators -/

namespace Operator
open ColorMix Formula

/-- A color channel of a result is at most the alpha of the result. -/
theorem color_le_alpha {op : Operator} (hop : op.isIntegral) {s d sa da : Nat} (hs : s ≤ sa)
    (hsa : sa ≤ 255) (hd : d ≤ da) (hda : da ≤ 255) :
    op.formula.color s d sa da ≤ op.formula.alpha sa da := by
  have hcut {u v : Nat} (h : u ≤ v) : min 255 u ≤ min 255 v := by omega
  have hweighted (fs fd : Nat → Nat → Nat) :
      (weighted fs fd).color s d sa da ≤ (weighted fs fd).alpha sa da :=
    hcut (div255_mono (Nat.add_le_add (Nat.mul_le_mul_right _ hs) (Nat.mul_le_mul_right _ hd)))
  have hjoined {op : Operator} (h : op.joinsAlpha)
      (hle : op.formula.color s d sa da ≤ unionAlpha sa da) :
      op.formula.color s d sa da ≤ op.formula.alpha sa da := by
    rwa [alpha_joined h hsa hda]
  have hmin {u v : Nat} (h : u ≤ v) : min 255 u ≤ v := (Nat.min_le_right _ _).trans h
  cases op with
  | srcOver | srcCopy | srcIn | srcOut | srcAtop | dstOver | dstCopy | dstIn | dstOut | dstAtop
  | xor | clear => exact hweighted _ _
  | plus =>
    have hsum : addSat s d ≤ addSat sa da := by
      unfold addSat
      split <;> split <;> omega
    exact hcut hsum
  | minus => exact hcut (minus_le_alpha hs hd)
  | modulate => exact hcut (mul255_mono hs hd)
  | multiply => exact hcut (multiply_le_alpha hs hd)
  | screen => exact hjoined rfl (hmin (screen_le_union hs hsa hd hda))
  | overlay =>
    refine hjoined rfl (hmin (contrast_le_union hs hsa hd hda fun h => .inr ?_))
    exact of_decide_eq_true h
  | darken => exact hjoined rfl (hmin (darken_le_union hs hsa hd hda))
  | lighten => exact hjoined rfl (hmin (lighten_le_union hs hsa hd hda))
  | linearBurn => exact hjoined rfl (hmin (linearBurn_le_union hs hsa hd hda))
  | linearLight => exact hjoined rfl (hmin (linearLight_le_union hs hsa hd hda))
  | pinLight => exact hjoined rfl (hmin (pinLight_le_union hs hsa hd hda))
  | hardLight =>
    refine hjoined rfl (hmin (contrast_le_union hs hsa hd hda fun h => .inl ?_))
    exact of_decide_eq_true h
  | difference => exact hcut (difference_le_covered hs hsa hd hda)
  | exclusion => exact hcut (exclusion_le_covered hs hsa hd hda)
  | alphaInv => exact le_rfl
  | colorDodge | colorBurn | softLight => cases hop

end Operator

namespace Premultiplied

variable {op : Operator} {dst src : UInt32} {m : Nat}

theorem onColor (hop : op.isIntegral) (hd : Premultiplied dst) (hs : Premultiplied src) :
    Premultiplied (op.onColor dst src) := by
  obtain ⟨hsb, hsg, hsr⟩ := hs
  obtain ⟨hdb, hdg, hdr⟩ := hd
  have hsa := (unpack_le src).2.2.2
  have hda := (unpack_le dst).2.2.2
  rw [Premultiplied, Operator.onColor, Formula.unpack_onColor]
  exact ⟨Operator.color_le_alpha hop hsb hsa hdb hda, Operator.color_le_alpha hop hsg hsa hdg hda,
    Operator.color_le_alpha hop hsr hsa hdr hda⟩

theorem applyMask (hm : m ≤ 255) (hd : Premultiplied dst) (hs : Premultiplied src) :
    Premultiplied (applyMask src dst m) := by
  rw [Premultiplied, unpack_applyMask src dst hm]
  refine hs.zipWith (fun u u' v v' hu hv => div255_mono ?_) hd
  exact Nat.add_le_add (Nat.mul_le_mul_right _ hu) (Nat.mul_le_mul_right _ hv)

/-- Drawing a premultiplied pixel on another one gives a premultiplied pixel again. -/
theorem combine_applyMask (hop : op.isIntegral) (hm : m ≤ 255) (hd : Premultiplied dst)
    (hs : Premultiplied src) :
    Premultiplied (Scanline.applyMask (op.combine .prgb32 dst src) dst m) :=
  applyMask hm hd (onColor hop hd hs)

end Premultiplied

end Scanline
