import Mathlib.Tactic.Ring
import Scanline.Proofs.Operator.PorterDuff

/-
  Operators whose two sides change places. Many operators have a mirror, which does to a source and
  a destination what the operator does to the destination and the source (`Operator.mirror?`). Among
  the Porter-Duff operators it keeps the same shares of the other sides (`mirrors_of_shares`);
  `overlay` and `hardLight` ask opposite sides whether to multiply or to screen; and ten blend modes
  and sums are their own mirrors, although their formulas treat the sides differently. This is so
  for all pixels, premultiplied or not (`onColor_mirror`).
-/

namespace Scanline

namespace Formula

/-- The formula `g` makes of a destination and a source what `f` makes of the source and the
destination, channel by channel. -/
structure Mirrors (f g : Formula) : Prop where
  color : ∀ {s d sa da : Nat}, s ≤ 255 → d ≤ 255 → sa ≤ 255 → da ≤ 255 →
    f.color s d sa da = g.color d s da sa
  alpha : ∀ {sa da : Nat}, sa ≤ 255 → da ≤ 255 → f.alpha sa da = g.alpha da sa

theorem Mirrors.onColor_eq {f g : Formula} (h : f.Mirrors g) (p q : UInt32) :
    f.onColor p q = g.onColor q p := by
  obtain ⟨hpb, hpg, hpr, hpa⟩ := unpack_le p
  obtain ⟨hqb, hqg, hqr, hqa⟩ := unpack_le q
  rw [Formula.onColor_eq, Formula.onColor_eq, h.color hqb hpb hqa hpa, h.color hqg hpg hqa hpa,
    h.color hqr hpr hqa hpa, h.alpha hqa hpa]

theorem mirrors_weighted (fs fd : Nat → Nat → Nat) :
    (weighted fs fd).Mirrors (weighted (fun sa da => fd da sa) (fun sa da => fs da sa)) where
  color _ _ _ _ := congrArg (fun v => min 255 (div255 v)) (Nat.add_comm _ _)
  alpha _ _ := congrArg (fun v => min 255 (div255 v)) (Nat.add_comm _ _)

theorem mirrors_mixed {c c' : Nat → Nat → Nat → Nat → Nat} {a a' : Nat → Nat → Nat}
    (hc : ∀ {s d sa da : Nat}, s ≤ 255 → d ≤ 255 → sa ≤ 255 → da ≤ 255 → c s d sa da = c' d s da sa)
    (ha : ∀ {sa da : Nat}, sa ≤ 255 → da ≤ 255 → a sa da = a' da sa) :
    (mixed c a).Mirrors (mixed c' a') where
  color hs hd hsa hda := congrArg (min 255) (hc hs hd hsa hda)
  alpha hsa hda := congrArg (min 255) (ha hsa hda)

/-- Where alpha is treated like a color, nothing is left to say of it. -/
theorem mirrors_uniform {c c' : Nat → Nat → Nat → Nat → Nat}
    (hc : ∀ {s d sa da : Nat}, s ≤ 255 → d ≤ 255 → sa ≤ 255 → da ≤ 255 →
      c s d sa da = c' d s da sa) :
    (uniform c).Mirrors (uniform c') :=
  mirrors_mixed hc fun hsa hda => hc hsa hda hsa hda

theorem mirrors_saturatedSum : saturatedSum.Mirrors saturatedSum where
  color _ _ _ _ := by simp only [color, addSat, Nat.add_comm]
  alpha _ _ := by simp only [alpha, addSat, Nat.add_comm]

end Formula

/-! ## Mixes with the sides exchanged -/

namespace ColorMix

variable {s d sa da : Nat}

theorem modulate_swap (s d sa da : Nat) : modulate s d sa da = modulate d s da sa := mul255_comm s d

theorem multiply_swap (hsa : sa ≤ 255) (hda : da ≤ 255) :
    multiply s d sa da = multiply d s da sa := by
  have hs : s + 255 - sa = s + (255 - sa) := by omega
  have hd : d + 255 - da = d + (255 - da) := by omega
  have hsum : d * (s + (255 - sa)) + s * (255 - da) = s * (d + (255 - da)) + d * (255 - sa) := by
    ring
  rw [multiply, multiply, hs, hd, hsum]

/-- Screening joins two channels as alphas are joined, although it rounds one product only. -/
theorem screen_swap (hs : s ≤ 255) (hd : d ≤ 255) (sa da : Nat) :
    screen s d sa da = screen d s da sa := by
  rw [screen, screen, ← unionAlpha_eq hs hd, ← unionAlpha_eq hd hs, unionAlpha_comm hs hd]

theorem contrast_swap (chosen : Bool) (s d sa da : Nat) :
    contrast chosen s d sa da = contrast chosen d s da sa := by
  have hsum : ((d : Int) + s) * 255 = (s + d) * 255 := by ring
  have hcross : (d : Int) * sa + s * da - 2 * s * d = s * da + d * sa - 2 * d * s := by ring
  rw [contrast, contrast, hsum, hcross, Int.mul_comm sa da]

theorem overlay_swap (s d sa da : Nat) : overlay s d sa da = hardLight d s da sa :=
  contrast_swap _ s d sa da

theorem hardLight_swap (s d sa da : Nat) : hardLight s d sa da = overlay d s da sa :=
  contrast_swap _ s d sa da

theorem darken_swap (s d sa da : Nat) : darken s d sa da = darken d s da sa := Nat.min_comm _ _

theorem lighten_swap (s d sa da : Nat) : lighten s d sa da = lighten d s da sa := Nat.max_comm _ _

theorem linearBurn_swap (s d sa da : Nat) : linearBurn s d sa da = linearBurn d s da sa := by
  rw [linearBurn, linearBurn, Nat.add_comm d s, mul255_comm sa da]

theorem difference_swap (s d sa da : Nat) : difference s d sa da = difference d s da sa := by
  rw [difference, difference, Nat.add_comm d s, Nat.min_comm]

theorem exclusion_swap (s d sa da : Nat) : exclusion s d sa da = exclusion d s da sa := by
  rw [exclusion, exclusion, Nat.add_comm d s, mul255_comm s d]

theorem coveredAlpha_swap (sa da : Nat) : coveredAlpha sa da = coveredAlpha da sa := by
  rw [coveredAlpha, coveredAlpha, Nat.add_comm da sa, mul255_comm sa da]

end ColorMix

/-! ## Operators -/

namespace Operator
open ColorMix Formula

/-- The operator that does the same with source and destination exchanged. The others have none. -/
def mirror? : Operator → Option Operator
  | srcOver => some dstOver
  | srcCopy => some dstCopy
  | srcIn => some dstIn
  | srcOut => some dstOut
  | srcAtop => some dstAtop
  | dstOver => some srcOver
  | dstCopy => some srcCopy
  | dstIn => some srcIn
  | dstOut => some srcOut
  | dstAtop => some srcAtop
  | overlay => some hardLight
  | hardLight => some overlay
  | xor => some xor
  | clear => some clear
  | plus => some plus
  | modulate => some modulate
  | multiply => some multiply
  | screen => some screen
  | darken => some darken
  | lighten => some lighten
  | linearBurn => some linearBurn
  | difference => some difference
  | exclusion => some exclusion
  | _ => none

theorem mirrors_of_shares {op op' : Operator} {fs fd : Share} (h : op.shares? = some (fs, fd))
    (h' : op'.shares? = some (fd, fs)) : op.formula.Mirrors op'.formula := by
  rw [formula_of_shares h, formula_of_shares h']
  exact mirrors_weighted _ _

theorem formula_mirrors {op op' : Operator} (h : op.mirror? = some op') :
    op.formula.Mirrors op'.formula := by
  cases op with
  | srcOver | srcCopy | srcIn | srcOut | srcAtop | dstOver | dstCopy | dstIn | dstOut | dstAtop
  | xor | clear => cases h; exact mirrors_of_shares rfl rfl
  | plus => cases h; exact mirrors_saturatedSum
  | modulate => cases h; exact mirrors_uniform fun _ _ _ _ => modulate_swap _ _ _ _
  | multiply => cases h; exact mirrors_uniform fun _ _ hsa hda => multiply_swap hsa hda
  | screen => cases h; exact mirrors_uniform fun hs hd _ _ => screen_swap hs hd _ _
  | overlay => cases h; exact mirrors_uniform fun _ _ _ _ => overlay_swap _ _ _ _
  | hardLight => cases h; exact mirrors_uniform fun _ _ _ _ => hardLight_swap _ _ _ _
  | darken => cases h; exact mirrors_uniform fun _ _ _ _ => darken_swap _ _ _ _
  | lighten => cases h; exact mirrors_uniform fun _ _ _ _ => lighten_swap _ _ _ _
  | linearBurn => cases h; exact mirrors_uniform fun _ _ _ _ => linearBurn_swap _ _ _ _
  | difference =>
    cases h
    exact mirrors_mixed (fun _ _ _ _ => difference_swap _ _ _ _) fun _ _ => coveredAlpha_swap _ _
  | exclusion =>
    cases h
    exact mirrors_mixed (fun _ _ _ _ => exclusion_swap _ _ _ _) fun _ _ => coveredAlpha_swap _ _
  | minus | colorDodge | colorBurn | linearLight | pinLight | softLight | alphaInv => cases h

/-- An operator with a mirror makes of any two pixels what the mirror makes of them the other way
round. -/
theorem onColor_mirror {op op' : Operator} (h : op.mirror? = some op') (p q : UInt32) :
    op.onColor p q = op'.onColor q p :=
  (formula_mirrors h).onColor_eq p q

/-- Two pixels that are not premultiplied. -/
theorem onColor_mirror_overlay :
    overlay.mirror? = some hardLight ∧ ¬ Premultiplied 0x80A02010 ∧ ¬ Premultiplied 0xA0207FE0 ∧
      overlay.onColor 0x80A02010 0xA0207FE0 = hardLight.onColor 0xA0207FE0 0x80A02010 ∧
      overlay.onColor 0x80A02010 0xA0207FE0 ≠ overlay.onColor 0xA0207FE0 0x80A02010 :=
  ⟨rfl, by decide, by decide, onColor_mirror rfl 0x80A02010 0xA0207FE0, by decide⟩

end Operator

end Scanline
