import Mathlib.Tactic.Ring
import Mathlib.Tactic.Linarith
import Scanline.Operator.Traits
import Scanline.Proofs.Operator.Channels

/-
  Sources that leave an operator little to do. A transparent source changes nothing under the
  operators that promise so (`color_zero_source`, `alpha_zero_source`). A source that has its
  alpha in every channel, as pixels without color have, turns the blend modes into drawing over or
  under the destination (`color_gray_source_over`, `color_gray_source_under`). Most operators
  agree on alpha: they join the two alphas (`alpha_joined`).
-/

namespace Scanline

namespace Operator

/-- Operators that work in integers alone. -/
def isIntegral : Operator → Bool
  | colorDodge | colorBurn | softLight => false
  | _ => true

/-- Operators that give the alpha `sa + da - sa * da`. -/
def joinsAlpha : Operator → Bool
  | srcOver | dstOver | minus | multiply | screen | overlay | darken | lighten | colorDodge
  | colorBurn | linearBurn | linearLight | pinLight | hardLight | softLight | difference
  | exclusion => true
  | _ => false

end Operator

namespace ColorMix

/-! ## A source with its alpha in every channel -/

theorem multiply_gray {s d da : Nat} (hs : s ≤ 255) (hd : d ≤ da) (ha : da ≤ 255) :
    multiply s d s da = d + mul255 s (255 - da) := by
  have hle : div255 (d * 255 + s * (255 - da)) ≤ 255 := div255_le (over_le hd ha hs)
  rw [add_mul255 hd ha hs, multiply, Nat.add_sub_cancel_left, Nat.min_eq_right hle]

theorem linearBurn_gray {s d da : Nat} (hs : s ≤ 255) (hd : d ≤ da) (ha : da ≤ 255) :
    linearBurn s d s da = d + mul255 s (255 - da) := by
  have hsum := mul255_add_mul255 hs ha
  have hle : d + mul255 s (255 - da) ≤ 255 :=
    (add_mul255 hd ha hs).trans_le (div255_le (over_le hd ha hs))
  unfold linearBurn
  omega

/-- Over the destination there is no less than under it. -/
theorem under_le_over {s d da : Nat} (hs : s ≤ 255) (hd : d ≤ da) (ha : da ≤ 255) :
    d + mul255 s (255 - da) ≤ s + mul255 d (255 - s) := by
  rw [add_mul255 hd ha hs, add_mul255 le_rfl hs (hd.trans ha)]
  have h1 := Nat.mul_le_mul_left s hd
  have h2 := Nat.mul_le_mul_left s ha
  have h3 := Nat.mul_le_mul_left d hs
  refine div255_mono ?_
  rw [Nat.mul_sub, Nat.mul_sub, Nat.mul_comm d s] at *
  omega

theorem darken_gray {s d da : Nat} (hs : s ≤ 255) (hd : d ≤ da) (ha : da ≤ 255) :
    darken s d s da = d + mul255 s (255 - da) := Nat.min_eq_left (under_le_over hs hd ha)

theorem lighten_gray {s d da : Nat} (hs : s ≤ 255) (hd : d ≤ da) (ha : da ≤ 255) :
    lighten s d s da = s + mul255 d (255 - s) := Nat.max_eq_right (under_le_over hs hd ha)

/-- A mix that is the sum over the destination, worked out in integers of either sign. -/
theorem div255Clamped_over {v : Int} {s d : Nat} (hs : s ≤ 255) (hd : d ≤ 255)
    (h : v = s * 255 + d * (255 - s)) : div255Clamped v = s + mul255 d (255 - s) := by
  have hv : v = (s * 255 + d * (255 - s) : Nat) := by
    rw [h]
    push_cast [Nat.cast_sub hs]
    rfl
  rw [hv, div255Clamped_cast (over_le le_rfl hs hd), add_mul255 le_rfl hs hd]

theorem contrast_gray {s d da : Nat} (hs : s ≤ 255) (hd : d ≤ 255) :
    contrast false s d s da = s + mul255 d (255 - s) := by
  refine div255Clamped_over hs hd ?_
  simp only [Bool.false_eq_true, if_false]
  ring

theorem linearLight_gray {s d : Nat} (da : Nat) (hs : s ≤ 255) (hd : d ≤ 255) :
    linearLight s d s da = s + mul255 d (255 - s) := by
  have hd0 : (0 : Int) ≤ d * s := by positivity
  have ha0 : (0 : Int) ≤ s * da := by positivity
  have hlight : max 0 (min ((d : Int) * s + 2 * s * da - s * da) (s * da)) = s * da := by
    rw [min_eq_right (by linarith), max_eq_right ha0]
  refine div255Clamped_over hs hd ?_
  rw [hlight]
  ring

theorem pinLight_gray {s d da : Nat} (hs : s ≤ 255) (hd : d ≤ da) (ha : da ≤ 255) :
    pinLight s d s da = s + mul255 d (255 - s) := by
  have hle : (d : Int) * s ≤ s * da := by
    rw [Int.mul_comm]
    exact_mod_cast Nat.mul_le_mul_left s hd
  refine div255Clamped_over hs (hd.trans ha) ?_
  split
  · -- twice a positive alpha is more than the alpha
    obtain rfl : s = 0 := by omega
    simp
  · rw [max_eq_right (by linarith [Int.mul_comm (da : Int) s])]
    ring

/-! ## A transparent source -/

theorem contrast_zero_source (chosen : Bool) {d : Nat} (hd : d ≤ 255) (da : Nat) :
    contrast chosen 0 d 0 da = d := by
  have h : contrast chosen 0 d 0 da = div255Clamped (d * 255 : Nat) := by
    cases chosen <;> simp [contrast]
  rw [h, div255Clamped_cast (by omega), div255_mul_255 hd]

end ColorMix

namespace Operator
open ColorMix Formula

theorem color_dstCopy (s sa da : Nat) {d : Nat} (hd : d ≤ 255) :
    dstCopy.formula.color s d sa da = d := by
  simp [formula, Formula.color, div255_mul_255 hd, hd]

theorem color_srcCopy {s : Nat} (d sa da : Nat) (hs : s ≤ 255) :
    srcCopy.formula.color s d sa da = s := by
  simp [formula, Formula.color, div255_mul_255 hs, hs]

theorem color_clear (s d sa da : Nat) : clear.formula.color s d sa da = 0 := by
  simp [formula, Formula.color]

theorem alpha_dstCopy (sa : Nat) {da : Nat} (hd : da ≤ 255) :
    dstCopy.formula.alpha sa da = da := color_dstCopy sa sa da hd

theorem alpha_srcCopy {sa : Nat} (da : Nat) (hs : sa ≤ 255) :
    srcCopy.formula.alpha sa da = sa := color_srcCopy da sa da hs

theorem alpha_clear (sa da : Nat) : clear.formula.alpha sa da = 0 := color_clear sa da sa da

theorem color_srcOver {s d sa : Nat} (da : Nat) (hs : s ≤ sa) (ha : sa ≤ 255) (hd : d ≤ 255) :
    srcOver.formula.color s d sa da = s + mul255 d (255 - sa) := by
  rw [add_mul255 hs ha hd]
  exact Nat.min_eq_right (div255_le (over_le hs ha hd))

theorem color_dstOver {s d da : Nat} (sa : Nat) (hs : s ≤ 255) (hd : d ≤ da) (ha : da ≤ 255) :
    dstOver.formula.color s d sa da = d + mul255 s (255 - da) := by
  rw [add_mul255 hd ha hs, Nat.add_comm]
  exact Nat.min_eq_right (div255_le (by rw [Nat.add_comm]; exact over_le hd ha hs))

theorem color_zero_source {op : Operator} {d da : Nat} (hop : op.isIntegral)
    (hi : op.traits.idleOnClearSrc) (hd : d ≤ da) (ha : da ≤ 255) :
    op.formula.color 0 d 0 da = d := by
  have hd' : d ≤ 255 := hd.trans ha
  have hz := div255_mul_255 hd'
  have hm := mul255_255 hd'
  cases op with
  | srcOver | dstOver | dstOut | srcAtop | xor => simp [formula, Formula.color, hz, hd']
  | plus =>
    simp only [formula, Formula.color, addSat, Nat.zero_add]
    rw [if_pos (by omega), Nat.min_eq_right hd']
  | minus => simp [formula, Formula.color, ColorMix.minus, hd']
  | multiply => simp [formula, uniform, Formula.color, ColorMix.multiply, hz, hd']
  | screen => simp [formula, uniform, Formula.color, ColorMix.screen, hm, hd']
  | overlay => simp [formula, uniform, Formula.color, ColorMix.overlay, contrast_zero_source, hd']
  | hardLight =>
    simp [formula, uniform, Formula.color, ColorMix.hardLight, contrast_zero_source, hd']
  | darken => simp [formula, uniform, Formula.color, ColorMix.darken, hm, hd']
  | lighten => simp [formula, uniform, Formula.color, ColorMix.lighten, hm, hd']
  | linearBurn => simp [formula, uniform, Formula.color, ColorMix.linearBurn, hd']
  | linearLight =>
    simp [formula, uniform, Formula.color, linearLight_gray da (Nat.zero_le _) hd', hm, hd']
  | pinLight =>
    simp [formula, uniform, Formula.color, pinLight_gray (Nat.zero_le _) hd ha, hm, hd']
  | difference => simp [formula, Formula.color, ColorMix.difference, hd']
  | exclusion => simp [formula, Formula.color, ColorMix.exclusion, hd']
  | _ => cases hi <;> cases hop

theorem color_gray_source_under {op : Operator} {s d da : Nat}
    (hop : op ∈ [multiply, darken, linearBurn]) (hs : s ≤ 255) (hd : d ≤ da) (ha : da ≤ 255) :
    op.formula.color s d s da = dstOver.formula.color s d s da := by
  have hle : d + mul255 s (255 - da) ≤ 255 :=
    (add_mul255 hd ha hs).trans_le (div255_le (over_le hd ha hs))
  rw [color_dstOver s hs hd ha]
  simp only [List.mem_cons, List.not_mem_nil, or_false] at hop
  obtain rfl | rfl | rfl := hop
  · exact (congrArg (min 255) (multiply_gray hs hd ha)).trans (Nat.min_eq_right hle)
  · exact (congrArg (min 255) (darken_gray hs hd ha)).trans (Nat.min_eq_right hle)
  · exact (congrArg (min 255) (linearBurn_gray hs hd ha)).trans (Nat.min_eq_right hle)

theorem color_gray_source_over {op : Operator} {s d da : Nat}
    (hop : op ∈ [screen, lighten, linearLight, pinLight, hardLight]) (hs : s ≤ 255) (hd : d ≤ da)
    (ha : da ≤ 255) : op.formula.color s d s da = srcOver.formula.color s d s da := by
  have hd' := hd.trans ha
  have hle : s + mul255 d (255 - s) ≤ 255 :=
    (add_mul255 le_rfl hs hd').trans_le (div255_le (over_le le_rfl hs hd'))
  rw [color_srcOver da le_rfl hs hd']
  refine (congrArg (min 255) ?_).trans (Nat.min_eq_right hle)
  simp only [List.mem_cons, List.not_mem_nil, or_false] at hop
  obtain rfl | rfl | rfl | rfl | rfl := hop
  · rfl
  · exact lighten_gray hs hd ha
  · exact linearLight_gray da hs hd'
  · exact pinLight_gray hs hd ha
  · -- twice an alpha is not less than the alpha
    have hnot : decide (2 * s < s) = false := decide_eq_false (by omega)
    show ColorMix.hardLight s d s da = _
    rw [ColorMix.hardLight, hnot]
    exact contrast_gray hs hd'

/-! ## Alpha -/

theorem alpha_joined {op : Operator} {sa da : Nat} (hop : op.joinsAlpha) (hs : sa ≤ 255)
    (hd : da ≤ 255) : op.formula.alpha sa da = unionAlpha sa da := by
  have hover : srcOver.formula.color sa da sa da = unionAlpha sa da := by
    rw [color_srcOver da le_rfl hs hd, unionAlpha_eq hs hd]
  have hunder : dstOver.formula.color sa da sa da = unionAlpha sa da := by
    rw [color_dstOver sa hs le_rfl hd, unionAlpha_comm hs hd, unionAlpha_eq hd hs]
  have hmin : min 255 (unionAlpha sa da) = unionAlpha sa da :=
    Nat.min_eq_right (unionAlpha_le hs hd)
  have honUnder (op : Operator) (h : op ∈ [multiply, darken, linearBurn]) :
      op.formula.color sa da sa da = unionAlpha sa da :=
    (color_gray_source_under h hs le_rfl hd).trans hunder
  have honOver (op : Operator) (h : op ∈ [screen, lighten, linearLight, pinLight, hardLight]) :
      op.formula.color sa da sa da = unionAlpha sa da :=
    (color_gray_source_over h hs le_rfl hd).trans hover
  cases op with
  | srcOver => exact hover
  | dstOver => exact hunder
  | multiply => exact honUnder multiply (by simp)
  | darken => exact honUnder darken (by simp)
  | linearBurn => exact honUnder linearBurn (by simp)
  | screen => exact honOver screen (by simp)
  | lighten => exact honOver lighten (by simp)
  | linearLight => exact honOver linearLight (by simp)
  | pinLight => exact honOver pinLight (by simp)
  | hardLight => exact honOver hardLight (by simp)
  | overlay =>
    have hnot : decide (2 * da < da) = false := decide_eq_false (by omega)
    show min 255 (ColorMix.overlay sa da sa da) = _
    rw [ColorMix.overlay, hnot, contrast_gray hs hd, ← unionAlpha_eq hs hd, hmin]
  | minus => exact (congrArg (min 255) (minusAlpha_eq hs hd)).trans hmin
  | difference | exclusion => exact (congrArg (min 255) (coveredAlpha_eq hs hd)).trans hmin
  | colorDodge | colorBurn | softLight => exact hmin
  | _ => cases hop

/-- Drawing on top keeps the alpha of what is below. -/
theorem alpha_srcAtop {sa da : Nat} (hs : sa ≤ 255) (hd : da ≤ 255) :
    srcAtop.formula.alpha sa da = da := by
  have h := Nat.mul_le_mul_left da hs
  have hsum : sa * da + da * (255 - sa) = da * 255 := by
    rw [Nat.mul_sub, Nat.mul_comm sa da]
    omega
  show min 255 (div255 (sa * da + da * (255 - sa))) = da
  rw [hsum, div255_mul_255 hd, Nat.min_eq_right hd]

theorem alpha_dstAtop {sa da : Nat} (hs : sa ≤ 255) (hd : da ≤ 255) :
    dstAtop.formula.alpha sa da = sa := by
  have h := Nat.mul_le_mul_left sa hd
  have hsum : sa * (255 - da) + da * sa = sa * 255 := by
    rw [Nat.mul_sub, Nat.mul_comm da sa]
    omega
  show min 255 (div255 (sa * (255 - da) + da * sa)) = sa
  rw [hsum, div255_mul_255 hs, Nat.min_eq_right hs]

theorem color_modulate_gray (s d da : Nat) :
    modulate.formula.color s d s da = dstIn.formula.color s d s da := by
  show min 255 (div255 (s * d)) = min 255 (div255 (s * 0 + d * s))
  rw [Nat.mul_zero, Nat.zero_add, Nat.mul_comm]

theorem alpha_dstIn (sa da : Nat) : dstIn.formula.alpha sa da = srcIn.formula.alpha sa da := by
  show min 255 (div255 (sa * 0 + da * sa)) = min 255 (div255 (sa * da + da * 0))
  rw [Nat.mul_zero, Nat.mul_zero, Nat.zero_add, Nat.add_zero, Nat.mul_comm]

/-- A source with full alpha drawn outside of the destination inverts its alpha. -/
theorem alpha_alphaInv (da : Nat) :
    alphaInv.formula.alpha 255 da = srcOut.formula.alpha 255 da := by
  show min 255 (255 - da) = min 255 (div255 (255 * (255 - da) + da * 0))
  rw [Nat.mul_zero, Nat.add_zero, Nat.mul_comm, div255_mul_255 (Nat.sub_le _ _)]

theorem alpha_zero_source {op : Operator} {da : Nat} (hi : op.traits.idleOnClearSrc)
    (hd : da ≤ 255) : op.formula.alpha 0 da = da := by
  have hjoin : unionAlpha 0 da = da := by
    rw [unionAlpha_eq (Nat.zero_le _) hd, Nat.sub_zero, mul255_255 hd, Nat.zero_add]
  have hcolor (op : Operator) (hop : op.isIntegral) (hi : op.traits.idleOnClearSrc) :
      op.formula.color 0 da 0 da = da := color_zero_source hop hi le_rfl hd
  cases op with
  | dstOut => exact hcolor dstOut rfl rfl
  | srcAtop => exact hcolor srcAtop rfl rfl
  | xor => exact hcolor xor rfl rfl
  | plus => exact hcolor plus rfl rfl
  | srcOver | dstOver | minus | multiply | screen | overlay | darken | lighten | colorDodge
  | colorBurn | linearBurn | linearLight | pinLight | hardLight | softLight | difference
  | exclusion => exact (alpha_joined rfl (Nat.zero_le _) hd).trans hjoin
  | _ => cases hi

end Operator

end Scanline
