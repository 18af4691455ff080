import Mathlib.Tactic.Ring
import Mathlib.Tactic.Linarith
import Scanline.Pixel.Channels

/-
  Division by 255. Products of 8-bit values are divided with shifts; up to `255 * 255` that is
  rounding to nearest (`div255_eq`). Rounding is exact on multiples of 255 and never meets a tie,
  so that a value and its complement round to complements (`div255_add_div255`).
-/

namespace Scanline

theorem div255_eq {v : Nat} (h : v ≤ 65025) : div255 v = (v + 127) / 255 := by
  unfold div255
  omega

@[simp] theorem div255_zero : div255 0 = 0 := rfl

theorem div255_mono {v w : Nat} (h : v ≤ w) : div255 v ≤ div255 w := by
  unfold div255
  omega

/-- A multiple of 255 comes out of the rounding. -/
theorem div255_add {a v : Nat} (h : a * 255 + v ≤ 65025) :
    div255 (a * 255 + v) = a + div255 v := by
  rw [div255_eq h, div255_eq (by omega)]
  omega

theorem div255_le {v : Nat} (h : v ≤ 65025) : div255 v ≤ 255 := by
  rw [div255_eq h]
  omega

theorem div255_add_div255 {a v : Nat} (ha : a ≤ 255) (hv : v ≤ a * 255) :
    div255 v + div255 (a * 255 - v) = a := by
  rw [div255_eq (by omega), div255_eq (by omega)]
  omega

theorem mul255_comm (x y : Nat) : mul255 x y = mul255 y x := by
  rw [mul255, mul255, Nat.mul_comm]

@[simp] theorem mul255_zero (x : Nat) : mul255 x 0 = 0 := by
  rw [mul255, Nat.mul_zero, div255_zero]

@[simp] theorem zero_mul255 (x : Nat) : mul255 0 x = 0 := by
  rw [mul255, Nat.zero_mul, div255_zero]

theorem mul255_255 {x : Nat} (h : x ≤ 255) : mul255 x 255 = x := div255_mul_255 h

/-- What `y` takes of `x` and what the rest of 255 takes of it are all of `x`. -/
theorem mul255_add_mul255 {x y : Nat} (hx : x ≤ 255) (hy : y ≤ 255) :
    mul255 x y + mul255 x (255 - y) = x := by
  have h := div255_add_div255 hx (Nat.mul_le_mul_left x hy)
  rwa [← Nat.mul_sub] at h

end Scanline
