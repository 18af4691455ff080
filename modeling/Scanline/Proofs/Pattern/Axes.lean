import Scanline.Pattern.Cursor
import Scanline.Proofs.Numeric.Words
import Mathlib.Tactic.Linarith
import Mathlib.Tactic.Ring

/-
  Axes of a mapped pattern. On an axis that repeats, a position stands for all that lie whole
  periods away, and is kept as the one in the period up to `last` (`SampleAxis.home`). Bringing a
  position home, advancing it by one column and skipping columns agree on it
  (`SampleAxis.Sound.advance_normalize`, `SampleAxis.Sound.normalize_skip`).
-/

namespace Scanline

namespace SampleAxis

/-- The exact position at column `x` of row `y`. -/
def position (a : SampleAxis) (y x : Int) : Int := a.start + a.rowStep * y + a.step * x

theorem position_add (a : SampleAxis) (y x : Int) (n : Nat) :
    a.position y (x + n) = a.position y x + a.step * n := by
  unfold position
  ring

theorem position_succ (a : SampleAxis) (y x : Int) :
    a.position y (x + 1) = a.position y x + a.step := by
  unfold position
  ring

/-- Rows and columns that are counted in words lead to the exact position. -/
theorem wrap64_position (a : SampleAxis) {y x : Int} (h : (a.position y x).natAbs < 2 ^ 61) :
    wrap64 (wrap64 (a.start + a.rowStep * y) + a.step * x) = a.position y x := by
  rw [wrap64_add]
  exact wrap64_of_range (by unfold position at h; unfold minInt64; omega)
    (by unfold position at h; unfold maxInt64; omega)

/-- An axis that starts again: its step does not pass over a period. -/
structure Cyclic (a : SampleAxis) : Prop where
  period_pos : 0 < a.period
  period_lt : a.period < 2 ^ 30
  modulus_eq : a.modulus = a.period
  least_last : -1 ≤ a.last
  last_lt : a.last < a.period
  step_nonneg : 0 ≤ a.step
  step_le : a.step ≤ a.period * 2 ^ 32

/-- An axis on which every position stands for itself. -/
structure Straight (a : SampleAxis) : Prop where
  period_eq : a.period = 0
  last_eq : a.last = maxInt32
  modulus_eq : a.modulus = maxInt32

/-- What is promised of the axes of a pattern. -/
def Sound (a : SampleAxis) : Prop := a.Cyclic ∨ a.Straight

theorem cell_withCell (v x : Int) : cell (withCell v x) = x := by
  unfold cell withCell
  omega

theorem withCell_cell (v : Int) : withCell v (cell v) = v := by
  unfold cell withCell
  omega

theorem withCell_sub (v k : Int) : withCell v (cell v - k) = v - k * 2 ^ 32 := by
  unfold cell withCell
  omega

section Cyclic

variable {a : SampleAxis}

/-- The position of the period up to `last` that `v` stands for. -/
def home (a : SampleAxis) (v : Int) : Int :=
  let first := (a.last + 1 - a.period) * 2 ^ 32
  first + (v - first) % (a.period * 2 ^ 32)

/-- What lies in the period and is whole periods away from a position is its home. -/
theorem Cyclic.home_unique (h : a.Cyclic) {v w k : Int} (hk : w = v - k * (a.period * 2 ^ 32))
    (hlow : (a.last + 1 - a.period) * 2 ^ 32 ≤ w) (hhigh : w < (a.last + 1) * 2 ^ 32) :
    w = a.home v := by
  have hpos := h.period_pos
  unfold home
  dsimp only
  have hmod : (w - (a.last + 1 - a.period) * 2 ^ 32) % (a.period * 2 ^ 32) =
      w - (a.last + 1 - a.period) * 2 ^ 32 := Int.emod_eq_of_lt (by omega) (by linarith)
  have hshift : w - (a.last + 1 - a.period) * 2 ^ 32 =
      v - (a.last + 1 - a.period) * 2 ^ 32 + (-k) * (a.period * 2 ^ 32) := by
    rw [hk]
    ring
  rw [hshift, Int.add_mul_emod_self_right] at hmod
  rw [hmod]
  linarith

theorem Cyclic.home_mem (h : a.Cyclic) (v : Int) :
    (a.last + 1 - a.period) * 2 ^ 32 ≤ a.home v ∧ a.home v < (a.last + 1) * 2 ^ 32 := by
  have hpos := h.period_pos
  have h0 := Int.emod_nonneg (v - (a.last + 1 - a.period) * 2 ^ 32)
    (show a.period * 2 ^ 32 ≠ 0 by omega)
  have hlt := Int.emod_lt_of_pos (v - (a.last + 1 - a.period) * 2 ^ 32)
    (show 0 < a.period * 2 ^ 32 by omega)
  unfold home
  dsimp only
  constructor
  · omega
  · linarith

theorem home_eq (a : SampleAxis) (v : Int) : ∃ k, a.home v = v - k * (a.period * 2 ^ 32) := by
  refine ⟨(v - (a.last + 1 - a.period) * 2 ^ 32) / (a.period * 2 ^ 32), ?_⟩
  have := Int.emod_add_mul_ediv (v - (a.last + 1 - a.period) * 2 ^ 32) (a.period * 2 ^ 32)
  unfold home
  dsimp only
  linarith [Int.mul_comm (a.period * 2 ^ 32)
    ((v - (a.last + 1 - a.period) * 2 ^ 32) / (a.period * 2 ^ 32))]

/-- Positions that are whole periods apart have the same home. -/
theorem Cyclic.home_congr (h : a.Cyclic) {v w k : Int} (hk : w = v - k * (a.period * 2 ^ 32)) :
    a.home w = a.home v := by
  obtain ⟨hlow, hhigh⟩ := h.home_mem w
  obtain ⟨j, hj⟩ := a.home_eq w
  refine h.home_unique (k := k + j) ?_ hlow hhigh
  rw [hj, hk]
  ring

/-- A position is brought home by the remainder of its cell. -/
theorem Cyclic.normalize_eq (h : a.Cyclic) (v : Int) : a.normalize v = a.home v := by
  have hpos := h.period_pos
  have hlast := h.least_last
  have hlast' := h.last_lt
  have hlow := Int.lt_tmod_of_pos (cell v) hpos
  have hhigh := Int.tmod_lt_of_pos (cell v) hpos
  have hrem := Int.tmod_add_mul_tdiv (cell v) a.period
  have hnormalize : ∃ k, a.normalize v = withCell v (cell v - k * a.period) ∧
      a.last - a.period < cell v - k * a.period ∧ cell v - k * a.period ≤ a.last := by
    unfold normalize
    rw [h.modulus_eq]
    dsimp only
    generalize hq : (cell v).tdiv a.period = q at hrem
    generalize hr : (cell v).tmod a.period = r at *
    have hcell : cell v = r + q * a.period := by rw [← hrem, Int.mul_comm]
    have hback : cell v - (q - 1) * a.period = r + a.period := by rw [hcell]; ring
    have hkeep : cell v - q * a.period = r := by rw [hcell]; ring
    have hon : cell v - (q + 1) * a.period = r - a.period := by rw [hcell]; ring
    by_cases hneg : r < 0
    · rw [if_pos hneg]
      by_cases hbeyond : a.last < r + a.period
      · exact ⟨q, by rw [if_pos hbeyond, hkeep, Int.add_sub_cancel], by omega, by omega⟩
      · exact ⟨q - 1, by rw [if_neg hbeyond, hback], by omega, by omega⟩
    · rw [if_neg hneg]
      by_cases hbeyond : a.last < r
      · exact ⟨q + 1, by rw [if_pos hbeyond, hon], by omega, by omega⟩
      · exact ⟨q, by rw [if_neg hbeyond, hkeep], by omega, by omega⟩
  obtain ⟨k, hk, hmin, hmax⟩ := hnormalize
  have hcell := cell_withCell v (cell v - k * a.period)
  rw [← hk] at hcell
  unfold cell at hcell hmin hmax
  rw [withCell_sub] at hk
  exact h.home_unique (by rw [hk, Int.mul_assoc]) (by omega) (by omega)

/-- No position at home leaves its word with a step. -/
theorem Cyclic.advance_home (h : a.Cyclic) (v : Int) :
    a.advance (a.home v) = a.home (v + a.step) := by
  have hpos := h.period_pos
  have hlt := h.period_lt
  have hlast := h.least_last
  have hlast' := h.last_lt
  have hstep := h.step_nonneg
  have hstep' := h.step_le
  obtain ⟨hlow, hhigh⟩ := h.home_mem v
  obtain ⟨k, hk⟩ := a.home_eq v
  have hword : wrap64 (a.home v + a.step) = a.home v + a.step :=
    wrap64_of_range (by unfold minInt64; omega) (by unfold maxInt64; omega)
  unfold advance
  dsimp only
  rw [hword]
  split
  · rename_i hbeyond
    have hcell : wrap32 (cell (a.home v + a.step) - a.period) =
        cell (a.home v + a.step) - a.period := by
      unfold cell at hbeyond ⊢
      exact wrap32_of_range (by unfold minInt32; omega) (by unfold maxInt32; omega)
    unfold cell at hbeyond
    rw [hcell, withCell_sub]
    exact h.home_unique (k := k + 1) (by rw [hk]; ring) (by omega) (by omega)
  · rename_i hbelow
    unfold cell at hbelow
    exact h.home_unique (k := k) (by rw [hk]; ring) (by omega) (by omega)

end Cyclic

section Straight

variable {a : SampleAxis}

theorem Straight.normalize_eq (h : a.Straight) {v : Int} (hv : v.natAbs < 2 ^ 61) :
    a.normalize v = v := by
  have hcell : -(2 ^ 29 : Int) ≤ cell v ∧ cell v < 2 ^ 29 := by
    unfold cell
    omega
  have hmod : (cell v).tmod maxInt32 = cell v := by
    unfold maxInt32
    rcases Int.le_total 0 (cell v) with h0 | h0
    · exact Int.tmod_eq_of_lt h0 (by omega)
    · rw [← Int.neg_neg (cell v), Int.neg_tmod, Int.tmod_eq_of_lt (by omega) (by omega)]
  unfold normalize
  dsimp only
  rw [h.modulus_eq, hmod, h.period_eq, h.last_eq, Int.add_zero, ite_self,
    if_neg (by unfold maxInt32; omega), withCell_cell]

theorem Straight.advance_eq (h : a.Straight) {v : Int} (hv : (v + a.step).natAbs < 2 ^ 61) :
    a.advance v = v + a.step := by
  have hword : wrap64 (v + a.step) = v + a.step :=
    wrap64_of_range (by unfold minInt64; omega) (by unfold maxInt64; omega)
  unfold advance
  dsimp only
  rw [hword, h.last_eq, if_neg (by unfold cell maxInt32; omega)]

end Straight

section Sound

variable {a : SampleAxis} {v : Int}

/-- A step from a position that was brought back is as good as one before. -/
theorem Sound.advance_normalize (h : a.Sound) (hv : v.natAbs < 2 ^ 61)
    (hv' : (v + a.step).natAbs < 2 ^ 61) :
    a.advance (a.normalize v) = a.normalize (v + a.step) := by
  rcases h with h | h
  · rw [h.normalize_eq, h.normalize_eq, h.advance_home]
  · rw [h.normalize_eq hv, h.normalize_eq hv', h.advance_eq hv']

/-- Columns that are skipped from a position that was brought back are skipped as before. -/
theorem Sound.normalize_skip (h : a.Sound) {n : Nat} (hv : v.natAbs < 2 ^ 61)
    (hv' : (v + a.step * n).natAbs < 2 ^ 61) :
    a.normalize (wrap64 (a.normalize v + a.step * n)) = a.normalize (v + a.step * n) := by
  rcases h with h | h
  · have hlt := h.period_lt
    have hlast := h.least_last
    have hlast' := h.last_lt
    obtain ⟨hlow, hhigh⟩ := h.home_mem v
    obtain ⟨k, hk⟩ := a.home_eq v
    have hword : wrap64 (a.home v + a.step * n) = a.home v + a.step * n :=
      wrap64_of_range (by unfold minInt64; omega) (by unfold maxInt64; omega)
    rw [h.normalize_eq, h.normalize_eq, h.normalize_eq, hword]
    exact h.home_congr (k := k) (by rw [hk]; ring)
  · rw [h.normalize_eq hv, wrap64_of_range (by unfold minInt64; omega) (by unfold maxInt64; omega)]

end Sound

end SampleAxis

end Scanline
