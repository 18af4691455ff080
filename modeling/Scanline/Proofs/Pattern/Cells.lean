import Scanline.Proofs.Pattern.Coordinates
import Scanline.Proofs.Pattern.Steps

/-
  The cells of a mapped pattern. An axis that is shaped by its rule counts cells as the rule does,
  and those of a mirrored one from its other end (`AxisRule.cell`). Across the seam of a period the
  corrections of the axis do that as well (`SampleAxis.correct_corrections`), so a position that was
  brought back names the cell of the exact one, and the next cell after it
  (`SampleAxis.Shaped.correct_normalize`). No coordinate reaches the sides of the pattern
  (`SampleAxis.Shaped.index_normalize`).
-/

namespace Scanline

/-- Where a cell falls on an axis of `n` cells. -/
def AxisRule.cell (r : AxisRule) (n c : Int) : Int :=
  if r.extend = .tile ∧ r.mirrored then n - 1 - c % n else r.extend.coordinate n c

namespace AxisRule

theorem cell_mem (r : AxisRule) {n : Int} (hn : 0 < n) (c : Int) :
    0 ≤ r.cell n c ∧ r.cell n c < n := by
  unfold cell
  split
  · have h0 := Int.emod_nonneg c hn.ne'
    have hlt := Int.emod_lt_of_pos c hn
    omega
  · exact r.extend.coordinate_mem hn c

/-- Cells whole periods apart fall on the same cell. -/
theorem cell_congr {r : AxisRule} (hr : r.extend ≠ .pad) {n c d : Int}
    (h : c % SampleAxis.span r.extend n = d % SampleAxis.span r.extend n) :
    r.cell n c = r.cell n d := by
  unfold cell
  split
  · rename_i htile
    rw [htile.1] at h
    exact congrArg (n - 1 - ·) h
  · exact Extend.coordinate_congr hr h

end AxisRule

namespace SampleAxis

/-- The cell `x` with the corrections of the axis. -/
def correct (a : SampleAxis) (x : Int) : Int :=
  foldSign (if a.greatest < max x a.least then a.corner else max x a.least)

/-- The pattern coordinate `offset` cells after a position, before it is limited to the sides. -/
def rawIndex (a : SampleAxis) (v offset : Int) : Nat :=
  (a.correct (wrap32 (cell v + offset))).toNat

theorem index_eq_min (a : SampleAxis) (n : Nat) (v offset : Int) :
    a.index n v offset = min (a.rawIndex v offset) (n - 1) := rfl

/-- The fraction of a position does not depend on its cell. -/
theorem fraction_sub (v k : Int) : fraction (v - k * 2 ^ 32) = fraction v := by
  unfold fraction
  congr 2
  exact Int.sub_mul_emod_self_right v k (2 ^ 32)

variable {a : SampleAxis} {r : AxisRule} {n : Int}

/-- An axis is corrected as it is without its course. -/
theorem Shaped.correct_eq (h : a.Shaped r n) (x : Int) :
    a.correct x = (corrections r.extend n r.mirrored).correct x := by
  rw [← h.atRest_eq]
  rfl

/-- From the first cell of a period, which ends with `last`, to the cell after it, the corrections
give the cells of the rule. -/
theorem correct_corrections (hr : r.extend ≠ .pad) (hn : 0 < n) {x : Int} (hword : minInt32 ≤ x)
    (hlow : (corrections r.extend n r.mirrored).last + 1 -
      (corrections r.extend n r.mirrored).period ≤ x)
    (hhigh : x ≤ (corrections r.extend n r.mirrored).last + 1) :
    (corrections r.extend n r.mirrored).correct x = r.cell n x := by
  have hmax : max x minInt32 = x := Int.max_eq_left hword
  unfold AxisRule.cell
  cases he : r.extend with
  | pad => exact absurd he hr
  | tile =>
    rw [he] at hlow hhigh
    cases hm : r.mirrored with
    | false =>
      rw [hm] at hlow hhigh
      change n - 1 + 1 - n ≤ x at hlow
      change x ≤ n - 1 + 1 at hhigh
      change foldSign (if n - 1 < max x minInt32 then 0 else max x minInt32) = x % n
      rw [hmax]
      -- Only the cell after the last one is beyond `greatest`.
      by_cases hend : x = n
      · rw [if_pos (show n - 1 < x by omega), hend, Int.emod_self]
        rfl
      · rw [if_neg (show ¬n - 1 < x by omega), Int.emod_eq_of_lt (by omega) (by omega), foldSign,
          if_neg (show ¬x < 0 by omega)]
    | true =>
      rw [hm] at hlow hhigh
      change -1 + 1 - n ≤ x at hlow
      change x ≤ -1 + 1 at hhigh
      change foldSign (if -1 < max x minInt32 then n - 1 else max x minInt32) = n - 1 - x % n
      rw [hmax, ← Int.add_emod_right]
      by_cases hend : x = 0
      · rw [if_pos (show -1 < x by omega), hend, Int.zero_add, Int.emod_self, foldSign,
          if_neg (show ¬n - 1 < 0 by omega), Int.sub_zero]
      · rw [if_neg (show ¬-1 < x by omega), Int.emod_eq_of_lt (by omega) (by omega), foldSign,
          if_pos (show x < 0 by omega)]
        omega
  | reflect =>
    rw [he] at hlow hhigh
    change n - 1 + 1 - 2 * n ≤ x at hlow
    change x ≤ n - 1 + 1 at hhigh
    change foldSign (if n - 1 < max x minInt32 then n - 1 else max x minInt32) =
      if x % (2 * n) < n then x % (2 * n) else 2 * n - 1 - x % (2 * n)
    rw [hmax]
    unfold foldSign
    rcases Int.lt_or_le x 0 with hneg | hpos
    · rw [← Int.add_emod_right, Int.emod_eq_of_lt (by omega) (by omega)]
      repeat' split
      all_goals omega
    · rw [Int.emod_eq_of_lt (by omega) (by omega)]
      repeat' split
      all_goals omega

theorem correct_pad (hn : 0 < n) (mirrored : Bool) (x : Int) :
    (corrections .pad n mirrored).correct x = Extend.pad.coordinate n x := by
  change foldSign (if n - 1 < max x 0 then n - 1 else max x 0) =
    if x < 0 then 0 else if n - 1 < x then n - 1 else x
  unfold foldSign
  repeat' split
  all_goals omega

/-- The home of a position lies in the period, in a cell whole periods away. -/
theorem Cyclic.cell_home (h : a.Cyclic) (v : Int) :
    ∃ k, cell (a.home v) = cell v - k * a.period ∧ a.last + 1 - a.period ≤ cell (a.home v) ∧
      cell (a.home v) ≤ a.last := by
  obtain ⟨hlow, hhigh⟩ := h.home_mem v
  obtain ⟨k, hk⟩ := a.home_eq v
  rw [← Int.mul_assoc] at hk
  unfold cell
  exact ⟨k, by omega, by omega, by omega⟩

/-- A position that was brought back falls on the cell of the exact one, and so does the next
cell. -/
theorem Shaped.correct_normalize (h : a.Shaped r n) (hn : 0 < n) (hn' : n < 2 ^ 29) {v : Int}
    (hv : v.natAbs < 2 ^ 61) {o : Int} (ho : o = 0 ∨ o = 1) :
    a.correct (wrap32 (cell (a.normalize v) + o)) = r.cell n (cell v + o) := by
  rw [h.correct_eq]
  by_cases hr : r.extend = .pad
  · have hword : wrap32 (cell v + o) = cell v + o := by
      unfold cell
      exact wrap32_of_range (by unfold minInt32; omega) (by unfold maxInt32; omega)
    have hcell : r.cell n (cell v + o) = r.extend.coordinate n (cell v + o) :=
      if_neg fun htile => by rw [hr] at htile; cases htile.1
    rw [(h.straight hr).normalize_eq hv, hword, hcell, hr, correct_pad hn]
  · have hcyclic := h.cyclic hr hn hn'
    have hperiod := hcyclic.period_lt
    have hlast := hcyclic.least_last
    have hlast' := hcyclic.last_lt
    obtain ⟨k, hk, hlow, hhigh⟩ := hcyclic.cell_home v
    have hword : wrap32 (cell (a.home v) + o) = cell (a.home v) + o :=
      wrap32_of_range (by unfold minInt32; omega) (by unfold maxInt32; omega)
    have hsame : (cell (a.home v) + o) % span r.extend n = (cell v + o) % span r.extend n := by
      rw [← period_corrections hr n r.mirrored, ← h.period_eq, hk,
        show cell v - k * a.period + o = cell v + o - k * a.period by omega]
      exact Int.sub_mul_emod_self_right _ _ _
    -- The home lies in the range of the corrections, and the rule does not see whole periods.
    rw [hcyclic.normalize_eq, hword, correct_corrections hr hn (by unfold minInt32; omega)
      (by rw [← h.last_eq, ← h.period_eq]; omega) (by rw [← h.last_eq]; omega),
      AxisRule.cell_congr hr hsame]

/-- A position that was brought back keeps its fraction. -/
theorem Shaped.fraction_normalize (h : a.Shaped r n) (hn : 0 < n) (hn' : n < 2 ^ 29) {v : Int}
    (hv : v.natAbs < 2 ^ 61) : fraction (a.normalize v) = fraction v := by
  by_cases hr : r.extend = .pad
  · rw [(h.straight hr).normalize_eq hv]
  · obtain ⟨k, hk⟩ := a.home_eq v
    rw [(h.cyclic hr hn hn').normalize_eq, hk, ← Int.mul_assoc, fraction_sub]

/-- The sides of the pattern limit no coordinate that is read, and it is the cell of the exact
position. -/
theorem Shaped.index_normalize {n : Nat} (h : a.Shaped r n) (hn : 0 < n) (hn' : n < 2 ^ 29)
    {v : Int} (hv : v.natAbs < 2 ^ 61) {o : Int} (ho : o = 0 ∨ o = 1) :
    a.index n (a.normalize v) o = a.rawIndex (a.normalize v) o ∧
      a.index n (a.normalize v) o = r.cell n (cell v + o) := by
  obtain ⟨h0, hlt⟩ := r.cell_mem (show 0 < (n : Int) by omega) (cell v + o)
  have hraw : a.rawIndex (a.normalize v) o = (r.cell n (cell v + o)).toNat :=
    congrArg Int.toNat (h.correct_normalize (by omega) (by omega) hv ho)
  rw [index_eq_min, hraw]
  omega

theorem fraction_lt (v : Int) : fraction v < 256 := by
  unfold fraction
  omega

end SampleAxis

end Scanline
