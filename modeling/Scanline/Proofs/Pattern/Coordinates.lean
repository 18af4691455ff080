import Scanline.Proofs.Pattern.Placements

/-
  The cells of a placed pattern. Coordinates that lie whole periods apart fall on the same cell
  (`Extend.coordinate_congr`). A walk that is started at a coordinate is at the cell where it falls
  (`ColumnWalk.index_start`, `RowWalk.index_start`), and then at the cell of the next coordinate
  (`ColumnWalk.index_next_start`, `RowWalk.index_next_start`), even if that one is no word.
-/

namespace Scanline

namespace Extend

theorem coordinate_mem (e : Extend) {n : Int} (hn : 0 < n) (v : Int) :
    0 ≤ e.coordinate n v ∧ e.coordinate n v < n := by
  cases e with
  | pad =>
    unfold coordinate
    dsimp only
    split
    · omega
    · split <;> omega
  | tile => exact ⟨Int.emod_nonneg _ hn.ne', Int.emod_lt_of_pos _ hn⟩
  | reflect =>
    have h0 := Int.emod_nonneg v (show 2 * n ≠ 0 by omega)
    have hlt := Int.emod_lt_of_pos v (show 0 < 2 * n by omega)
    unfold coordinate
    dsimp only
    split <;> omega

theorem toNat_coordinate_lt (e : Extend) {n : Nat} (hn : 0 < n) (v : Int) :
    (e.coordinate n v).toNat < n := by
  have := e.coordinate_mem (show 0 < (n : Int) by omega) v
  omega

/-- Coordinates whole periods apart fall on the same cell. -/
theorem coordinate_congr {e : Extend} (he : e ≠ .pad) {n v w : Int}
    (h : v % SampleAxis.span e n = w % SampleAxis.span e n) :
    e.coordinate n v = e.coordinate n w := by
  cases e with
  | pad => exact absurd rfl he
  | tile => exact h
  | reflect =>
    change v % (2 * n) = w % (2 * n) at h
    unfold coordinate
    dsimp only
    rw [h]

/-- A single cell looks the same under every rule. -/
theorem coordinate_axisExtend (e : Extend) {n : Nat} (hn : 0 < n) (v : Int) :
    (Placement.axisExtend e n).coordinate n v = e.coordinate n v := by
  unfold Placement.axisExtend
  split
  · have hpad := Extend.pad.coordinate_mem (show 0 < (n : Int) by omega) v
    have he := e.coordinate_mem (show 0 < (n : Int) by omega) v
    omega
  · rfl

end Extend

/-- Where mirrored cells are kept negative, folding them gives the cell of a coordinate. -/
theorem foldSign_eq_coordinate {e : Extend} (he : e ≠ .pad) {n : Int} (hn : 0 < n) (v : Int) :
    foldSign (if n ≤ v % SampleAxis.span e n then v % SampleAxis.span e n - SampleAxis.span e n
      else v % SampleAxis.span e n) = e.coordinate n v := by
  have hspan : 0 < SampleAxis.span e n := by
    unfold SampleAxis.span
    split <;> omega
  have h0 := Int.emod_nonneg v hspan.ne'
  have hlt := Int.emod_lt_of_pos v hspan
  cases e with
  | pad => exact absurd rfl he
  | tile =>
    change v % n < n at hlt
    change 0 ≤ v % n at h0
    change foldSign (if n ≤ v % n then _ else v % n) = v % n
    rw [if_neg hlt.not_ge, foldSign, if_neg h0.not_gt]
  | reflect =>
    change v % (2 * n) < 2 * n at hlt
    change 0 ≤ v % (2 * n) at h0
    change foldSign (if n ≤ v % (2 * n) then v % (2 * n) - 2 * n else v % (2 * n)) =
      if v % (2 * n) < n then v % (2 * n) else 2 * n - 1 - v % (2 * n)
    unfold foldSign
    repeat' split
    all_goals omega

/-- An axis that starts again has a period. -/
theorem Placement.period_pos {e : Extend} {n : Nat} (he : e ≠ .pad) (hn : 0 < n)
    (hs : SampleAxis.span e n ≤ maxInt32) : 0 < period e n := by
  have hspan := SampleAxis.le_span e n
  rw [period_eq_span he hs]
  omega

/-- A step that stays at the end of the words is not seen in a narrower range. -/
theorem clampInt_succ32 {hi : Int} (h0 : 0 ≤ hi) (h : hi ≤ maxInt32) (v : Int) :
    clampInt 0 hi (succ32 v) = clampInt 0 hi (v + 1) := by
  unfold clampInt succ32
  repeat' split
  all_goals omega

namespace ColumnWalk

/-- Whether a walk over columns runs the rule of an axis; without a period every walk pads. -/
def Runs (rule : ColumnRule) (e : Extend) : Prop :=
  e = .pad ∨ rule = .fold ∨ rule = .tile ∧ e = .tile

variable {source : PatternSource} {e : Extend} {rule : ColumnRule}

theorem rule_ofSource (he : e ≠ .pad) (hw : 0 < source.width)
    (hs : SampleAxis.span e source.width ≤ maxInt32) (rule : ColumnRule) (tx : Int) :
    (ofSource source rule tx (Placement.period e source.width)).rule = rule :=
  if_neg (Placement.period_pos he hw hs).ne'

/-- A walk at a column is at the cell where the column falls. -/
theorem index_moveTo (hw : 0 < source.width) (hs : SampleAxis.span e source.width ≤ maxInt32)
    (hr : Runs rule e) (tx v : Int) :
    ((ofSource source rule tx (Placement.period e source.width)).moveTo v).index =
      (e.coordinate source.width v).toNat := by
  by_cases he : e = .pad
  · subst he
    rfl
  · unfold index moveTo
    dsimp only
    rw [rule_ofSource he hw hs]
    rcases hr.resolve_left he with rfl | ⟨rfl, rfl⟩
    · change (foldSign (if (source.width : Int) ≤ v % Placement.period e source.width then
        v % Placement.period e source.width - Placement.period e source.width
          else v % Placement.period e source.width)).toNat = _
      rw [Placement.period_eq_span he hs, foldSign_eq_coordinate he (by omega)]
    · rfl

/-- A walk that is started at a column is at the cell where the column falls. -/
theorem index_start (hw : 0 < source.width) (hs : SampleAxis.span e source.width ≤ maxInt32)
    (hr : Runs rule e) (tx : Int) {x : Int} (hx : FitsWord (x + tx)) :
    ((ofSource source rule tx (Placement.period e source.width)).start x).index =
      (e.coordinate source.width (x + tx)).toNat := by
  rw [start_eq_moveTo hx, index_moveTo hw hs hr]
  rfl

/-- The next column is at the cell where it falls. -/
theorem index_next_start (hw : 0 < source.width) (hs : SampleAxis.span e source.width ≤ maxInt32)
    (hr : Runs rule e) (tx : Int) {x : Int} (hx : FitsWord (x + tx)) :
    ((ofSource source rule tx (Placement.period e source.width)).start x).next.index =
      (e.coordinate source.width (x + tx + 1)).toNat := by
  have hw' : (source.width : Int) ≤ maxInt32 := (SampleAxis.le_span e source.width).trans hs
  by_cases he : e = .pad
  · subst he
    change (clampInt 0 (source.width - 1) (succ32 (wrap32 (x + tx)))).toNat = _
    rw [wrap32_of_fits hx, clampInt_succ32 (by omega) (by omega)]
    rfl
  · have hsound := sound_ofSource hw hw' (Placement.periodOf_period hs) rule tx
    have hrule : (ofSource source rule tx (Placement.period e source.width)).rule ≠ .pad := by
      rw [rule_ofSource he hw hs]
      rcases hr.resolve_left he with rfl | ⟨rfl, -⟩ <;> decide
    rw [start_eq_moveTo hx, hsound.next_moveTo fun h => absurd h hrule, index_moveTo hw hs hr]
    rfl

end ColumnWalk

namespace RowWalk

variable {source : PatternSource} {e : Extend}

theorem extend_ofSource (he : e ≠ .pad) (hh : 0 < source.height)
    (hs : SampleAxis.span e source.height ≤ maxInt32) (ty : Int) :
    (ofSource source ty (Placement.period e source.height) e).extend = e :=
  if_neg (Placement.period_pos he hh hs).ne'

/-- A walk at a row is at the cell where the row falls. -/
theorem index_moveTo (hh : 0 < source.height) (hs : SampleAxis.span e source.height ≤ maxInt32)
    (ty v : Int) :
    ((ofSource source ty (Placement.period e source.height) e).moveTo v).index =
      (e.coordinate source.height v).toNat := by
  by_cases he : e = .pad
  · subst he
    rfl
  · unfold index moveTo
    dsimp only
    rw [extend_ofSource he hh hs, if_neg he, if_neg he]
    change (if v % Placement.period e source.height < (source.height : Int) then
      v % Placement.period e source.height
        else Placement.period e source.height - 1 - v % Placement.period e source.height).toNat = _
    rw [Placement.period_eq_span he hs]
    cases e with
    | pad => exact absurd rfl he
    | tile =>
      have hlt := Int.emod_lt_of_pos v (show 0 < (source.height : Int) by omega)
      exact congrArg Int.toNat (if_pos hlt)
    | reflect => rfl

/-- A walk that is started at a row is at the cell where the row falls. -/
theorem index_start (hh : 0 < source.height) (hs : SampleAxis.span e source.height ≤ maxInt32)
    (ty : Int) {y : Int} (hy : FitsWord (y + ty)) :
    ((ofSource source ty (Placement.period e source.height) e).start y).index =
      (e.coordinate source.height (y + ty)).toNat := by
  rw [start_eq_moveTo hy, index_moveTo hh hs]
  rfl

/-- The next row is at the cell where it falls. -/
theorem index_next_start (hh : 0 < source.height)
    (hs : SampleAxis.span e source.height ≤ maxInt32) (ty : Int) {y : Int}
    (hy : FitsWord (y + ty)) :
    ((ofSource source ty (Placement.period e source.height) e).start y).next.index =
      (e.coordinate source.height (y + ty + 1)).toNat := by
  have hh' : (source.height : Int) ≤ maxInt32 := (SampleAxis.le_span e source.height).trans hs
  by_cases he : e = .pad
  · subst he
    change (clampInt 0 (source.height - 1) (succ32 (wrap32 (y + ty)))).toNat = _
    rw [wrap32_of_fits hy, clampInt_succ32 (by omega) (by omega)]
    rfl
  · have hsound := sound_ofSource hh (Placement.periodOf_period hs) (Placement.period_le _ _) e ty
    have hextend : (ofSource source ty (Placement.period e source.height) e).extend ≠ .pad := by
      rwa [extend_ofSource he hh hs]
    rw [start_eq_moveTo hy, hsound.next_moveTo fun h => absurd h hextend, index_moveTo hh hs]
    rfl

end RowWalk

end Scanline
