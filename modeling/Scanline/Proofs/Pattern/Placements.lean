import Scanline.Pattern.Cursor
import Scanline.Pattern.Sampling
import Scanline.Proofs.Numeric.Words
import Scanline.Proofs.Pattern.Walks
import Mathlib.Tactic.IntervalCases

/-
  Placed patterns. The periods of a placement are those of its source, so the walks over it are
  sound (`ColumnWalk.sound_ofSource`, `RowWalk.sound_ofSource`); `fits_of_ofOffset?`: this holds of
  every placement at an offset, if the cells until an axis starts again are a 32-bit word.
-/

namespace Scanline

/-- The periods that a placement can have on an axis of `n` cells. -/
def PeriodOf (n : Nat) (r : Int) : Prop := r = 0 ∨ r = n ∨ r = 2 * n

/-- A placement made for a source. -/
structure Placement.Fits (p : Placement) (source : PatternSource) : Prop where
  columns : PeriodOf source.width p.rx
  rows : PeriodOf source.height p.ry
  rows_le : p.ry ≤ maxInt32

/-- Neither an axis nor its mirror image leaves the words. -/
structure PatternSource.SpansFit (source : PatternSource) (extend : ExtendMode) : Prop where
  columns : SampleAxis.span extend.x source.width ≤ maxInt32
  rows : SampleAxis.span extend.y source.height ≤ maxInt32

theorem SampleAxis.le_span (e : Extend) (n : Nat) : (n : Int) ≤ span e n := by
  unfold span
  split <;> omega

theorem SampleAxis.span_le_of_lt (e : Extend) {n : Nat} (h : n < 2 ^ 30) :
    span e n ≤ maxInt32 := by
  unfold span maxInt32
  split <;> omega

theorem PatternSource.SpansFit.width_le {source : PatternSource} {extend : ExtendMode}
    (h : source.SpansFit extend) : (source.width : Int) ≤ maxInt32 :=
  (SampleAxis.le_span _ _).trans h.columns

theorem PatternSource.spansFit_of_lt {source : PatternSource} (hw : source.width < 2 ^ 30)
    (hh : source.height < 2 ^ 30) (extend : ExtendMode) : source.SpansFit extend :=
  ⟨SampleAxis.span_le_of_lt _ hw, SampleAxis.span_le_of_lt _ hh⟩

namespace Placement

/-- The word of the period is the period, if that does not leave the words. -/
theorem period_eq_span {e : Extend} {n : Nat} (he : e ≠ .pad)
    (hn : SampleAxis.span e n ≤ maxInt32) : period e n = SampleAxis.span e n := by
  have hmin : minInt32 ≤ 0 := by decide
  have hspan := SampleAxis.le_span e n
  cases e with
  | pad => exact absurd rfl he
  | tile => exact wrap32_of_range (by omega) hn
  | reflect => exact wrap32_of_range (by omega) hn

theorem periodOf_period {e : Extend} {n : Nat} (hn : SampleAxis.span e n ≤ maxInt32) :
    PeriodOf n (period e n) := by
  cases e with
  | pad => exact .inl rfl
  | tile => exact .inr (.inl (period_eq_span nofun hn))
  | reflect => exact .inr (.inr (period_eq_span nofun hn))

theorem period_le (e : Extend) (n : Nat) : period e n ≤ maxInt32 := by
  cases e with
  | pad =>
    change (0 : Int) ≤ maxInt32
    decide
  | tile => exact (wrap32_mem _).2
  | reflect => exact (wrap32_mem _).2

/-- A single cell looks the same under every rule, and takes no more room. -/
theorem span_axisExtend_le {e : Extend} {n : Nat} (h : SampleAxis.span e n ≤ maxInt32) :
    SampleAxis.span (axisExtend e n) n ≤ maxInt32 := by
  unfold axisExtend
  split
  · exact (SampleAxis.le_span e n).trans h
  · exact h

end Placement

/-- The walk over the columns of a source that is not empty. -/
theorem ColumnWalk.sound_ofSource {source : PatternSource} (hw : 0 < source.width)
    (hw' : (source.width : Int) ≤ maxInt32) {r : Int} (hr : PeriodOf source.width r)
    (rule : ColumnRule) (tx : Int) : (ofSource source rule tx r).Sound where
  width_pos := by
    change 0 < (source.width : Int)
    omega
  width_le := hw'
  period hfold := by
    have hr0 : r ≠ 0 := by
      rintro rfl
      cases hfold
    change (source.width : Int) ≤ r ∧ r ≤ 2 * source.width
    rcases hr.resolve_left hr0 with h | h <;> omega

/-- The walk over the rows of a source that is not empty. -/
theorem RowWalk.sound_ofSource {source : PatternSource} (hh : 0 < source.height) {r : Int}
    (hr : PeriodOf source.height r) (hr' : r ≤ maxInt32) (e : Extend) (ty : Int) :
    (ofSource source ty r e).Sound where
  height_pos := by
    change 0 < (source.height : Int)
    omega
  period := by
    by_cases hr0 : r = 0
    · exact .inl (if_pos hr0)
    · right
      change (source.height : Int) ≤ r ∧ r ≤ 2 * source.height ∧ r ≤ maxInt32
      rcases hr.resolve_left hr0 with h | h <;> omega

/-- The kinds of a placed pattern. -/
def FetchKind.placed : List FetchKind :=
  [.alignedBlit, .alignedPad, .alignedRepeat, .alignedFold, .fractionalXPad, .fractionalXFold,
    .fractionalYPad, .fractionalYFold, .fractionalXYPad, .fractionalXYFold]

namespace Placement

variable {source : PatternSource} {extend : ExtendMode} {p : Placement} {k : FetchKind}

/-- A placement at an offset has the periods of its source, and the kind that lies after `base` by
the rule of its columns; between pixels repeating and reflecting are one kind. -/
theorem fits_of_ofOffset? {base : FetchKind} {tx ty : Int} {fractional : Bool}
    {weights : BilinearWeights}
    (h : ofOffset? source base extend tx ty fractional weights = some (p, k))
    (hs : source.SpansFit extend) :
    p.Fits source ∧ ∃ i ≤ 2, (fractional → i ≤ 1) ∧ k = (base.after? i).getD base := by
  obtain ⟨_, _, h⟩ := Option.bind_eq_some_iff.mp h
  obtain ⟨_, _, h⟩ := Option.bind_eq_some_iff.mp h
  obtain ⟨_, _, h⟩ := Option.bind_eq_some_iff.mp h
  obtain ⟨_, _, h⟩ := Option.bind_eq_some_iff.mp h
  obtain ⟨rfl, rfl⟩ := Prod.mk.inj (Option.some.inj h)
  refine ⟨⟨periodOf_period (span_axisExtend_le hs.columns),
    periodOf_period (span_axisExtend_le hs.rows), period_le _ _⟩, _, ?_, ?_, rfl⟩
  · split
    · omega
    · cases axisExtend extend.x source.width <;> decide
  · rintro rfl
    cases axisExtend extend.x source.width <;> decide

theorem placed_after_aligned {i : Nat} (hi : i ≤ 2) :
    (FetchKind.alignedPad.after? i).getD .alignedPad ∈ FetchKind.placed := by
  interval_cases i <;> decide

theorem placed_after_fractional {base : FetchKind}
    (hbase : base ∈ [FetchKind.fractionalXPad, .fractionalYPad, .fractionalXYPad]) {i : Nat}
    (hi : i ≤ 1) : (base.after? i).getD base ∈ FetchKind.placed := by
  revert base
  interval_cases i <;> decide

theorem fits_of_atPixel? {x y : Int} (h : atPixel? source extend x y = some (p, k))
    (hs : source.SpansFit extend) : p.Fits source ∧ k ∈ FetchKind.placed := by
  obtain ⟨hfits, i, hi, -, rfl⟩ := fits_of_ofOffset? h hs
  exact ⟨hfits, placed_after_aligned hi⟩

theorem fits_of_atFraction? {quality : PatternQuality} {x64 y64 : Int}
    (h : atFraction? source extend quality x64 y64 = some (p, k))
    (hs : source.SpansFit extend) : p.Fits source ∧ k ∈ FetchKind.placed := by
  obtain ⟨tx, _, h⟩ := Option.bind_eq_some_iff.mp h
  obtain ⟨ty, _, h⟩ := Option.bind_eq_some_iff.mp h
  dsimp only at h
  split at h
  · obtain ⟨hfits, i, hi, -, rfl⟩ := fits_of_ofOffset? h hs
    exact ⟨hfits, placed_after_aligned hi⟩
  · cases quality with
    | nearest =>
      obtain ⟨hfits, i, hi, -, rfl⟩ := fits_of_ofOffset? h hs
      exact ⟨hfits, placed_after_aligned hi⟩
    | bilinear =>
      obtain ⟨hfits, i, -, hi, rfl⟩ := fits_of_ofOffset? h hs
      refine ⟨hfits, placed_after_fractional ?_ (hi rfl)⟩
      repeat' split
      all_goals decide

end Placement

end Scanline
