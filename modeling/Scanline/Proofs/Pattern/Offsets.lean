import Scanline.Proofs.Pattern.Coordinates

/-
  Placements at an offset. An offset that is a word places every pattern whose cells are words
  (`Placement.ofOffset?_eq`), whether it is given in whole pixels (`Placement.atPixel?_eq`), rounded
  to them (`Placement.atFraction?_nearest`) or kept between pixels (`Placement.atFraction?_bilinear`).
  An offset that was brought into the period of its axis shows the same cells
  (`Extend.coordinate_add_offset`).
-/

namespace Scanline

namespace Placement

/-- What is added to a coordinate of the destination where an axis of `n` cells is moved by `t`: an
axis that starts again is moved within its period. -/
def offset (e : Extend) (n : Nat) (t : Int) : Int :=
  if axisExtend e n = .pad then t else t % SampleAxis.span e n

/-- An axis that starts again keeps its rule, and has more than one cell. -/
theorem axisExtend_ne_pad {e : Extend} {n : Nat} (h : axisExtend e n ≠ .pad) :
    axisExtend e n = e ∧ 0 < n := by
  unfold axisExtend at h ⊢
  split at h
  · exact absurd rfl h
  · rename_i hn
    exact ⟨if_neg hn, by omega⟩

theorem reduce?_eq {e : Extend} {n : Nat} (hs : SampleAxis.span e n ≤ maxInt32) (t : Int) :
    reduce? (axisExtend e n) n t = some (offset e n t) := by
  unfold offset
  by_cases hpad : axisExtend e n = .pad
  · rw [if_pos hpad, hpad]
    rfl
  · obtain ⟨he, hn⟩ := axisExtend_ne_pad hpad
    rw [if_neg hpad, he]
    rw [he] at hpad
    rw [reduce?_of_period_pos (period_pos hpad hn hs), period_eq_span hpad hs]

/-- The placement of a source that is moved by `tx` and `ty`. -/
def atOffset (source : PatternSource) (extend : ExtendMode) (tx ty : Int)
    (weights : BilinearWeights) : Placement where
  tx := offset extend.x source.width tx
  ty := offset extend.y source.height ty
  rx := period (axisExtend extend.x source.width) source.width
  ry := period (axisExtend extend.y source.height) source.height
  extendY := axisExtend extend.y source.height
  weights := weights

variable {source : PatternSource} {extend : ExtendMode}

theorem fits_atOffset (hs : source.SpansFit extend) (tx ty : Int) (weights : BilinearWeights) :
    (atOffset source extend tx ty weights).Fits source where
  columns := periodOf_period (span_axisExtend_le hs.columns)
  rows := periodOf_period (span_axisExtend_le hs.rows)
  rows_le := period_le _ _

theorem ofOffset?_eq (hs : source.SpansFit extend) {tx ty : Int} (hx : FitsWord tx)
    (hy : FitsWord ty) (base : FetchKind) (fractional : Bool) (weights : BilinearWeights) :
    ofOffset? source base extend tx ty fractional weights =
      some (atOffset source extend tx ty weights,
        (base.after? (if fractional && axisExtend extend.x source.width != .pad then 1
          else (axisExtend extend.x source.width).index)).getD base) := by
  unfold ofOffset?
  dsimp only
  rw [word32?_of_fits hx, word32?_of_fits hy, Option.bind_eq_bind, Option.bind_some,
    reduce?_eq hs.columns]
  dsimp only [Option.bind_eq_bind, Option.bind_some]
  rw [reduce?_eq hs.rows]
  rfl

/-- The kind of a pattern that is placed at whole pixels. -/
def alignedKind (source : PatternSource) (extend : ExtendMode) : FetchKind :=
  (FetchKind.alignedPad.after? (axisExtend extend.x source.width).index).getD .alignedPad

/-- The kind of a pattern that is placed between pixels, given its kind for columns that pad. -/
def fractionalKind (source : PatternSource) (extend : ExtendMode) (base : FetchKind) : FetchKind :=
  (base.after? (if axisExtend extend.x source.width = .pad then 0 else 1)).getD base

theorem atPixel?_eq (hs : source.SpansFit extend) {x y : Int} (hx : FitsWord (-x))
    (hy : FitsWord (-y)) :
    atPixel? source extend x y =
      some (atOffset source extend (-x) (-y) {}, alignedKind source extend) :=
  ofOffset?_eq hs hx hy .alignedPad false {}

/-- A word whose negative is a word. -/
def Negatable (v : Int) : Prop := minInt32 < v ∧ v ≤ maxInt32

theorem Negatable.fits_neg {v : Int} (h : Negatable v) : FitsWord (-v) := by
  unfold Negatable minInt32 maxInt32 at h
  unfold FitsWord minInt32 maxInt32
  omega

theorem Negatable.wrap32_eq {v : Int} (h : Negatable v) : wrap32 v = v :=
  wrap32_of_range h.1.le h.2

theorem Negatable.wrap32_ne {v : Int} (h : Negatable v) : wrap32 v ≠ minInt32 := by
  rw [h.wrap32_eq]
  exact h.1.ne'

section Fractions

variable {x64 y64 : Int}

/-- The whole pixels of an offset are a word that can be negated. -/
theorem fits_neg_wrap32 {v : Int} (h : wrap32 v ≠ minInt32) :
    minInt32 + 1 ≤ -wrap32 v ∧ -wrap32 v ≤ maxInt32 := by
  obtain ⟨hlo, hhi⟩ := wrap32_mem v
  unfold minInt32 maxInt32 at *
  omega

/-- A fraction of a half or more is rounded to the next pixel. -/
theorem atFraction?_nearest (hs : source.SpansFit extend) (hx : wrap32 (x64 / 256) ≠ minInt32)
    (hy : wrap32 (y64 / 256) ≠ minInt32) :
    atFraction? source extend .nearest x64 y64 =
      some (atOffset source extend (-wrap32 (x64 / 256) - if 128 ≤ x64 % 256 then 1 else 0)
        (-wrap32 (y64 / 256) - if 128 ≤ y64 % 256 then 1 else 0) {},
          alignedKind source extend) := by
  obtain ⟨hx0, hx1⟩ := fits_neg_wrap32 hx
  obtain ⟨hy0, hy1⟩ := fits_neg_wrap32 hy
  have hround {t w : Int} (hw : 0 ≤ w) : (if 128 ≤ w.toNat then t - 1 else t) =
      t - if 128 ≤ w then 1 else 0 := by
    split <;> split <;> omega
  have hfits {t w : Int} (h0 : minInt32 + 1 ≤ t) (h1 : t ≤ maxInt32) :
      FitsWord (t - if 128 ≤ w then 1 else 0) := by
    unfold FitsWord
    split <;> omega
  unfold atFraction?
  dsimp only
  rw [word32?_of_fits ⟨by omega, hx1⟩, word32?_of_fits ⟨by omega, hy1⟩]
  dsimp only [Option.bind_eq_bind, Option.bind_some]
  rw [hround (Int.emod_nonneg _ (by decide)), hround (Int.emod_nonneg _ (by decide))]
  split
  · rename_i hwhole
    rw [if_neg (by omega), if_neg (by omega), Int.sub_zero, Int.sub_zero]
    exact ofOffset?_eq hs ⟨by omega, hx1⟩ ⟨by omega, hy1⟩ .alignedPad false {}
  · exact ofOffset?_eq hs (hfits hx0 hx1) (hfits hy0 hy1) .alignedPad false {}

/-- A fraction is rounded to the nearest pixel, a half to the next one. -/
theorem atFraction?_rounded (hs : source.SpansFit extend) (hx : Negatable (x64 / 256))
    (hy : Negatable (y64 / 256)) :
    atFraction? source extend .nearest x64 y64 =
      some (atOffset source extend (-((x64 + 128) / 256)) (-((y64 + 128) / 256)) {},
        alignedKind source extend) := by
  have hround (v : Int) : (-(v / 256) - if 128 ≤ v % 256 then 1 else 0) = -((v + 128) / 256) := by
    split <;> omega
  rw [atFraction?_nearest hs hx.wrap32_ne hy.wrap32_ne, hx.wrap32_eq, hy.wrap32_eq, hround, hround]

/-- An offset of whole pixels is the same under every quality. -/
theorem atFraction?_whole (h : x64 % 256 = 0 ∧ y64 % 256 = 0) (quality : PatternQuality) :
    atFraction? source extend quality x64 y64 = atFraction? source extend .nearest x64 y64 := by
  have hwhole : (x64 % 256).toNat = 0 ∧ (y64 % 256).toNat = 0 := by omega
  unfold atFraction?
  simp only [if_pos hwhole]

/-- An offset between pixels is kept, one pixel up and to the left. -/
theorem atFraction?_bilinear (hs : source.SpansFit extend) (hx : wrap32 (x64 / 256) ≠ minInt32)
    (hy : wrap32 (y64 / 256) ≠ minInt32) (hpart : ¬(x64 % 256 = 0 ∧ y64 % 256 = 0)) :
    ∃ base ∈ [FetchKind.fractionalXPad, .fractionalYPad, .fractionalXYPad],
      atFraction? source extend .bilinear x64 y64 =
        some (atOffset source extend (-wrap32 (x64 / 256) - 1) (-wrap32 (y64 / 256) - 1)
          (.ofFractions (x64 % 256).toNat (y64 % 256).toNat), fractionalKind source extend base) := by
  obtain ⟨hx0, hx1⟩ := fits_neg_wrap32 hx
  obtain ⟨hy0, hy1⟩ := fits_neg_wrap32 hy
  refine ⟨if (y64 % 256).toNat = 0 then .fractionalXPad
    else if (x64 % 256).toNat = 0 then .fractionalYPad else .fractionalXYPad, ?_, ?_⟩
  · repeat' split
    all_goals decide
  · unfold atFraction?
    dsimp only
    rw [word32?_of_fits ⟨by omega, hx1⟩, word32?_of_fits ⟨by omega, hy1⟩]
    dsimp only [Option.bind_eq_bind, Option.bind_some]
    rw [if_neg (by omega), ofOffset?_eq hs ⟨by omega, by omega⟩ ⟨by omega, by omega⟩]
    unfold fractionalKind
    cases axisExtend extend.x source.width <;> rfl

end Fractions

end Placement

/-- An axis that is moved within its period shows the same cells. -/
theorem Extend.coordinate_add_offset (e : Extend) (n : Nat) (v t : Int) :
    e.coordinate n (v + Placement.offset e n t) = e.coordinate n (v + t) := by
  unfold Placement.offset
  split
  · rfl
  · rename_i hpad
    have he := (Placement.axisExtend_ne_pad hpad).1
    exact coordinate_congr (he ▸ hpad) (Int.add_emod_emod _ _ _)

end Scanline
