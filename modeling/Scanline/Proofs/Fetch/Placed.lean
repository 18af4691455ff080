import Scanline.Proofs.Fetch.Exact
import Scanline.Proofs.Pattern.Offsets

/-
  Patterns at whole pixels. The plane is covered by the pattern as its extend rules say
  (`PatternSource.continued?`): the edge of the pattern goes on, or the pattern starts again, or its
  mirror image follows. `PatternFetch.placed_shows_continued`: this is what a fetch shows that was
  placed at a pixel, or between pixels and rounded to one; a fetch that was made by copying pads.
-/

namespace Scanline

/-- The pixel in column `x` of row `y` of a plane on which the pattern lies with its upper left
corner at column `ox` of row `oy`, and goes on beyond its edges. -/
def PatternSource.continued? (s : PatternSource) (extend : ExtendMode) (ox oy y x : Int) :
    Option UInt32 :=
  s.pixel? (extend.x.coordinate s.width (x - ox)).toNat
    (extend.y.coordinate s.height (y - oy)).toNat

/-- Where no coordinate leaves the words when the pattern is moved to column `ox` of row `oy`. -/
def PatternSource.region (s : PatternSource) (extend : ExtendMode) (ox oy : Int) : Cursor.Region :=
  Cursor.wordRegion (Placement.offset extend.x s.width (-ox))
    (Placement.offset extend.y s.height (-oy))

/-- A coordinate below `2^30` stays a word when an axis of less than `2^29` cells is moved. -/
theorem Placement.fits_add_offset (e : Extend) {n : Nat} (hn : n < 2 ^ 29) {o v : Int}
    (ho : o.natAbs ≤ 2 ^ 30) (hv : 0 ≤ v) (hv' : v < 2 ^ 30) :
    FitsWord (v + offset e n (-o)) := by
  unfold FitsWord minInt32 maxInt32 offset
  split
  · omega
  · rename_i hpad
    obtain ⟨-, hpos⟩ := axisExtend_ne_pad hpad
    have hspan : 0 < SampleAxis.span e n ∧ SampleAxis.span e n < 2 ^ 30 := by
      unfold SampleAxis.span
      split <;> omega
    have hlo := Int.emod_nonneg (-o) hspan.1.ne'
    have hhi := Int.emod_lt_of_pos (-o) hspan.1
    omega

/-- Every pixel below `2^30` lies in the region of a pattern with sides below `2^29`. -/
theorem PatternSource.place_region {s : PatternSource} (hw : s.width < 2 ^ 29)
    (hh : s.height < 2 ^ 29) (extend : ExtendMode) {ox oy y x : Int} (hox : ox.natAbs ≤ 2 ^ 30)
    (hoy : oy.natAbs ≤ 2 ^ 30) (hy : 0 ≤ y ∧ y < 2 ^ 30) (hx : 0 ≤ x ∧ x < 2 ^ 30) :
    (s.region extend ox oy).Place y x :=
  ⟨Placement.fits_add_offset extend.y hh hoy hy.1 hy.2,
    Placement.fits_add_offset extend.x hw hox hx.1 hx.2⟩

/-- Every pixel of the plane is one of the pattern. -/
theorem PatternSource.exists_continued? {s : PatternSource} (hread : s.Readable)
    (hw : 0 < s.width) (hh : 0 < s.height) (extend : ExtendMode) (ox oy y x : Int) :
    ∃ p, s.continued? extend ox oy y x = some p :=
  Option.isSome_iff_exists.mp
    (hread (extend.x.toNat_coordinate_lt hw _) (extend.y.toNat_coordinate_lt hh _))

/-- The pixel where a coordinate falls that was moved. -/
theorem PatternSource.continued?_neg (s : PatternSource) (extend : ExtendMode) (tx ty y x : Int) :
    s.continued? extend (-tx) (-ty) y x =
      s.pixel? (extend.x.coordinate s.width (x + tx)).toNat
        (extend.y.coordinate s.height (y + ty)).toNat := by
  unfold continued?
  rw [Int.sub_neg, Int.sub_neg]

/-- The plane is the same if the pattern is moved within its periods. -/
theorem PatternSource.continued?_offset (s : PatternSource) (hw : 0 < s.width) (hh : 0 < s.height)
    (extend : ExtendMode) (ox oy y x : Int) :
    s.continued? ⟨Placement.axisExtend extend.x s.width, Placement.axisExtend extend.y s.height⟩
        (-Placement.offset extend.x s.width (-ox)) (-Placement.offset extend.y s.height (-oy)) y x =
      s.continued? extend ox oy y x := by
  rw [continued?_neg]
  unfold continued?
  rw [Extend.coordinate_axisExtend _ hw, Extend.coordinate_axisExtend _ hh,
    Extend.coordinate_add_offset, Extend.coordinate_add_offset, ← Int.sub_eq_add_neg,
    ← Int.sub_eq_add_neg]

theorem PatternSource.SpansFit.axisExtend {s : PatternSource} {extend : ExtendMode}
    (h : s.SpansFit extend) :
    s.SpansFit ⟨Placement.axisExtend extend.x s.width, Placement.axisExtend extend.y s.height⟩ :=
  ⟨Placement.span_axisExtend_le h.columns, Placement.span_axisExtend_le h.rows⟩

/-- The cursor over a pattern that is not empty. -/
theorem Cursor.ofFetch?_pattern {k : FetchKind} (hk : k.isPattern) {f : PatternFetch}
    (hw : 0 < f.source.width) (hh : 0 < f.source.height) (origin : Int × Int) :
    ofFetch? k (.pattern f) origin = ofPattern? k f := by
  have hempty : f.source.isEmpty = false := by
    unfold PatternSource.isEmpty
    rw [Bool.or_eq_false_iff, beq_eq_false_iff_ne, beq_eq_false_iff_ne]
    exact ⟨hw.ne', hh.ne'⟩
  unfold ofFetch?
  dsimp only
  rw [if_pos hk, hempty]
  rfl

/-- A cursor at whole pixels reads the pixel that its walks are at. -/
theorem Cursor.pixelAt?_aligned (source : PatternSource) (columns : ColumnWalk) (rows : RowWalk)
    (y x : Int) :
    (aligned ⟨source, columns, rows⟩).pixelAt? y x =
      source.pixel? (columns.start x).index (rows.start y).index := by
  change (((source.pixel? (columns.start x).index (rows.start y).index).bind
    fun p => some (p, _)).map _).map Prod.fst = _
  cases source.pixel? (columns.start x).index (rows.start y).index <;> rfl

/-- What the cursor of a copied or an aligned pattern shows follows from the rules of its axes. -/
theorem Fetch.shows_aligned {source : PatternSource} {p : Placement} {k : FetchKind}
    (hk : k ∈ [FetchKind.alignedBlit, .alignedPad, .alignedRepeat, .alignedFold])
    (hp : p.Fits source) (hread : source.Readable) (hw : 0 < source.width) (hh : 0 < source.height)
    {extend : ExtendMode} (hs : source.SpansFit extend) {rule : ColumnRule}
    (hrule : ColumnWalk.Runs rule extend.x) {tx ty : Int}
    (hcursor : AlignedCursor.ofPlacement k source p =
      ⟨source, .ofSource source rule tx (Placement.period extend.x source.width),
        .ofSource source ty (Placement.period extend.y source.height) extend.y⟩)
    (origin : Int × Int) :
    (pattern ⟨source, .placed p⟩).Shows k origin (Cursor.wordRegion tx ty)
      fun y x p => source.continued? extend (-tx) (-ty) y x = some p := by
  have hsound := sound_aligned k hp hw hs.width_le hh
  have hc₀ : Cursor.ofFetch? k (pattern ⟨source, .placed p⟩) origin =
      some (.aligned (AlignedCursor.ofPlacement k source p)) := by
    simp only [List.mem_cons, List.not_mem_nil, or_false] at hk
    rcases hk with rfl | rfl | rfl | rfl
    all_goals exact Cursor.ofFetch?_pattern rfl hw hh origin
  rw [hcursor] at hsound hc₀
  refine shows_of_fresh hc₀ hsound fun y x hplace => ?_
  obtain ⟨hy, hx⟩ : FitsWord (y + ty) ∧ FitsWord (x + tx) := hplace
  obtain ⟨q, hq⟩ := source.exists_continued? hread hw hh extend (-tx) (-ty) y x
  refine ⟨q, ?_, hq⟩
  rw [Cursor.pixelAt?_aligned, ColumnWalk.index_start hw hs.columns hrule tx hx,
    RowWalk.index_start hh hs.rows ty hy, ← source.continued?_neg, hq]

namespace PatternFetch

open Placement

variable {source : PatternSource} {extend : ExtendMode}

/-- The columns of a pattern that was placed at whole pixels are walked over by their rule. -/
theorem ofPlacement_alignedKind (source : PatternSource) (extend : ExtendMode) (p : Placement) :
    ∃ rule, ColumnWalk.Runs rule (axisExtend extend.x source.width) ∧
      AlignedCursor.ofPlacement (alignedKind source extend) source p =
        ⟨source, .ofSource source rule p.tx p.rx, .ofSource source p.ty p.ry p.extendY⟩ := by
  unfold alignedKind
  cases axisExtend extend.x source.width with
  | pad => exact ⟨.pad, .inl rfl, rfl⟩
  | tile => exact ⟨.tile, .inr (.inr ⟨rfl, rfl⟩), rfl⟩
  | reflect => exact ⟨.fold, .inr (.inl rfl), rfl⟩

theorem alignedKind_mem (source : PatternSource) (extend : ExtendMode) :
    alignedKind source extend ∈
      [FetchKind.alignedBlit, .alignedPad, .alignedRepeat, .alignedFold] := by
  unfold alignedKind
  cases axisExtend extend.x source.width <;> decide

/-- A pattern that was moved by whole pixels shows its continuation. -/
theorem shows_atOffset (hread : source.Readable) (hw : 0 < source.width) (hh : 0 < source.height)
    (hs : source.SpansFit extend) (ox oy : Int) (origin : Int × Int) :
    (Fetch.pattern ⟨source, .placed (atOffset source extend (-ox) (-oy) {})⟩).Shows
      (alignedKind source extend) origin (source.region extend ox oy)
      fun y x p => source.continued? extend ox oy y x = some p := by
  -- The cursor runs the rules of the placement, which moved the pattern within its periods.
  obtain ⟨rule, hrule, hcursor⟩ :=
    ofPlacement_alignedKind source extend (atOffset source extend (-ox) (-oy) {})
  refine (Fetch.shows_aligned (alignedKind_mem source extend) (fits_atOffset hs _ _ _) hread hw hh
    hs.axisExtend hrule hcursor origin).imp fun y x p hp => ?_
  rw [← hp]
  exact (source.continued?_offset hw hh extend ox oy y x).symm

/-- A pattern that is copied pads. -/
theorem shows_blit (hread : source.Readable) (hw : 0 < source.width) (hh : 0 < source.height)
    (hs : source.SpansFit (.both .pad)) (ox oy : Int) (origin : Int × Int) :
    (Fetch.pattern (blit source ox oy).fetch).Shows .alignedBlit origin
      (Cursor.wordRegion (-ox) (-oy))
      fun y x p => source.continued? (.both .pad) ox oy y x = some p := by
  have hperiod : (0 : Int) ≤ maxInt32 := by decide
  have hrule : ColumnWalk.Runs .pad .pad := .inl rfl
  refine (Fetch.shows_aligned (by decide) ⟨.inl rfl, .inl rfl, hperiod⟩ hread hw hh hs hrule rfl
    origin).imp fun y x p hp => ?_
  rwa [Int.neg_neg, Int.neg_neg] at hp

/-- What a pattern shows that is placed at whole pixels. At a pixel it shows the plane that it
covers from there by its extend rules; between pixels and rounded, from the nearest pixel; and
copied, with its edges going on. -/
theorem placed_shows_continued {bytes : Array UInt8} {stride width height : Nat}
    {format : PixelFormat}
    (hsource : PatternSource.ofBytes? bytes stride width height format = some source)
    (hw : 0 < source.width) (hw' : source.width < 2 ^ 30) (hh : 0 < source.height)
    (hh' : source.height < 2 ^ 30) (extend : ExtendMode) (origin : Int × Int) :
    (∀ x y, Negatable x → Negatable y →
      ∃ f k, atPixel? source extend x y = some ⟨f, some k⟩ ∧
        (Fetch.pattern f).Shows k origin (source.region extend x y)
          fun Y X p => source.continued? extend x y Y X = some p) ∧
    (∀ x64 y64, Negatable (x64 / 256) → Negatable (y64 / 256) →
      ∃ f k, atFraction? source extend .nearest x64 y64 = some ⟨f, some k⟩ ∧
        (Fetch.pattern f).Shows k origin
          (source.region extend ((x64 + 128) / 256) ((y64 + 128) / 256)) fun Y X p =>
            source.continued? extend ((x64 + 128) / 256) ((y64 + 128) / 256) Y X = some p) ∧
    ∀ x y, ∃ f k, blit source x y = ⟨f, some k⟩ ∧
      (Fetch.pattern f).Shows k origin (Cursor.wordRegion (-x) (-y))
        fun Y X p => source.continued? (.both .pad) x y Y X = some p := by
  have hread : source.Readable := PatternSource.readable_of_ofBytes? hsource
  have hs : ∀ extend, source.SpansFit extend := PatternSource.spansFit_of_lt hw' hh'
  refine ⟨fun x y hx hy => ?_, fun x64 y64 hx hy => ?_, fun x y => ?_⟩
  · refine ⟨_, _, ?_, shows_atOffset hread hw hh (hs extend) x y origin⟩
    unfold atPixel?
    rw [atPixel?_eq (hs extend) hx.fits_neg hy.fits_neg]
    rfl
  · refine ⟨_, _, ?_, shows_atOffset hread hw hh (hs extend) _ _ origin⟩
    unfold atFraction?
    rw [atFraction?_rounded (hs extend) hx hy]
    rfl
  · exact ⟨_, _, rfl, shows_blit hread hw hh (hs _) x y origin⟩

/-- To the left of and above a pattern, its first column is mirrored and its last row comes first;
where it is copied, its corner goes on. -/
theorem placed_shows_continued_mirrored :
    let source : PatternSource := ⟨#[1, 2, 3, 4, 5, 6], 3, 3, 2, .a8⟩
    let extend : ExtendMode := ⟨.reflect, .tile⟩
    (∃ f k, atPixel? source extend 1 1 = some ⟨f, some k⟩ ∧
      (source.region extend 1 1).Place 0 0 ∧
      (Fetch.pattern f).Shows k (0, 0) (source.region extend 1 1)
        fun Y X p => (Y = 0 → X = 0 → p = 0x04040404)) ∧
    (∃ f k, atFraction? source extend .nearest 384 (-129) = some ⟨f, some k⟩ ∧
      (source.region extend 2 (-1)).Place 0 0 ∧
      (Fetch.pattern f).Shows k (0, 0) (source.region extend 2 (-1))
        fun Y X p => (Y = 0 → X = 0 → p = 0x05050505)) ∧
    ∃ f k, blit source 1 1 = ⟨f, some k⟩ ∧ (Cursor.wordRegion (-1) (-1)).Place 0 0 ∧
      (Fetch.pattern f).Shows k (0, 0) (Cursor.wordRegion (-1) (-1))
        fun Y X p => (Y = 0 → X = 0 → p = 0x01010101) := by
  intro source extend
  have hsource : PatternSource.ofBytes? #[1, 2, 3, 4, 5, 6] 3 3 2 .a8 = some source := rfl
  obtain ⟨hpixel, hfraction, hblit⟩ := placed_shows_continued hsource (by decide) (by decide)
    (by decide) (by decide) extend (0, 0)
  have hfirst {f : PatternFetch} {k : FetchKind} {R : Cursor.Region} {e : ExtendMode} {x y : Int}
      {q : UInt32} (h : (Fetch.pattern f).Shows k (0, 0) R
        fun Y X p => source.continued? e x y Y X = some p)
      (hq : source.continued? e x y 0 0 = some q) :
      (Fetch.pattern f).Shows k (0, 0) R fun Y X p => (Y = 0 → X = 0 → p = q) :=
    h.imp fun _ _ p hp hY hX => by
      subst hY hX
      exact Option.some.inj (hp.symm.trans hq)
  obtain ⟨f, k, hf, hshows⟩ := hpixel 1 1 ⟨by decide, by decide⟩ ⟨by decide, by decide⟩
  obtain ⟨f', k', hf', hshows'⟩ := hfraction 384 (-129) ⟨by decide, by decide⟩
    ⟨by decide, by decide⟩
  obtain ⟨f'', k'', hf'', hshows''⟩ := hblit 1 1
  have hplace {x y : Int} (hx : x.natAbs ≤ 2 ^ 30) (hy : y.natAbs ≤ 2 ^ 30) :
      (source.region extend x y).Place 0 0 :=
    PatternSource.place_region (by decide) (by decide) extend hx hy (by decide) (by decide)
  exact ⟨⟨f, k, hf, hplace (by decide) (by decide), hfirst hshows (by decide)⟩,
    ⟨f', k', hf', hplace (by decide) (by decide), hfirst hshows' (by decide)⟩,
    f'', k'', hf'', ⟨⟨by decide, by decide⟩, by decide, by decide⟩, hfirst hshows'' (by decide)⟩

end PatternFetch

end Scanline
