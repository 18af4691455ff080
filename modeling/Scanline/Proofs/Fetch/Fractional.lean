import Scanline.Proofs.Fetch.Placed
import Scanline.Proofs.Pixel.Mixing

/-
  Patterns between pixels. Every pixel of the destination then covers parts of four pixels of the
  plane. `PatternFetch.fractional_shows_mean`: a fetch that was placed at an offset in parts of 256
  shows their mean, by weights that make 256.
-/

namespace Scanline

namespace BilinearWeights

/-- What is divided by a part and the rest of 256, rounded down and up, is divided without loss. -/
theorem part_add_rest (v : Nat) {w : Nat} (hw : w ≤ 256) :
    v * w / 256 + (v * (256 - w) + 255) / 256 = v := by
  have hsum : v * w + v * (256 - w) = v * 256 := by
    rw [← Nat.mul_add, Nat.add_sub_cancel' hw]
  omega

/-- All four weights together. -/
def sum (w : BilinearWeights) : Nat := w.a + w.b + w.c + w.d

theorem sum_ofFractions {wx wy : Nat} (hx : wx ≤ 256) (hy : wy ≤ 256) :
    (ofFractions wx wy).sum = 256 := by
  have habove := part_add_rest wy hx
  have hbelow := part_add_rest (256 - wy) hx
  unfold sum ofFractions
  dsimp only
  omega

/-- The mean of the channels of four pixels. -/
def mean (w : BilinearWeights) (u00 u10 u01 u11 : Nat) : Nat :=
  (w.a * u00 + w.b * u10 + w.c * u01 + w.d * u11) / 256

end BilinearWeights

/-- A cursor between pixels mixes the columns that its walk is at and comes to next, in the row
that its walk is at and in the next one. -/
theorem Cursor.pixelAt?_bilinear {source : PatternSource} {columns : ColumnWalk} {rows : RowWalk}
    {weights : BilinearWeights} (hsum : weights.sum = 256) {left : Channels} {y x : Int}
    {q00 q10 q01 q11 : UInt32}
    (h00 : source.pixel? (columns.start x).index (rows.start y).index = some q00)
    (h10 : source.pixel? (columns.start x).next.index (rows.start y).index = some q10)
    (h01 : source.pixel? (columns.start x).index (rows.start y).next.index = some q01)
    (h11 : source.pixel? (columns.start x).next.index (rows.start y).next.index = some q11) :
    ∃ q, (bilinear ⟨source, columns, rows, weights, left⟩).pixelAt? y x = some q ∧
      Mixes weights.mean q00 q10 q01 q11 q := by
  have hweigh {c : BilinearCursor} (hsource : c.source = source) (hrows : c.rows = rows.start y)
      {i : Nat} {p q : UInt32} (hp : source.pixel? i (rows.start y).index = some p)
      (hq : source.pixel? i (rows.start y).next.index = some q) (above below : Nat) :
      c.weigh? i above below =
        some ((unpack p).zipWith (fun u v => u * above + v * below) (unpack q)) := by
    unfold BilinearCursor.weigh?
    rw [hsource, hrows, hp, hq]
    rfl
  have hstart : (bilinear ⟨source, columns, rows, weights, left⟩).fresh? y x =
      some (bilinear ⟨source, columns.start x, rows.start y, weights,
        (unpack q00).zipWith (fun u v => u * weights.a + v * weights.c) (unpack q01)⟩) := by
    change (((⟨source, columns, rows.start y, weights, left⟩ : BilinearCursor).weigh?
      (columns.start x).index weights.a weights.c).bind _).map bilinear = _
    rw [hweigh rfl rfl h00 h01]
    rfl
  rw [pixelAt?, hstart, Option.bind_some]
  unfold next? BilinearCursor.next?
  dsimp only
  rw [hweigh rfl rfl h10 h11, hweigh rfl rfl h10 h11]
  refine ⟨_, rfl, mixes_pack (isMean_weighed hsum) fun channel hchannel => ?_⟩
  have hmean (u v w z : Nat) :
      (v * weights.b + z * weights.d + (u * weights.a + w * weights.c)) / 256 =
        (weights.a * u + weights.b * v + weights.c * w + weights.d * z) / 256 := by
    congr 1
    ring
  simp only [Channels.all, List.mem_cons, List.not_mem_nil, or_false] at hchannel
  rcases hchannel with rfl | rfl | rfl | rfl
  all_goals exact hmean _ _ _ _

/-- The pixel `q` is the mean of four pixels of the plane, which meet in the upper left corner of
column `x` of row `y`. -/
def PatternSource.MeanAt (s : PatternSource) (extend : ExtendMode) (weights : BilinearWeights)
    (ox oy y x : Int) (q : UInt32) : Prop :=
  ∃ q00 q10 q01 q11,
    s.continued? extend ox oy (y - 1) (x - 1) = some q00 ∧
    s.continued? extend ox oy (y - 1) x = some q10 ∧
    s.continued? extend ox oy y (x - 1) = some q01 ∧
    s.continued? extend ox oy y x = some q11 ∧ Mixes weights.mean q00 q10 q01 q11 q

/-- What the cursor of a pattern between pixels shows follows from the rules of its axes. -/
theorem Fetch.shows_bilinear {source : PatternSource} {fetch : Fetch} {k : FetchKind}
    (hread : source.Readable) (hw : 0 < source.width) (hh : 0 < source.height)
    {extend : ExtendMode} (hs : source.SpansFit extend) {rule : ColumnRule}
    (hrule : ColumnWalk.Runs rule extend.x) {tx ty : Int} {weights : BilinearWeights}
    (hsum : weights.sum = 256) {c₀ : BilinearCursor} (hc : c₀ =
      ⟨source, .ofSource source rule tx (Placement.period extend.x source.width),
        .ofSource source ty (Placement.period extend.y source.height) extend.y, weights, .splat 0⟩)
    {origin : Int × Int} (hc₀ : Cursor.ofFetch? k fetch origin = some (.bilinear c₀))
    (hsound : (Cursor.bilinear c₀).Sound) :
    fetch.Shows k origin (Cursor.wordRegion tx ty) fun y x q =>
      source.MeanAt extend weights (-tx) (-ty) (y + 1) (x + 1) q := by
  subst hc
  refine shows_of_fresh hc₀ hsound fun y x hplace => ?_
  obtain ⟨hy, hx⟩ : FitsWord (y + ty) ∧ FitsWord (x + tx) := hplace
  have hpixel (y x : Int) : ∃ p, source.continued? extend (-tx) (-ty) y x = some p ∧
      source.pixel? (extend.x.coordinate source.width (x + tx)).toNat
        (extend.y.coordinate source.height (y + ty)).toNat = some p := by
    obtain ⟨p, hp⟩ := source.exists_continued? hread hw hh extend (-tx) (-ty) y x
    exact ⟨p, hp, (source.continued?_neg extend tx ty y x).symm.trans hp⟩
  obtain ⟨q00, h00, h00'⟩ := hpixel y x
  obtain ⟨q10, h10, h10'⟩ := hpixel y (x + 1)
  obtain ⟨q01, h01, h01'⟩ := hpixel (y + 1) x
  obtain ⟨q11, h11, h11'⟩ := hpixel (y + 1) (x + 1)
  have hcolumn := ColumnWalk.index_start hw hs.columns hrule tx hx
  have hrow := RowWalk.index_start hh hs.rows ty hy
  have hcolumn' := ColumnWalk.index_next_start hw hs.columns hrule tx hx
  have hrow' := RowWalk.index_next_start hh hs.rows ty hy
  rw [Int.add_right_comm] at hcolumn' hrow'
  rw [← hcolumn, ← hrow] at h00'
  rw [← hcolumn', ← hrow] at h10'
  rw [← hcolumn, ← hrow'] at h01'
  rw [← hcolumn', ← hrow'] at h11'
  obtain ⟨q, hq, hmixes⟩ := Cursor.pixelAt?_bilinear hsum h00' h10' h01' h11'
  refine ⟨q, hq, ?_⟩
  unfold PatternSource.MeanAt
  rw [Int.add_sub_cancel, Int.add_sub_cancel]
  exact ⟨q00, q10, q01, q11, h00, h10, h01, h11, hmixes⟩

/-- A pattern that was moved by one more pixel shows the pixel above and to the left. -/
theorem PatternSource.continued?_succ (s : PatternSource) (extend : ExtendMode)
    (ox oy y x : Int) : s.continued? extend (ox + 1) (oy + 1) y x =
      s.continued? extend ox oy (y - 1) (x - 1) := by
  unfold continued?
  rw [show x - (ox + 1) = x - 1 - ox by omega, show y - (oy + 1) = y - 1 - oy by omega]

namespace PatternFetch

open Placement

variable {source : PatternSource} {extend : ExtendMode}

/-- A pattern that was placed between pixels is walked over by the rule of its columns. -/
theorem ofPlacement_fractionalKind {base : FetchKind}
    (hbase : base ∈ [FetchKind.fractionalXPad, .fractionalYPad, .fractionalXYPad])
    (source : PatternSource) (extend : ExtendMode) (p : Placement) :
    ∃ rule, ColumnWalk.Runs rule (axisExtend extend.x source.width) ∧
      (fractionalKind source extend base).isPattern ∧
      Cursor.ofPattern? (fractionalKind source extend base) ⟨source, .placed p⟩ =
        some (.bilinear (.ofPlacement (fractionalKind source extend base) source p)) ∧
      BilinearCursor.ofPlacement (fractionalKind source extend base) source p =
        ⟨source, .ofSource source rule p.tx p.rx, .ofSource source p.ty p.ry p.extendY, p.weights,
          .splat 0⟩ := by
  unfold fractionalKind
  simp only [List.mem_cons, List.not_mem_nil, or_false] at hbase
  cases axisExtend extend.x source.width with
  | pad =>
    refine ⟨.pad, .inl rfl, ?_⟩
    rcases hbase with rfl | rfl | rfl
    all_goals exact ⟨rfl, rfl, rfl⟩
  | tile | reflect =>
    refine ⟨.fold, .inr (.inl rfl), ?_⟩
    rcases hbase with rfl | rfl | rfl
    all_goals exact ⟨rfl, rfl, rfl⟩

/-- A pattern that was moved between pixels shows means of its continuation. -/
theorem shows_mean (hread : source.Readable) (hw : 0 < source.width) (hh : 0 < source.height)
    (hs : source.SpansFit extend) {base : FetchKind}
    (hbase : base ∈ [FetchKind.fractionalXPad, .fractionalYPad, .fractionalXYPad])
    {weights : BilinearWeights} (hsum : weights.sum = 256) (ox oy : Int) (origin : Int × Int) :
    (Fetch.pattern ⟨source, .placed (atOffset source extend (-(ox + 1)) (-(oy + 1)) weights)⟩).Shows
      (fractionalKind source extend base) origin (source.region extend (ox + 1) (oy + 1))
      (source.MeanAt extend weights ox oy) := by
  obtain ⟨rule, hrule, hkind, hpattern, hcursor⟩ := ofPlacement_fractionalKind hbase source extend
    (atOffset source extend (-(ox + 1)) (-(oy + 1)) weights)
  have hsound := Fetch.sound_bilinear (fractionalKind source extend base)
    (fits_atOffset hs (-(ox + 1)) (-(oy + 1)) weights) hw hs.width_le hh
  have hc₀ := (Cursor.ofFetch?_pattern hkind hw hh origin).trans hpattern
  refine (Fetch.shows_bilinear hread hw hh hs.axisExtend hrule hsum hcursor hc₀ hsound).imp ?_
  intro y x q hq
  -- The placement lies one pixel further, so that its first pixel is the upper left one.
  have hcontinued (y x : Int) := (source.continued?_offset hw hh extend (ox + 1) (oy + 1) y x).trans
    (source.continued?_succ extend ox oy y x)
  dsimp only [atOffset] at hq
  simpa only [PatternSource.MeanAt, hcontinued, Int.add_sub_cancel] using hq

/-- What a pattern shows that is placed between pixels, with the quality that mixes them: in the
column `x` of row `y` the mean of the pixel that it would show there if it was placed at the whole
pixel, the pixel to the left, the pixel above, and the one above to the left. -/
theorem fractional_shows_mean {bytes : Array UInt8} {stride width height : Nat}
    {format : PixelFormat}
    (hsource : PatternSource.ofBytes? bytes stride width height format = some source)
    (hw : 0 < source.width) (hw' : source.width < 2 ^ 30) (hh : 0 < source.height)
    (hh' : source.height < 2 ^ 30) (extend : ExtendMode) (x64 y64 : Int)
    (hx : x64.natAbs < 2 ^ 38) (hy : y64.natAbs < 2 ^ 38)
    (hpart : ¬(x64 % 256 = 0 ∧ y64 % 256 = 0)) (origin : Int × Int) :
    ∃ p k, atFraction? source extend .bilinear x64 y64 = some ⟨⟨source, .placed p⟩, some k⟩ ∧
      p.weights = .ofFractions (x64 % 256).toNat (y64 % 256).toNat ∧ p.weights.sum = 256 ∧
      (Fetch.pattern ⟨source, .placed p⟩).Shows k origin
        (source.region extend (x64 / 256 + 1) (y64 / 256 + 1))
        (source.MeanAt extend p.weights (x64 / 256) (y64 / 256)) := by
  have hs : source.SpansFit extend := PatternSource.spansFit_of_lt hw' hh' extend
  have hnegatable {v : Int} (hv : v.natAbs < 2 ^ 38) : Negatable (v / 256) := by
    unfold Negatable minInt32 maxInt32
    omega
  have hsum : (BilinearWeights.ofFractions (x64 % 256).toNat (y64 % 256).toNat).sum = 256 :=
    BilinearWeights.sum_ofFractions (by omega) (by omega)
  obtain ⟨base, hbase, hplaced⟩ := atFraction?_bilinear hs (hnegatable hx).wrap32_ne
    (hnegatable hy).wrap32_ne hpart
  rw [(hnegatable hx).wrap32_eq, (hnegatable hy).wrap32_eq,
    show -(x64 / 256) - 1 = -(x64 / 256 + 1) by omega,
    show -(y64 / 256) - 1 = -(y64 / 256 + 1) by omega] at hplaced
  refine ⟨_, _, ?_, rfl, hsum, shows_mean (PatternSource.readable_of_ofBytes? hsource) hw hh hs hbase
    hsum (x64 / 256) (y64 / 256) origin⟩
  unfold atFraction?
  rw [hplaced]
  rfl

/-- Moved by half a column and a quarter of a row, the first pixel of a pattern that starts again
is half of the last one in its row. -/
theorem fractional_shows_mean_half :
    ∃ p k, atFraction? ⟨#[0, 200, 40, 80], 2, 2, 2, .a8⟩ ⟨.tile, .reflect⟩ .bilinear 128 64 =
        some ⟨⟨⟨#[0, 200, 40, 80], 2, 2, 2, .a8⟩, .placed p⟩, some k⟩ ∧
      p.weights = ⟨32, 32, 96, 96⟩ ∧
      (PatternSource.region ⟨#[0, 200, 40, 80], 2, 2, 2, .a8⟩ ⟨.tile, .reflect⟩ 1 1).Place 0 0 ∧
      (Fetch.pattern ⟨⟨#[0, 200, 40, 80], 2, 2, 2, .a8⟩, .placed p⟩).Shows k (0, 0)
        (PatternSource.region ⟨#[0, 200, 40, 80], 2, 2, 2, .a8⟩ ⟨.tile, .reflect⟩ 1 1)
        fun y x q => (y = 0 → x = 0 → alphaOf q = 100) := by
  have hsource : PatternSource.ofBytes? #[0, 200, 40, 80] 2 2 2 .a8 =
      some ⟨#[0, 200, 40, 80], 2, 2, 2, .a8⟩ := rfl
  obtain ⟨p, k, h, hweights, -, hshows⟩ := fractional_shows_mean hsource (by decide) (by decide)
    (by decide) (by decide) ⟨.tile, .reflect⟩ 128 64 (by decide) (by decide)
    (by decide) (0, 0)
  refine ⟨p, k, h, hweights, PatternSource.place_region (by decide) (by decide) _ (by decide)
    (by decide) (by decide) (by decide), hshows.imp ?_⟩
  rintro _ _ q ⟨q00, q10, q01, q11, h00, h10, h01, h11, hq⟩ rfl rfl
  obtain rfl := Option.some.inj h00
  obtain rfl := Option.some.inj h10
  obtain rfl := Option.some.inj h01
  obtain rfl := Option.some.inj h11
  rw [hweights] at hq
  exact (hq Channels.a Channels.a_mem_all).1.trans (by decide)

end PatternFetch

end Scanline
