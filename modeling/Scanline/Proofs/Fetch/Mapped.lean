import Scanline.Proofs.Fetch.Placed
import Scanline.Proofs.Pattern.Cells
import Scanline.Proofs.Pixel.Mixing

/-
  Mapped patterns. The exact position of a pixel names a cell on each axis and a part of it.
  `PatternFetch.mapped_shows_cells`: wherever a cursor was led, its coordinates are these cells and
  the ones after them as the rules of the axes continue the pattern, and it reads the pixel of the
  cells, or mixes the four by the parts.
-/

namespace Scanline

open SampleAxis

/-- The kinds of a mapped pattern. -/
def FetchKind.mapped : PatternQuality → List FetchKind
  | .nearest => [.affineNearest, .affineNearestShort]
  | .bilinear => [.affineBilinear, .affineBilinearShort]

/-- The pixel `i` columns and `j` rows after the cells of the exact position. -/
def PatternSource.cellPixel? (source : PatternSource) (s : Sampling) (rx ry : AxisRule)
    (y x i j : Int) : Option UInt32 :=
  source.pixel? (rx.cell source.width (cell (s.x.position y x) + i)).toNat
    (ry.cell source.height (cell (s.y.position y x) + j)).toNat

/-- The pixel `p` is the one in the cells of the exact position, or the mean of four by its parts. -/
def PatternSource.SampledAt (source : PatternSource) (s : Sampling) (rx ry : AxisRule)
    (quality : PatternQuality) (y x : Int) (p : UInt32) : Prop :=
  match quality with
  | .nearest => source.cellPixel? s rx ry y x 0 0 = some p
  | .bilinear =>
    ∃ q00 q10 q01 q11,
      source.cellPixel? s rx ry y x 0 0 = some q00 ∧ source.cellPixel? s rx ry y x 1 0 = some q10 ∧
      source.cellPixel? s rx ry y x 0 1 = some q01 ∧ source.cellPixel? s rx ry y x 1 1 = some q11 ∧
      Mixes (crossed (fraction (s.x.position y x)) (fraction (s.y.position y x))) q00 q10 q01 q11 p

/-- A cursor that mixes takes means across of means down. -/
theorem MappedCursor.pixel?_mixes {m : MappedCursor} (hm : m.bilinear) {q00 q10 q01 q11 : UInt32}
    (h00 : m.source.pixel? (m.column 0) (m.row 0) = some q00)
    (h10 : m.source.pixel? (m.column 1) (m.row 0) = some q10)
    (h01 : m.source.pixel? (m.column 0) (m.row 1) = some q01)
    (h11 : m.source.pixel? (m.column 1) (m.row 1) = some q11) :
    ∃ p, m.pixel? = some p ∧
      Mixes (crossed (fraction m.posX) (fraction m.posY)) q00 q10 q01 q11 p := by
  unfold pixel?
  rw [if_pos hm, h00, h01, h10, h11]
  refine ⟨_, rfl, mixes_pack (isMean_crossed (fraction_lt _).le (fraction_lt _).le)
    fun channel hchannel => ?_⟩
  simp only [Channels.all, List.mem_cons, List.not_mem_nil, or_false] at hchannel
  rcases hchannel with rfl | rfl | rfl | rfl
  all_goals rfl

/-- A cursor that was led to a place is at its exact positions, brought back. -/
theorem Cursor.Reaches.mapped_eq {c₀ : MappedCursor} (hx : c₀.sampling.x.Sound)
    (hy : c₀.sampling.y.Sound) {c : Cursor} {y x : Int}
    (h : Reaches (positionRegion c₀.sampling) (mapped c₀) c y (some x))
    (hplace : (positionRegion c₀.sampling).Place y x) :
    c = mapped (mappedAt c₀ y (c₀.sampling.x.position y x) (c₀.sampling.y.position y x)) := by
  have hfresh := (h.fresh (steady_mapped hx hy)).2 x rfl hplace
  rw [fresh?_mapped hplace] at hfresh
  exact (Option.some.inj hfresh).symm

/-- The cursor over a mapped pattern, made ready by a quality. -/
def MappedCursor.ofQuality (source : PatternSource) (s : Sampling) (quality : PatternQuality) :
    MappedCursor where
  source := source
  sampling := s
  bilinear := quality = .bilinear

/-- The cursor over a mapped pattern that is not empty. -/
theorem Cursor.ofFetch?_mapped {quality : PatternQuality} {k : FetchKind}
    (hk : k ∈ FetchKind.mapped quality) {source : PatternSource} (hw : 0 < source.width)
    (hh : 0 < source.height) (s : Sampling) (origin : Int × Int) :
    ofFetch? k (.pattern ⟨source, .mapped s⟩) origin =
      some (.mapped (.ofQuality source s quality)) := by
  cases quality with
  | nearest =>
    simp only [FetchKind.mapped, List.mem_cons, List.not_mem_nil, or_false] at hk
    rcases hk with rfl | rfl
    all_goals exact ofFetch?_pattern rfl hw hh origin
  | bilinear =>
    simp only [FetchKind.mapped, List.mem_cons, List.not_mem_nil, or_false] at hk
    rcases hk with rfl | rfl
    all_goals exact ofFetch?_pattern rfl hw hh origin

theorem Cursor.pixelAt?_mapped {c₀ : MappedCursor} {y x : Int}
    (hplace : (positionRegion c₀.sampling).Place y x) :
    (mapped c₀).pixelAt? y x =
      (mappedAt c₀ y (c₀.sampling.x.position y x) (c₀.sampling.y.position y x)).pixel? := by
  rw [pixelAt?, fresh?_mapped hplace, Option.bind_some]
  change ((Option.bind (mappedAt c₀ y _ _).pixel? _).map _).map Prod.fst = _
  cases (mappedAt c₀ y (c₀.sampling.x.position y x) (c₀.sampling.y.position y x)).pixel? <;> rfl

/-- The coordinates of a cursor over a mapped pattern, one cell after the other: the sides of the
pattern do not limit them, and they are the cells of the exact position. -/
def MappedCursor.InCells (m : MappedCursor) (rx ry : AxisRule) (y x : Int) : Prop :=
  ∀ o, o = 0 ∨ o = 1 →
    (m.column o = m.sampling.x.rawIndex m.posX o ∧
      m.column o = rx.cell m.source.width (cell (m.sampling.x.position y x) + o)) ∧
    m.row o = m.sampling.y.rawIndex m.posY o ∧
      m.row o = ry.cell m.source.height (cell (m.sampling.y.position y x) + o)

/-- A cursor in the cells of an exact position, and with its parts, reads what they name. -/
theorem MappedCursor.InCells.sampledAt {m : MappedCursor} {rx ry : AxisRule} {y x : Int}
    (hm : m.InCells rx ry y x) (hread : m.source.Readable) (hw : 0 < m.source.width)
    (hh : 0 < m.source.height) (hposX : fraction m.posX = fraction (m.sampling.x.position y x))
    (hposY : fraction m.posY = fraction (m.sampling.y.position y x)) {quality : PatternQuality}
    (hquality : m.bilinear = decide (quality = .bilinear)) :
    ∃ p, m.pixel? = some p ∧ m.source.SampledAt m.sampling rx ry quality y x p := by
  have hcell {i j : Int} (hi : i = 0 ∨ i = 1) (hj : j = 0 ∨ j = 1) :
      ∃ p, m.source.cellPixel? m.sampling rx ry y x i j = some p ∧
        m.source.pixel? (m.column i) (m.row j) = some p := by
    obtain ⟨⟨-, hcolumn⟩, -⟩ := hm i hi
    obtain ⟨-, -, hrow⟩ := hm j hj
    have hcolumn' := rx.cell_mem (show 0 < (m.source.width : Int) by omega)
      (cell (m.sampling.x.position y x) + i)
    have hrow' := ry.cell_mem (show 0 < (m.source.height : Int) by omega)
      (cell (m.sampling.y.position y x) + j)
    obtain ⟨p, hp⟩ := Option.isSome_iff_exists.mp
      (hread (show m.column i < m.source.width by omega) (show m.row j < m.source.height by omega))
    refine ⟨p, ?_, hp⟩
    unfold PatternSource.cellPixel?
    rw [← hcolumn, ← hrow, Int.toNat_natCast, Int.toNat_natCast, hp]
  obtain ⟨q00, h00, h00'⟩ := hcell (.inl rfl) (.inl rfl)
  cases quality with
  | nearest =>
    refine ⟨q00, ?_, h00⟩
    unfold pixel?
    rw [hquality, h00']
    rfl
  | bilinear =>
    obtain ⟨q10, h10, h10'⟩ := hcell (.inr rfl) (.inl rfl)
    obtain ⟨q01, h01, h01'⟩ := hcell (.inl rfl) (.inr rfl)
    obtain ⟨q11, h11, h11'⟩ := hcell (.inr rfl) (.inr rfl)
    obtain ⟨p, hp, hmixes⟩ := pixel?_mixes hquality h00' h10' h01' h11'
    rw [hposX, hposY] at hmixes
    exact ⟨p, hp, q00, q10, q01, q11, h00, h10, h01, h11, hmixes⟩

namespace PatternFetch

variable {source : PatternSource} {s : Sampling} {rx ry : AxisRule}

/-- What a mapped pattern shows. The corrections of its axes are those of their rules, no step
reaches over a period, and the exact positions stay below `2^61`. Wherever its cursor was led, its
coordinates are the cells of the exact position and the ones after them, without the limits that the
sides would set; the pixel is the one of the first cells, or the mean of the four by the parts of
the position. -/
theorem mapped_shows_cells {bytes : Array UInt8} {stride width height : Nat} {format : PixelFormat}
    (hsource : PatternSource.ofBytes? bytes stride width height format = some source)
    (hw : 0 < source.width) (hw' : source.width < 2 ^ 29) (hh : 0 < source.height)
    (hh' : source.height < 2 ^ 29) (hx : s.x.Shaped rx source.width)
    (hy : s.y.Shaped ry source.height) {quality : PatternQuality} {k : FetchKind}
    (hk : k ∈ FetchKind.mapped quality) (origin : Int × Int) :
    ∃ c₀ : MappedCursor, Cursor.ofFetch? k (.pattern ⟨source, .mapped s⟩) origin =
        some (.mapped c₀) ∧
      (∀ {c y x}, Cursor.Reaches (Cursor.positionRegion s) (.mapped c₀) c y (some x) →
        (Cursor.positionRegion s).Place y x → ∃ m : MappedCursor, c = .mapped m ∧
          m.source = source ∧ m.sampling = s ∧ m.InCells rx ry y x) ∧
      (Fetch.pattern ⟨source, .mapped s⟩).Shows k origin (Cursor.positionRegion s)
        (source.SampledAt s rx ry quality) := by
  have hsoundX := hx.sound (by omega) (by omega)
  have hsoundY := hy.sound (by omega) (by omega)
  have hcells {y x : Int} (hplace : (Cursor.positionRegion s).Place y x) :
      (Cursor.mappedAt (.ofQuality source s quality) y (s.x.position y x)
        (s.y.position y x)).InCells rx ry y x := fun _ ho =>
    ⟨hx.index_normalize hw hw' hplace.1 ho, hy.index_normalize hh hh' hplace.2 ho⟩
  have hc₀ := Cursor.ofFetch?_mapped hk hw hh s origin
  refine ⟨_, hc₀, fun hreaches hplace =>
    ⟨_, hreaches.mapped_eq hsoundX hsoundY hplace, rfl, rfl, hcells hplace⟩, ?_⟩
  refine Fetch.shows_of_fresh hc₀ ⟨hsoundX, hsoundY, hw, hh⟩ fun y x hplace => ?_
  rw [Cursor.pixelAt?_mapped hplace]
  exact (hcells hplace).sampledAt (PatternSource.readable_of_ofBytes? hsource) hw hh
    (hx.fraction_normalize (by omega) (by omega) hplace.1)
    (hy.fraction_normalize (by omega) (by omega) hplace.2) rfl

/-- On an axis that is walked backwards the first cell is the last of the pattern, and above a
pattern that is mirrored its first row follows. -/
theorem mapped_shows_cells_mirrored :
    let source : PatternSource := ⟨#[1, 2, 3, 4, 5, 6], 3, 3, 2, .a8⟩
    let s : Sampling := ⟨{ corrections .tile 3 true with step := 2 ^ 32 },
      { corrections .reflect 2 false with rowStep := 2 ^ 32, start := -2 ^ 32 }⟩
    (Cursor.positionRegion s).Place 0 0 ∧
      (Fetch.pattern ⟨source, .mapped s⟩).Shows .affineNearest (0, 0) (Cursor.positionRegion s)
        fun y x p => (y = 0 → x = 0 → p = 0x03030303) := by
  intro source s
  have hx : s.x.Shaped ⟨.tile, true⟩ source.width :=
    ⟨rfl, fun _ => by decide, fun _ => by decide⟩
  have hy : s.y.Shaped ⟨.reflect, false⟩ source.height :=
    ⟨rfl, fun _ => by decide, fun _ => by decide⟩
  have hk : FetchKind.affineNearest ∈ FetchKind.mapped .nearest := by decide
  obtain ⟨-, -, -, hshows⟩ := mapped_shows_cells
    (rfl : PatternSource.ofBytes? #[1, 2, 3, 4, 5, 6] 3 3 2 .a8 = some source) (by decide)
    (by decide) (by decide) (by decide) hx hy hk (0, 0)
  refine ⟨⟨by decide, by decide⟩, hshows.imp ?_⟩
  rintro _ _ p hp rfl rfl
  have hfirst : source.cellPixel? s ⟨.tile, true⟩ ⟨.reflect, false⟩ 0 0 0 0 = some 0x03030303 := by
    decide
  exact Option.some.inj (hp.symm.trans hfirst)

end PatternFetch

end Scanline
