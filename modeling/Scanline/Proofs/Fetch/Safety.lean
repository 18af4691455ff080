import Scanline.Proofs.Fetch.PathIndependence

/-
  Fetches that a cursor can begin with. A pattern over a source that has all of its pixels, and a
  gradient over a table of color stops, have a cursor of the kind that they got when they were made
  ready, and it is safe (`opens_mapped`, `opens_gradient`). The positions of a gradient may be any
  floats: they only choose an index, and every index lies in the table.
-/

namespace Scanline

/-- A walk that stands at the first column is inside. -/
theorem ColumnWalk.Sound.inside_zero {w : ColumnWalk} (h : w.Sound) (hx : w.x = 0) : w.Inside := by
  have hpos := h.width_pos
  unfold Inside
  rw [hx]
  cases hrule : w.rule with
  | pad => trivial
  | tile => exact ⟨le_rfl, hpos⟩
  | fold =>
    obtain ⟨hlow, -⟩ := h.period hrule
    exact ⟨by omega, hpos⟩

/-- A walk that stands at the first row is inside. -/
theorem RowWalk.Sound.inside_zero {w : RowWalk} (h : w.Sound) (hy : w.y = 0) : w.Inside := by
  have hpos := h.height_pos
  rcases h.period with hpad | ⟨hlow, -, -⟩
  · exact .inl hpad
  · exact .inr ⟨hy.ge, by omega⟩

namespace Cursor

variable {source : PatternSource} {p : Placement}

/-- A cursor over a placed pattern begins at the first column of the first row. -/
theorem safe_aligned (k : FetchKind) (hp : p.Fits source) (hw : 0 < source.width)
    (hw' : (source.width : Int) ≤ maxInt32) (hh : 0 < source.height) (hread : source.Readable) :
    (aligned (.ofPlacement k source p)).Safe := by
  obtain ⟨hcolumns, hrows, hwidth, hheight⟩ := Fetch.sound_aligned k hp hw hw' hh
  refine ⟨hcolumns, hrows, hcolumns.inside_zero ?_, hrows.inside_zero ?_, hwidth, hheight, ?_⟩
  all_goals unfold AlignedCursor.ofPlacement
  · split <;> rfl
  · split <;> rfl
  · split <;> exact hread

theorem safe_bilinear (k : FetchKind) (hp : p.Fits source) (hw : 0 < source.width)
    (hw' : (source.width : Int) ≤ maxInt32) (hh : 0 < source.height) (hread : source.Readable) :
    (bilinear (.ofPlacement k source p)).Safe := by
  obtain ⟨hcolumns, hrows, hwidth, hheight⟩ := Fetch.sound_bilinear k hp hw hw' hh
  exact ⟨hcolumns, hrows, hcolumns.inside_zero rfl, hrows.inside_zero rfl, hwidth, hheight, hread⟩

end Cursor

namespace Fetch

/-- The fetch has a safe cursor of the kind, wherever the destination lies. -/
def Opens (fetch : Fetch) (k : FetchKind) : Prop :=
  ∀ origin, Lands False Cursor.Safe (Cursor.ofFetch? k fetch origin)

/-! ## Patterns -/

section Patterns

variable {source : PatternSource} {k : FetchKind}

theorem opens_placed {p : Placement} (hk : k ∈ FetchKind.placed) (hp : p.Fits source)
    (hw' : (source.width : Int) ≤ maxInt32) (hread : source.Readable) :
    (pattern ⟨source, .placed p⟩).Opens k := by
  refine lands_pattern (isPattern_of_placed hk) trivial fun hw hh => ?_
  rcases ofPattern?_placed hk source p with h | h
  · rw [h]
    exact Cursor.safe_aligned k hp hw hw' hh hread
  · rw [h]
    exact Cursor.safe_bilinear k hp hw hw' hh hread

theorem opens_sampled (quality : PatternQuality) (s : Sampling) (hread : source.Readable) :
    (pattern ⟨source, .mapped s⟩).Opens (Sampling.kind source quality) := by
  obtain ⟨hkind, hcursor⟩ := ofPattern?_sampled source quality s
  refine lands_pattern hkind trivial fun hw hh => ?_
  rw [hcursor]
  exact ⟨hw, hh, hread⟩

theorem opens_mapped {extend : ExtendMode} {quality : PatternQuality} {transform : Affine}
    {p : Prepared PatternFetch}
    (h : PatternFetch.mapped? source extend quality transform = some p) (hk : p.kind = some k)
    (hs : source.SpansFit extend) (hread : source.Readable) : (pattern p.fetch).Opens k := by
  obtain ⟨x64, y64, hfraction⟩ | ⟨inv, s, -, hp, rfl⟩ := mapped?_cases h hk
  · obtain ⟨placement, hp, hfits, hplaced⟩ := placed_of_atFraction? hfraction hk hs
    rw [hp]
    exact opens_placed hplaced hfits hs.width_le hread
  · rw [hp]
    exact opens_sampled quality s hread

end Patterns

/-! ## Gradients -/

section Gradients

variable (stops : List ColorStop) (n : Nat) {k : FetchKind}

theorem opens_linear (p0 p1 : Point) (e : Extend) (q : GradientQuality) (t : Affine)
    (hk : (GradientFetch.linear (.ofStops stops n) p0 p1 e q t).kind = some k) :
    (gradient (GradientFetch.linear (.ofStops stops n) p0 p1 e q t).fetch).Opens k := by
  intro origin
  obtain ⟨inv, hfetch, rfl⟩ := linear_of_kind hk
  obtain ⟨hgradient, hc⟩ := ofGradient?_linear (.ofStops stops n)
    (GradientFetch.linearCourse (GradientTable.ofStops stops n).size p0 p1 e t inv) e q origin
  rw [hfetch, Cursor.ofFetch?, if_pos hgradient, hc]
  exact readable_linear stops n p0 p1 e t inv _

/-- A radial gradient is folded by its kind where its table starts again. -/
theorem ofGradient?_radial (table : GradientTable) (course : RadialCourse) (e : Extend)
    (q : GradientQuality) (origin : Int × Int) :
    (GradientFetch.kindOf .radialPad .radialDitherPad q e).isGradient ∧
      ∃ dither, Cursor.ofGradient? (GradientFetch.kindOf .radialPad .radialDitherPad q e)
        ⟨table, .radial course⟩ origin =
          some (.radial { reader := ⟨table, dither⟩, course, folded := e ≠ .pad }) := by
  cases q <;> cases e <;> exact ⟨rfl, _, rfl⟩

theorem radial_of_kind {table : GradientTable} {center focal : Point}
    {centerRadius focalRadius : Float} {e : Extend} {q : GradientQuality} {t : Affine}
    (hk : (GradientFetch.radial table center focal centerRadius focalRadius e q t).kind = some k) :
    ∃ inv, (GradientFetch.radial table center focal centerRadius focalRadius e q t).fetch =
        ⟨table, .radial (GradientFetch.radialCourse table.size center focal centerRadius
          focalRadius e inv)⟩ ∧
      k = GradientFetch.kindOf .radialPad .radialDitherPad q e := by
  refine ready_of_kind t.inverse? ⟨table, .radial {}⟩ ?_ hk
  unfold GradientFetch.radial
  cases t.inverse? <;> rfl

theorem opens_radial (center focal : Point) (centerRadius focalRadius : Float) (e : Extend)
    (q : GradientQuality) (t : Affine)
    (hk : (GradientFetch.radial (.ofStops stops n) center focal centerRadius focalRadius e q
      t).kind = some k) :
    (gradient (GradientFetch.radial (.ofStops stops n) center focal centerRadius focalRadius e q
      t).fetch).Opens k := by
  intro origin
  obtain ⟨inv, hfetch, rfl⟩ := radial_of_kind hk
  obtain ⟨hgradient, dither, hc⟩ := ofGradient?_radial (.ofStops stops n)
    (GradientFetch.radialCourse (GradientTable.ofStops stops n).size center focal centerRadius
      focalRadius e inv) e q origin
  rw [hfetch, Cursor.ofFetch?, if_pos hgradient, hc]
  exact fun i => has_tableIndex stops n e i

/-- A conic gradient keeps the bits of an index that its table has. -/
theorem has_indexOf {c : ConicCourse} (hmirror : c.mirror < (GradientTable.ofStops stops n).size)
    (v : Float32) : (GradientTable.ofStops stops n).Has (ConicCursor.indexOf c v) := by
  have hlt := Int.emod_lt_of_pos (min (nearestOfSingle v) c.maxIndex)
    (show 0 < (c.mirror : Int) + 1 by omega)
  refine GradientTable.has_of_lt ?_
  unfold ConicCursor.indexOf
  omega

theorem opens_conic (center : Point) (angle turns : Float) (q : GradientQuality) (t : Affine)
    (hk : (GradientFetch.conic (.ofStops stops n) center angle turns q t).kind = some k) :
    (gradient (GradientFetch.conic (.ofStops stops n) center angle turns q t).fetch).Opens k := by
  intro origin
  unfold GradientFetch.conic at hk ⊢
  dsimp only at hk ⊢
  split at hk
  · cases hk
  · obtain rfl := Option.some.inj hk
    have hmirror := Nat.sub_one_lt (GradientTable.size_pos stops n).ne'
    cases q with
    | nearest => exact fun v => has_indexOf stops n hmirror v
    | dither => exact fun v => has_indexOf stops n hmirror v

/-- A gradient over a table of color stops has a safe cursor under every map. -/
theorem opens_gradient (geometry : GradientGeometry) (e : Extend) (q : GradientQuality) (t : Affine)
    (hk : (GradientFetch.prepare (.ofStops stops n) geometry e q t).kind = some k) :
    (gradient (GradientFetch.prepare (.ofStops stops n) geometry e q t).fetch).Opens k := by
  cases geometry with
  | linear p0 p1 => exact opens_linear stops n p0 p1 e q t hk
  | radial center focal centerRadius focalRadius =>
    exact opens_radial stops n center focal centerRadius focalRadius e q t hk
  | conic center angle turns => exact opens_conic stops n center angle turns q t hk

end Gradients

end Fetch

end Scanline
