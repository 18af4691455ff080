import Scanline.Proofs.Fetch.Reading
import Scanline.Proofs.Gradient.Indices
import Scanline.Proofs.Pattern.Placements
import Scanline.Proofs.Pattern.Steps

/-
  Fetches do not depend on the way of their cursors. A fetch that was made ready as a single color,
  a pattern or a linear gradient has a sound cursor (`Fetch.Ready.hasCursor`).
  `Fetch.Ready.path_independent`: wherever the cursor was led, it reads the pixel that a fresh
  one reads there.
-/

namespace Scanline

theorem PatternSource.sides_pos {s : PatternSource} (h : ¬ s.isEmpty) :
    0 < s.width ∧ 0 < s.height := by
  unfold isEmpty at h
  simp only [Bool.or_eq_true, beq_iff_eq, not_or] at h
  omega

namespace Fetch

/-- A fetch of a single color, a pattern or a linear gradient with the kind that it got when it was
made ready. -/
inductive Ready : Fetch → FetchKind → Prop
  | solid (pixel : UInt32) : Ready (solid pixel) .solid
  | blit (source : PatternSource) (x y : Int) {k : FetchKind}
      (hk : (PatternFetch.blit source x y).kind = some k) :
      Ready (pattern (PatternFetch.blit source x y).fetch) k
  | atPixel {source : PatternSource} {extend : ExtendMode} {x y : Int} {p : Prepared PatternFetch}
      {k : FetchKind} (h : PatternFetch.atPixel? source extend x y = some p)
      (hk : p.kind = some k) : Ready (pattern p.fetch) k
  | atFraction {source : PatternSource} {extend : ExtendMode} {quality : PatternQuality}
      {x64 y64 : Int} {p : Prepared PatternFetch} {k : FetchKind}
      (h : PatternFetch.atFraction? source extend quality x64 y64 = some p)
      (hk : p.kind = some k) : Ready (pattern p.fetch) k
  | mapped {source : PatternSource} {extend : ExtendMode} {quality : PatternQuality}
      {transform : Affine} {p : Prepared PatternFetch} {k : FetchKind}
      (h : PatternFetch.mapped? source extend quality transform = some p)
      (hk : p.kind = some k) : Ready (pattern p.fetch) k
  | linear (table : GradientTable) (p0 p1 : Point) (e : Extend) (q : GradientQuality) (t : Affine)
      {k : FetchKind} (hk : (GradientFetch.linear table p0 p1 e q t).kind = some k) :
      Ready (gradient (GradientFetch.linear table p0 p1 e q t).fetch) k

/-- The sides of a pattern are below `n`. -/
def SidesBelow (n : Nat) : Fetch → Prop
  | pattern f => f.source.width < n ∧ f.source.height < n
  | _ => True

/-- What is read was made from bytes or from color stops. -/
def Made : Fetch → Prop
  | solid _ => True
  | pattern f =>
    ∃ bytes stride width height format,
      PatternSource.ofBytes? bytes stride width height format = some f.source
  | gradient f => ∃ stops n, f.table = .ofStops stops n

theorem readable_of_made {f : PatternFetch} (h : (pattern f).Made) : f.source.Readable := by
  obtain ⟨bytes, stride, width, height, format, h⟩ := h
  exact PatternSource.readable_of_ofBytes? h

/-- A fetch of a kind has a sound cursor, which has all of its pixels if they were made. -/
def HasCursor (fetch : Fetch) (k : FetchKind) : Prop :=
  ∀ origin, ∃ c₀, Cursor.ofFetch? k fetch origin = some c₀ ∧ c₀.Sound ∧ (fetch.Made → c₀.Readable)

/-- What is true of a cursor over a transparent color, and of the one over a pattern that is not
empty, is true of the cursor over the pattern. -/
theorem lands_pattern {f : PatternFetch} {k : FetchKind} {P : Cursor → Prop} (hk : k.isPattern)
    (hempty : P (.solid 0))
    (h : 0 < f.source.width → 0 < f.source.height → Lands False P (Cursor.ofPattern? k f))
    (origin : Int × Int) : Lands False P (Cursor.ofFetch? k (pattern f) origin) := by
  change Lands False P (if k.isPattern then _ else none)
  rw [if_pos hk]
  split
  · exact hempty
  · rename_i hsides
    exact h (PatternSource.sides_pos hsides).1 (PatternSource.sides_pos hsides).2

/-- An empty pattern is transparent, and every other one has a first pixel. -/
theorem hasCursor_pattern {f : PatternFetch} {k : FetchKind} (hk : k.isPattern)
    (h : 0 < f.source.width → 0 < f.source.height → ∃ c₀, Cursor.ofPattern? k f = some c₀ ∧
      c₀.Sound ∧ (f.source.Readable → c₀.Readable)) : (pattern f).HasCursor k := by
  intro origin
  refine (lands_pattern (P := fun c => c.Sound ∧ ((pattern f).Made → c.Readable)) hk
    ⟨trivial, fun _ => trivial⟩ (fun hw hh => ?_) origin).exists_eq_some
  obtain ⟨c₀, hc, hsound, hread⟩ := h hw hh
  rw [hc]
  exact ⟨hsound, fun hmade => hread (readable_of_made hmade)⟩

section Placed

variable {source : PatternSource} {p : Placement}

theorem sound_aligned (k : FetchKind) (hp : p.Fits source) (hw : 0 < source.width)
    (hw' : (source.width : Int) ≤ maxInt32) (hh : 0 < source.height) :
    (Cursor.aligned (.ofPlacement k source p)).Sound := by
  have hcolumns := ColumnWalk.sound_ofSource hw hw' hp.columns
  have hrows := RowWalk.sound_ofSource hh hp.rows hp.rows_le p.extendY p.ty
  unfold AlignedCursor.ofPlacement
  split
  · exact ⟨hcolumns _ _, RowWalk.sound_ofSource hh (.inl rfl) (by decide) _ _, rfl, rfl⟩
  · exact ⟨hcolumns _ _, hrows, rfl, rfl⟩
  · exact ⟨hcolumns _ _, hrows, rfl, rfl⟩
  · exact ⟨hcolumns _ _, hrows, rfl, rfl⟩

theorem sound_bilinear (k : FetchKind) (hp : p.Fits source) (hw : 0 < source.width)
    (hw' : (source.width : Int) ≤ maxInt32) (hh : 0 < source.height) :
    (Cursor.bilinear (.ofPlacement k source p)).Sound :=
  ⟨ColumnWalk.sound_ofSource hw hw' hp.columns _ _,
    RowWalk.sound_ofSource hh hp.rows hp.rows_le _ _, rfl, rfl⟩

/-- A placed pattern is read pixel by pixel or between pixels. -/
theorem ofPattern?_placed {k : FetchKind} (hk : k ∈ FetchKind.placed) (source : PatternSource)
    (p : Placement) :
    Cursor.ofPattern? k ⟨source, .placed p⟩ = some (.aligned (.ofPlacement k source p)) ∨
      Cursor.ofPattern? k ⟨source, .placed p⟩ = some (.bilinear (.ofPlacement k source p)) := by
  simp only [FetchKind.placed, List.mem_cons, List.not_mem_nil, or_false] at hk
  rcases hk with rfl | rfl | rfl | rfl | rfl | rfl | rfl | rfl | rfl | rfl
  iterate 4 exact .inl rfl
  all_goals exact .inr rfl

theorem isPattern_of_placed {k : FetchKind} (hk : k ∈ FetchKind.placed) : k.isPattern := by
  revert k
  decide

theorem hasCursor_placed {k : FetchKind} (hk : k ∈ FetchKind.placed) (hp : p.Fits source)
    (hw' : (source.width : Int) ≤ maxInt32) : (pattern ⟨source, .placed p⟩).HasCursor k := by
  refine hasCursor_pattern (isPattern_of_placed hk) fun hw hh => ?_
  rcases ofPattern?_placed hk source p with h | h
  · refine ⟨_, h, sound_aligned k hp hw hw' hh, fun hread => ?_⟩
    change (AlignedCursor.ofPlacement k source p).source.Readable
    unfold AlignedCursor.ofPlacement
    split <;> exact hread
  · exact ⟨_, h, sound_bilinear k hp hw hw' hh, id⟩

end Placed

/-- A fractional offset places the pattern. -/
theorem placed_of_atFraction? {source : PatternSource} {extend : ExtendMode}
    {quality : PatternQuality} {x64 y64 : Int} {p : Prepared PatternFetch} {k : FetchKind}
    (h : PatternFetch.atFraction? source extend quality x64 y64 = some p) (hk : p.kind = some k)
    (hs : source.SpansFit extend) :
    ∃ placement : Placement, p.fetch = ⟨source, .placed placement⟩ ∧ placement.Fits source ∧
      k ∈ FetchKind.placed := by
  obtain ⟨⟨placement, k'⟩, hplacement, rfl⟩ := Option.map_eq_some_iff.mp h
  obtain rfl := Option.some.inj hk
  exact ⟨placement, rfl, Placement.fits_of_atFraction? hplacement hs⟩

theorem hasCursor_atFraction {source : PatternSource} {extend : ExtendMode}
    {quality : PatternQuality} {x64 y64 : Int} {p : Prepared PatternFetch} {k : FetchKind}
    (h : PatternFetch.atFraction? source extend quality x64 y64 = some p) (hk : p.kind = some k)
    (hw' : source.width < 2 ^ 29) (hh' : source.height < 2 ^ 29) :
    (pattern p.fetch).HasCursor k := by
  have hspans := PatternSource.spansFit_of_lt (hw'.trans (by decide))
    (hh'.trans (by decide)) extend
  obtain ⟨placement, hp, hfits, hplaced⟩ := placed_of_atFraction? h hk hspans
  rw [hp]
  exact hasCursor_placed hplaced hfits hspans.width_le

/-- A map that is not a mere move is sampled in one of three ways. -/
theorem ofPattern?_sampled (source : PatternSource) (quality : PatternQuality) (s : Sampling) :
    (Sampling.kind source quality).isPattern ∧
      Cursor.ofPattern? (Sampling.kind source quality) ⟨source, .mapped s⟩ =
        some (.mapped (.ofSampling (Sampling.kind source quality) source s)) := by
  have hcases : Sampling.kind source quality = .affineBilinear ∨
      Sampling.kind source quality = .affineNearestShort ∨
      Sampling.kind source quality = .affineNearest := by
    unfold Sampling.kind
    cases quality with
    | bilinear => exact .inl rfl
    | nearest =>
      right
      dsimp only
      split
      · exact .inl rfl
      · exact .inr rfl
  rcases hcases with h | h | h
  all_goals rw [h]; exact ⟨rfl, rfl⟩

theorem hasCursor_sampled {source : PatternSource} {extend : ExtendMode} {quality : PatternQuality}
    {inv : Affine} {s : Sampling} (h : Sampling.ofInverse? source extend quality inv = some s)
    (hw' : source.width < 2 ^ 29) (hh' : source.height < 2 ^ 29) :
    (pattern ⟨source, .mapped s⟩).HasCursor (Sampling.kind source quality) := by
  obtain ⟨hkind, hcursor⟩ := ofPattern?_sampled source quality s
  refine hasCursor_pattern hkind fun hw hh => ?_
  obtain ⟨hx, hy⟩ := Sampling.sound_of_ofInverse? h hw hw' hh hh'
  exact ⟨_, hcursor, ⟨hx, hy, hw, hh⟩, id⟩

/-- A map that is not pending places the pattern at a fractional offset or samples it. -/
theorem mapped?_cases {source : PatternSource} {extend : ExtendMode} {quality : PatternQuality}
    {transform : Affine} {p : Prepared PatternFetch} {k : FetchKind}
    (h : PatternFetch.mapped? source extend quality transform = some p) (hk : p.kind = some k) :
    (∃ x64 y64, PatternFetch.atFraction? source extend quality x64 y64 = some p) ∨
      ∃ inv s, Sampling.ofInverse? source extend quality inv = some s ∧
        p.fetch = ⟨source, .mapped s⟩ ∧ k = Sampling.kind source quality := by
  unfold PatternFetch.mapped? at h
  split at h
  · rw [← Option.some.inj h] at hk
    cases hk
  · split at h
    · rw [← Option.some.inj h] at hk
      cases hk
    · split at h
      · exact .inl ⟨_, _, h⟩
      · obtain ⟨s, hs, rfl⟩ := Option.map_eq_some_iff.mp h
        exact .inr ⟨_, s, hs, rfl, (Option.some.inj hk).symm⟩

/-- A mapped pattern keeps its source. -/
theorem source_of_mapped? {source : PatternSource} {extend : ExtendMode}
    {quality : PatternQuality} {transform : Affine} {p : Prepared PatternFetch}
    (h : PatternFetch.mapped? source extend quality transform = some p) :
    p.fetch.source = source := by
  unfold PatternFetch.mapped? at h
  split at h
  · rw [← Option.some.inj h]
    rfl
  · split at h
    · rw [← Option.some.inj h]
      rfl
    · split at h
      · obtain ⟨_, _, rfl⟩ := Option.map_eq_some_iff.mp h
        rfl
      · obtain ⟨_, _, rfl⟩ := Option.map_eq_some_iff.mp h
        rfl

theorem hasCursor_mapped {source : PatternSource} {extend : ExtendMode} {quality : PatternQuality}
    {transform : Affine} {p : Prepared PatternFetch} {k : FetchKind}
    (h : PatternFetch.mapped? source extend quality transform = some p) (hk : p.kind = some k)
    (hsides : (pattern p.fetch).SidesBelow (2 ^ 29)) : (pattern p.fetch).HasCursor k := by
  obtain ⟨hw', hh'⟩ : source.width < 2 ^ 29 ∧ source.height < 2 ^ 29 :=
    source_of_mapped? h ▸ hsides
  obtain ⟨x64, y64, hfraction⟩ | ⟨inv, s, hs, hp, rfl⟩ := mapped?_cases h hk
  · exact hasCursor_atFraction hfraction hk hw' hh'
  · rw [hp]
    exact hasCursor_sampled hs hw' hh'

/-- A table of color stops has the index of every position. -/
theorem has_tableIndex (stops : List ColorStop) (n : Nat) (e : Extend) (i : Int) :
    (GradientTable.ofStops stops n).Has (tableIndex (e ≠ .pad)
      (GradientFetch.indexRange e (GradientTable.ofStops stops n).size).1
      (GradientFetch.indexRange e (GradientTable.ofStops stops n).size).2 i) := by
  obtain ⟨m, hm⟩ := GradientTable.size_two_pow stops n
  exact GradientTable.has_of_lt (tableIndex_lt e hm i)

/-- A linear gradient is folded by its kind where its table starts again, and dithers by its
quality. -/
theorem ofGradient?_linear (table : GradientTable) (course : LinearCourse) (e : Extend)
    (q : GradientQuality) (origin : Int × Int) :
    (GradientFetch.kindOf .linearPad .linearDitherPad q e).isGradient ∧
      Cursor.ofGradient? (GradientFetch.kindOf .linearPad .linearDitherPad q e)
        ⟨table, .linear course⟩ origin =
          some (.linear {
            reader := .ofOrigin table (if q = .dither then some origin else none)
            course, folded := e ≠ .pad }) := by
  cases q <;> cases e <;> exact ⟨rfl, rfl⟩

/-- A linear gradient over a table of color stops finds every index. -/
theorem readable_linear (stops : List ColorStop) (n : Nat) (p0 p1 : Point) (e : Extend)
    (t inv : Affine) (dither : Option DitherPhase) :
    ({ reader := ⟨.ofStops stops n, dither⟩
       course := GradientFetch.linearCourse (GradientTable.ofStops stops n).size p0 p1 e t inv
       folded := e ≠ .pad } : LinearCursor).Readable := by
  intro i
  exact has_tableIndex stops n e i

/-- What is made ready by an inverse map only has a kind if there is one. -/
theorem ready_of_kind {α : Type} {p : Prepared α} (inverse : Option Affine) (pending : α)
    {f : Affine → α} {k k' : FetchKind}
    (hp : p = inverse.elim ⟨pending, none⟩ fun inv => ⟨f inv, some k'⟩) (hk : p.kind = some k) :
    ∃ inv, p.fetch = f inv ∧ k = k' := by
  subst hp
  cases inverse with
  | none => cases hk
  | some inv => exact ⟨inv, rfl, (Option.some.inj hk).symm⟩

theorem linear_of_kind {table : GradientTable} {p0 p1 : Point} {e : Extend} {q : GradientQuality}
    {t : Affine} {k : FetchKind} (hk : (GradientFetch.linear table p0 p1 e q t).kind = some k) :
    ∃ inv, (GradientFetch.linear table p0 p1 e q t).fetch =
        ⟨table, .linear (GradientFetch.linearCourse table.size p0 p1 e t inv)⟩ ∧
      k = GradientFetch.kindOf .linearPad .linearDitherPad q e := by
  refine ready_of_kind t.inverse? ⟨table, .linear {}⟩ ?_ hk
  unfold GradientFetch.linear
  cases t.inverse? <;> rfl

theorem hasCursor_linear (table : GradientTable) (p0 p1 : Point) (e : Extend) (q : GradientQuality)
    (t : Affine) {k : FetchKind} (hk : (GradientFetch.linear table p0 p1 e q t).kind = some k) :
    (gradient (GradientFetch.linear table p0 p1 e q t).fetch).HasCursor k := by
  intro origin
  obtain ⟨inv, hfetch, rfl⟩ := linear_of_kind hk
  rw [hfetch]
  obtain ⟨hgradient, hc⟩ :=
    ofGradient?_linear table (GradientFetch.linearCourse table.size p0 p1 e t inv) e q origin
  refine ⟨_, (if_pos hgradient).trans hc, trivial, ?_⟩
  rintro ⟨stops, n, htable⟩
  obtain rfl : table = .ofStops stops n := htable
  exact readable_linear stops n p0 p1 e t inv _

/-- What was made ready has a sound cursor. -/
theorem Ready.hasCursor {fetch : Fetch} {k : FetchKind} (h : Ready fetch k)
    (hsides : fetch.SidesBelow (2 ^ 29)) : fetch.HasCursor k := by
  cases h with
  | solid pixel => exact fun _ => ⟨.solid pixel, rfl, trivial, fun _ => trivial⟩
  | blit source x y hk =>
    obtain rfl := Option.some.inj hk
    have hspans := PatternSource.spansFit_of_lt (hsides.1.trans (by decide))
      (hsides.2.trans (by decide)) (.both .pad)
    have hplaced : FetchKind.alignedBlit ∈ FetchKind.placed := by decide
    have hperiod : (0 : Int) ≤ maxInt32 := by decide
    exact hasCursor_placed hplaced ⟨.inl rfl, .inl rfl, hperiod⟩ hspans.width_le
  | @atPixel source extend x y p k h hk =>
    obtain ⟨⟨placement, k'⟩, hplacement, rfl⟩ := Option.map_eq_some_iff.mp h
    obtain rfl := Option.some.inj hk
    have hspans := PatternSource.spansFit_of_lt (hsides.1.trans (by decide))
      (hsides.2.trans (by decide)) extend
    obtain ⟨hfits, hplaced⟩ := Placement.fits_of_atPixel? hplacement hspans
    exact hasCursor_placed hplaced hfits hspans.width_le
  | @atFraction source extend quality x64 y64 p k h hk =>
    obtain ⟨⟨placement, k'⟩, -, rfl⟩ := Option.map_eq_some_iff.mp h
    exact hasCursor_atFraction h hk hsides.1 hsides.2
  | mapped h hk => exact hasCursor_mapped h hk hsides
  | linear table p0 p1 e q t hk => exact hasCursor_linear table p0 p1 e q t hk

/-- A fetch that was made ready does not depend on the way of its cursor: what is read in column `x`
of row `y` is the pixel that a fresh cursor reads there, and if all pixels were made then no start,
no skip and no reading fails. -/
theorem Ready.path_independent {fetch : Fetch} {k : FetchKind} (h : Ready fetch k)
    (hsides : fetch.SidesBelow (2 ^ 29)) (origin : Int × Int) :
    ∃ c₀, Cursor.ofFetch? k fetch origin = some c₀ ∧
      (∀ {c y x}, Cursor.Reaches c₀.region c₀ c y (some x) → c₀.region.Place y x →
        c.next?.map Prod.fst = c₀.pixelAt? y x) ∧
      (fetch.Made → ∃ image, Cursor.Yields c₀.region c₀ image ∧
        ∀ {y x}, c₀.region.Place y x → c₀.pixelAt? y x = some (image y x)) := by
  obtain ⟨c₀, hc₀, hsound, hread⟩ := h.hasCursor hsides origin
  refine ⟨c₀, hc₀, fun hreaches hplace => hreaches.next?_eq hsound.steady hplace, fun hmade => ?_⟩
  have himage (y x : Int) : c₀.pixelAt? y x = some ((c₀.pixelAt? y x).getD 0) := by
    obtain ⟨p, hp⟩ := Option.isSome_iff_exists.mp (hsound.isSome_pixelAt? (hread hmade) y x)
    rw [hp]
    rfl
  exact ⟨_, hsound.steady.yields fun y x _ => himage y x, fun _ => himage _ _⟩

/-- A pattern of two by two pixels that is walked backwards, with its columns reflected. -/
theorem Ready.path_independent_mirrored :
    ∃ p, PatternFetch.mapped? ⟨#[0, 64, 128, 255], 2, 2, 2, .a8⟩ ⟨.reflect, .tile⟩ .bilinear
        ⟨-2, 0.5, 0, 1, 0.25, 0⟩ = some p ∧
      Ready (pattern p.fetch) .affineBilinear ∧ (pattern p.fetch).SidesBelow (2 ^ 29) ∧
      ∃ c₀ image, Cursor.ofFetch? .affineBilinear (pattern p.fetch) (0, 0) = some c₀ ∧
        Cursor.Yields c₀.region c₀ image ∧
        ∀ {y x}, c₀.region.Place y x → c₀.pixelAt? y x = some (image y x) := by
  have hkind : (PatternFetch.mapped? ⟨#[0, 64, 128, 255], 2, 2, 2, .a8⟩ ⟨.reflect, .tile⟩ .bilinear
      ⟨-2, 0.5, 0, 1, 0.25, 0⟩).map Prepared.kind = some (some .affineBilinear) := by
    decide +kernel
  obtain ⟨p, hp, hk⟩ := Option.map_eq_some_iff.mp hkind
  have hsource := source_of_mapped? hp
  have hready : Ready (pattern p.fetch) .affineBilinear := .mapped hp hk
  have hsides : (pattern p.fetch).SidesBelow (2 ^ 29) := by
    change p.fetch.source.width < _ ∧ p.fetch.source.height < _
    rw [hsource]
    decide
  have hmade : (pattern p.fetch).Made :=
    ⟨#[0, 64, 128, 255], 2, 2, 2, .a8, by rw [hsource]; rfl⟩
  obtain ⟨c₀, hc₀, -, hyields⟩ := hready.path_independent hsides (0, 0)
  obtain ⟨image, hyields, himage⟩ := hyields hmade
  exact ⟨p, hp, hready, hsides, c₀, image, hc₀, hyields, himage⟩

end Fetch

end Scanline
