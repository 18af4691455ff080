import Scanline.Proofs.Fetch.Premultiplied
import Scanline.Proofs.Fetch.Safety

/-
  Reading inside of the source, by any kind that accepts a fetch. A kind is only held against the
  sort of the fetch, so one that was made ready may be run by a kind that it was not made for. It is
  read inside of its source all the same, wherever its cursor is led and in whatever order
  (`Fetch.Described.next?_isSome_iff`), but for one pairing: a gradient that was made to be
  reflected counts its table twice, and a kind that pads goes on to the end of that
  (`Fetch.Overruns`). Such a cursor finds a pixel just where its position is before the end of the
  table.
-/

namespace Scanline

/-! ## Cursors -/

/-- The columns and rows that are walked over are those of the source. -/
theorem PatternSource.Walked.index_lt {s : PatternSource} {columns : ColumnWalk} {rows : RowWalk}
    (h : s.Walked columns rows) : columns.index < s.width ∧ rows.index < s.height := by
  have hcolumn := h.sound_columns.index_lt h.inside_columns
  have hrow := h.sound_rows.index_lt h.inside_rows
  have hwidth := h.width_eq
  have hheight := h.height_eq
  omega

namespace Cursor

/-- The cursors that a cursor can be led to by its movements, in any order. -/
inductive Leads (c₀ : Cursor) : Cursor → Prop
  | refl : Leads c₀ c₀
  | startRow {c : Cursor} (y : Int) (h : Leads c₀ c) : Leads c₀ (c.startRow y)
  | nextRow {c : Cursor} (h : Leads c₀ c) : Leads c₀ c.nextRow
  | start {c c' : Cursor} {x : Int} (h : Leads c₀ c) (hc : c.start? x = some c') : Leads c₀ c'
  | skip {c c' : Cursor} {x : Int} {n : Nat} (h : Leads c₀ c) (hc : c.skip? x n = some c') :
      Leads c₀ c'
  | next {c c' : Cursor} {p : UInt32} (h : Leads c₀ c) (hc : c.next? = some (p, c')) :
      Leads c₀ c'

/-- What the movements keep holds wherever they lead. -/
theorem Kept.of_leads {halts : Prop} {R : UInt32 → Prop} {C : Cursor → Prop} {c₀ c : Cursor}
    (hC : Kept halts R C) (h₀ : C c₀) (h : Leads c₀ c) : C c := by
  induction h with
  | refl => exact h₀
  | startRow y _ ih => exact hC.startRow _ y ih
  | nextRow _ ih => exact hC.nextRow _ ih
  | start _ hc ih => exact (hC.start? _ _ ih).of_eq_some hc
  | skip _ hc ih => exact (hC.skip? _ _ _ ih).of_eq_some hc
  | next _ hc ih => exact ((hC.next? _ ih).of_eq_some hc).2

/-- The rows that the cursor is at, the columns that it reads next and the entry that it looks up
are there. -/
def ReadsInside : Cursor → Prop
  | solid _ => True
  | aligned c => c.columns.index < c.source.width ∧ c.rows.index < c.source.height
  | bilinear c =>
    (c.columns.index < c.source.width ∧ c.columns.next.index < c.source.width) ∧
      c.rows.index < c.source.height ∧ c.rows.next.index < c.source.height
  | mapped c =>
    (c.column 0 < c.source.width ∧ c.column 1 < c.source.width) ∧
      c.row 0 < c.source.height ∧ c.row 1 < c.source.height
  | linear c =>
    c.reader.table.Has
      (tableIndex c.folded c.course.maxIndex c.course.mirror (c.pos / 0x100000000))
  | radial c =>
    c.reader.table.Has
      (tableIndex c.folded c.course.maxIndex c.course.mirror (truncateSingle c.position))
  | conic c => c.reader.table.Has (ConicCursor.indexOf c.course c.position)

/-- The position of a cursor over a gradient lies before the end of the table. -/
def BeforeEnd : Cursor → Prop
  | linear c => c.pos / 0x100000000 < c.reader.table.size
  | radial c => truncateSingle c.position < c.reader.table.size
  | _ => True

theorem Safe.readsInside {c : Cursor} (h : c.Safe) : c.ReadsInside := by
  cases c with
  | solid pixel => trivial
  | aligned c => exact PatternSource.Walked.index_lt h
  | bilinear c =>
    obtain ⟨hcolumn, hrow⟩ := PatternSource.Walked.index_lt h
    obtain ⟨hcolumn', -⟩ := (PatternSource.Walked.next h).index_lt
    obtain ⟨-, hrow'⟩ := (PatternSource.Walked.nextRow h).index_lt
    exact ⟨⟨hcolumn, hcolumn'⟩, hrow, hrow'⟩
  | mapped c =>
    exact ⟨⟨SampleAxis.index_lt _ h.1 _ _, SampleAxis.index_lt _ h.1 _ _⟩,
      SampleAxis.index_lt _ h.2.1 _ _, SampleAxis.index_lt _ h.2.1 _ _⟩
  | linear c | radial c | conic c => exact h _

end Cursor

/-! ## Tables that are too short -/

/-- The table was made of color stops. -/
def GradientTable.OfStops (t : GradientTable) : Prop := ∃ stops n, t = ofStops stops n

/-- A reader finds the entries that its table has, dithered or not. -/
theorem TableReader.isSome_next?_iff {r : TableReader} (h : r.table.OfStops) (i : Nat) :
    (r.next? i).isSome ↔ r.table.Has i := by
  obtain ⟨stops, n, htable⟩ := h
  have hsizes := GradientTable.fineColors_size stops n
  unfold next? GradientTable.Has
  cases r.dither with
  | none => simp [htable, hsizes]
  | some d => simp [htable, hsizes]

theorem TableReader.table_next? (r : TableReader) (i : Nat) :
    Lands True (fun out => out.2.table = r.table) (r.next? i) := by
  unfold next?
  cases r.dither with
  | none => exact (Lands.of_true _).map fun _ _ => rfl
  | some d => exact (Lands.of_true _).map fun _ _ => rfl

/-- Padding up to an index behind the end of the table finds the entries before the end. -/
theorem GradientTable.has_tableIndex_iff {t : GradientTable} (h : t.OfStops) {maxIndex : Nat}
    (hsize : t.size ≤ maxIndex) (mirror : Nat) (i : Int) :
    t.Has (tableIndex false maxIndex mirror i) ↔ i < t.size := by
  obtain ⟨stops, n, rfl⟩ := h
  have hpos := size_pos stops n
  have hindex : tableIndex false maxIndex mirror i < (ofStops stops n).size ↔
      i < (ofStops stops n).size := by
    change (clampInt 0 maxIndex i).toNat < _ ↔ _
    unfold clampInt
    split_ifs <;> omega
  exact ⟨fun hhas => hindex.mp hhas.1, fun hi => has_of_lt (hindex.mpr hi)⟩

/-- The cursor pads up to an index that its table does not have. -/
def LinearCursor.Overrun (c : LinearCursor) : Prop :=
  c.reader.table.OfStops ∧ c.folded = false ∧ c.reader.table.size ≤ c.course.maxIndex

/-- The cursor pads up to an index that its table does not have. -/
def RadialCursor.Overrun (c : RadialCursor) : Prop :=
  c.reader.table.OfStops ∧ c.folded = false ∧ c.reader.table.size ≤ c.course.maxIndex

namespace Cursor

/-- The cursor pads up to an index that its table does not have. -/
def Overrun : Cursor → Prop
  | linear c => c.Overrun
  | radial c => c.Overrun
  | _ => False

theorem kept_overrun : Kept True (fun _ => True) Overrun where
  startRow c y h := by cases c <;> exact h
  nextRow c h := by cases c <;> exact h
  start? c x h := by cases c <;> first | exact h | exact h.elim
  skip? c x n h := by cases c <;> first | exact h | exact h.elim
  next? c h := by
    refine Lands.mono (P := fun out => Overrun out.2) ?_ fun out hout => ⟨trivial, hout⟩
    cases c with
    | linear c | radial c =>
      refine Lands.map (P := fun out => out.2.Overrun) ?_ fun out hout => hout
      refine (c.reader.table_next? _).bind fun out hout => ?_
      change out.2.table.OfStops ∧ _ ∧ out.2.table.size ≤ _
      rw [hout]
      exact h
    | _ => exact h.elim

/-- A cursor that pads too far can go anywhere, and has a pixel before the end of its table. -/
theorem Overrun.reads_iff {c : Cursor} (h : c.Overrun) :
    (∀ x, (c.start? x).isSome) ∧ (∀ x n, (c.skip? x n).isSome) ∧
      (c.next?.isSome ↔ c.ReadsInside) ∧ (c.ReadsInside ↔ c.BeforeEnd) := by
  cases c with
  | linear c | radial c =>
    obtain ⟨htable, hfolded, hsize⟩ := h
    refine ⟨fun _ => rfl, fun _ _ => rfl, ?_, ?_⟩
    · refine Iff.trans ?_ (TableReader.isSome_next?_iff htable _)
      change (((c.reader.next? _).bind _).map _).isSome ↔ _
      rw [Option.isSome_map]
      cases c.reader.next? _ <;> exact Iff.rfl
    · simp only [ReadsInside, BeforeEnd, hfolded]
      exact GradientTable.has_tableIndex_iff htable hsize _ _
  | _ => exact h.elim

/-- A safe cursor can go anywhere and has a pixel there. -/
theorem Safe.next?_isSome {c : Cursor} (h : c.Safe) :
    (∀ x, (c.start? x).isSome) ∧ (∀ x n, (c.skip? x n).isSome) ∧ c.next?.isSome :=
  ⟨fun x => (kept_safe.start? c x h).isSome id, fun x n => (kept_safe.skip? c x n h).isSome id,
    (kept_safe.next? c h).isSome id⟩

end Cursor

/-! ## Gradients -/

/-- Folding brings every position into a table with a power of two of entries. -/
theorem tableIndex_folded_lt (e : Extend) {n k : Nat} (hn : n = 2 ^ k) (i : Int) :
    tableIndex true (GradientFetch.indexRange e n).1 (GradientFetch.indexRange e n).2 i < n := by
  cases e with
  | pad => exact tableIndex_lt .tile hn i
  | tile => exact tableIndex_lt .tile hn i
  | reflect => exact tableIndex_lt .reflect hn i

namespace GradientFetch

/-- The indices of a table of `n` entries that goes on by the rule, or those of a pending
gradient. -/
def RangeOf (e : Extend) (n maxIndex mirror : Nat) : Prop :=
  maxIndex = 0 ∧ mirror = 0 ∨ (maxIndex, mirror) = indexRange e n

/-- An index is in the table, unless it is padded up to one that is not. -/
theorem RangeOf.tableIndex_lt {e : Extend} {n k maxIndex mirror : Nat}
    (h : RangeOf e n maxIndex mirror) (hn : n = 2 ^ k) {folded : Bool}
    (hpad : ¬ (folded = false ∧ n ≤ maxIndex)) (i : Int) :
    tableIndex folded maxIndex mirror i < n := by
  cases folded with
  | true =>
    obtain ⟨rfl, rfl⟩ | hrange := h
    · have hlast : tableIndex true 0 0 i < 1 := tableIndex_folded_lt .pad (pow_zero 2).symm i
      exact hlast.trans_le (hn ▸ Nat.two_pow_pos k)
    · obtain ⟨rfl, rfl⟩ := Prod.mk.inj hrange
      exact tableIndex_folded_lt e hn i
  | false =>
    have hmax : maxIndex < n := Nat.lt_of_not_le fun hle => hpad ⟨rfl, hle⟩
    have hclamp := clampInt_mem (Int.natCast_nonneg maxIndex) i
    change (clampInt 0 maxIndex i).toNat < n
    omega

/-- Only a table that is reflected has indices behind its end. -/
theorem RangeOf.eq_reflect {e : Extend} {n maxIndex mirror : Nat}
    (h : RangeOf e n maxIndex mirror) (hn : 0 < n) (hmax : n ≤ maxIndex) : e = .reflect := by
  obtain ⟨rfl, rfl⟩ | hrange := h
  · exact absurd hmax hn.not_ge
  · by_contra he
    rw [indexRange, if_neg he] at hrange
    obtain ⟨rfl, -⟩ := Prod.mk.inj hrange
    omega

/-- The constants of the gradient are for its table and the rule. -/
def MadeBy (e : Extend) (f : GradientFetch) : Prop :=
  match f.course with
  | .linear c => RangeOf e f.table.size c.maxIndex c.mirror
  | .radial c => RangeOf e f.table.size c.maxIndex c.mirror
  | .conic c => c.mirror < f.table.size

theorem madeBy_prepare {table : GradientTable} (hsize : 0 < table.size)
    (geometry : GradientGeometry) (e : Extend) (q : GradientQuality) (t : Affine) :
    (prepare table geometry e q t).fetch.table = table ∧
      (prepare table geometry e q t).fetch.MadeBy e := by
  have hpending : RangeOf e table.size 0 0 := .inl ⟨rfl, rfl⟩
  have hrange : RangeOf e table.size (indexRange e table.size).1 (indexRange e table.size).2 :=
    .inr rfl
  cases geometry with
  | linear p0 p1 =>
    unfold prepare linear
    dsimp only
    split
    · exact ⟨rfl, hpending⟩
    · exact ⟨rfl, hrange⟩
  | radial center focal centerRadius focalRadius =>
    unfold prepare radial
    dsimp only
    split
    · exact ⟨rfl, hpending⟩
    · exact ⟨rfl, hrange⟩
  | conic center angle turns =>
    unfold prepare conic
    dsimp only
    split
    · exact ⟨rfl, hsize⟩
    · exact ⟨rfl, Nat.sub_one_lt hsize.ne'⟩

end GradientFetch

/-! ## Fetches -/

namespace Fetch

/-- A fetch as it is made ready from a source whose sides do not leave the words. It may be
pending. -/
inductive Described : Fetch → Prop
  | solid (pixel : UInt32) : Described (solid pixel)
  | blit {source : PatternSource} (x y : Int) (hs : source.SpansFit (.both .pad)) :
      Described (pattern (PatternFetch.blit source x y).fetch)
  | atPixel {source : PatternSource} {extend : ExtendMode} {x y : Int} {p : Prepared PatternFetch}
      (h : PatternFetch.atPixel? source extend x y = some p) (hs : source.SpansFit extend) :
      Described (pattern p.fetch)
  | atFraction {source : PatternSource} {extend : ExtendMode} {quality : PatternQuality}
      {x64 y64 : Int} {p : Prepared PatternFetch}
      (h : PatternFetch.atFraction? source extend quality x64 y64 = some p)
      (hs : source.SpansFit extend) : Described (pattern p.fetch)
  | mapped {source : PatternSource} {extend : ExtendMode} {quality : PatternQuality}
      {transform : Affine} {p : Prepared PatternFetch}
      (h : PatternFetch.mapped? source extend quality transform = some p)
      (hs : source.SpansFit extend) : Described (pattern p.fetch)
  | gradient (stops : List ColorStop) (n : Nat) (geometry : GradientGeometry) (e : Extend)
      (q : GradientQuality) (t : Affine) :
      Described (gradient (GradientFetch.prepare (.ofStops stops n) geometry e q t).fetch)

/-- The kind pads the gradient up to an index that its table does not have, since the gradient was
made to be reflected. -/
def Overruns (fetch : Fetch) (k : FetchKind) : Prop :=
  match fetch with
  | gradient ⟨table, .linear c⟩ => k.isFolded = false ∧ table.size ≤ c.maxIndex
  | gradient ⟨table, .radial c⟩ => k.isFolded = false ∧ table.size ≤ c.maxIndex
  | _ => False

variable {fetch : Fetch} {k : FetchKind} {origin : Int × Int} {c₀ c : Cursor}

/-- A pattern that is placed has the periods of its source, whose columns are a word. -/
def PatternFits (f : PatternFetch) : Prop :=
  match f.mode with
  | .placed p => p.Fits f.source ∧ (f.source.width : Int) ≤ maxInt32
  | .mapped _ => True

theorem patternFits_of_mapped? {source : PatternSource} {extend : ExtendMode}
    {quality : PatternQuality} {transform : Affine} {p : Prepared PatternFetch}
    (h : PatternFetch.mapped? source extend quality transform = some p)
    (hs : source.SpansFit extend) : PatternFits p.fetch := by
  have hpending : PatternFits (PatternFetch.pending source).fetch :=
    ⟨⟨.inl rfl, .inl rfl, by decide⟩, hs.width_le⟩
  unfold PatternFetch.mapped? at h
  split at h
  · exact Option.some.inj h ▸ hpending
  · split_ifs at h
    · exact Option.some.inj h ▸ hpending
    · obtain ⟨⟨placement, k⟩, hplacement, rfl⟩ := Option.map_eq_some_iff.mp h
      exact ⟨(Placement.fits_of_atFraction? hplacement hs).1, hs.width_le⟩
    · obtain ⟨_, _, rfl⟩ := Option.map_eq_some_iff.mp h
      trivial

/-- A pattern begins with a safe cursor of any kind that accepts it. -/
theorem safe_of_pattern {f : PatternFetch} (hf : PatternFits f) (hread : f.source.Readable)
    (hc : Cursor.ofFetch? k (pattern f) origin = some c₀) : c₀.Safe := by
  obtain ⟨-, hc⟩ := Option.ite_none_right_eq_some.mp hc
  split at hc
  · obtain rfl := Option.some.inj hc
    trivial
  · rename_i hsides
    obtain ⟨hw, hh⟩ := PatternSource.sides_pos hsides
    obtain ⟨source, mode⟩ := f
    cases mode with
    | placed p =>
      obtain rfl | rfl := Cursor.ofPattern?_of_placed hc
      · exact Cursor.safe_aligned k hf.1 hw hf.2 hh hread
      · exact Cursor.safe_bilinear k hf.1 hw hf.2 hh hread
    | mapped s =>
      obtain rfl := Cursor.ofPattern?_of_mapped hc
      exact ⟨hw, hh, hread⟩

/-- A gradient begins with a safe cursor of any kind that accepts it, or with one that pads too
far. -/
theorem safe_or_overrun_of_gradient {e : Extend} {f : GradientFetch} (hf : f.MadeBy e)
    (htable : f.table.OfStops) (hc : Cursor.ofFetch? k (gradient f) origin = some c₀) :
    ¬ (gradient f).Overruns k ∧ c₀.Safe ∨ (gradient f).Overruns k ∧ c₀.Overrun := by
  obtain ⟨-, hc⟩ := Option.ite_none_right_eq_some.mp hc
  obtain ⟨table, course⟩ := f
  obtain ⟨stops, n, rfl⟩ := htable
  obtain ⟨m, hm⟩ := GradientTable.size_two_pow stops n
  obtain ⟨dither, rfl⟩ := Cursor.ofGradient?_of_course hc
  cases course with
  | linear c | radial c =>
    by_cases hpad : k.isFolded = false ∧ (GradientTable.ofStops stops n).size ≤ c.maxIndex
    · exact .inr ⟨hpad, ⟨stops, n, rfl⟩, hpad⟩
    · exact .inl ⟨hpad, fun i => GradientTable.has_of_lt (hf.tableIndex_lt hm hpad i)⟩
  | conic c => exact .inl ⟨id, fun v => has_indexOf stops n hf v⟩

/-- A fetch begins with a safe cursor of any kind that accepts it, or with one that pads too far. -/
theorem Described.safe_or_overrun (h : Described fetch) (hmade : fetch.Made)
    (hc : Cursor.ofFetch? k fetch origin = some c₀) :
    ¬ fetch.Overruns k ∧ c₀.Safe ∨ fetch.Overruns k ∧ c₀.Overrun := by
  have hpattern {f : PatternFetch} (hf : PatternFits f) (hmade : (pattern f).Made)
      (hc : Cursor.ofFetch? k (pattern f) origin = some c₀) :
      ¬ (pattern f).Overruns k ∧ c₀.Safe ∨ (pattern f).Overruns k ∧ c₀.Overrun :=
    .inl ⟨id, safe_of_pattern hf (readable_of_made hmade) hc⟩
  cases h with
  | solid pixel =>
    obtain ⟨-, hc⟩ := Option.ite_none_right_eq_some.mp hc
    obtain rfl := Option.some.inj hc
    exact .inl ⟨id, trivial⟩
  | blit x y hs =>
    have hperiod : (0 : Int) ≤ maxInt32 := by decide
    exact hpattern ⟨⟨.inl rfl, .inl rfl, hperiod⟩, hs.width_le⟩ hmade hc
  | atPixel h hs =>
    obtain ⟨⟨placement, _⟩, hplacement, rfl⟩ := Option.map_eq_some_iff.mp h
    exact hpattern ⟨(Placement.fits_of_atPixel? hplacement hs).1, hs.width_le⟩ hmade hc
  | atFraction h hs =>
    obtain ⟨⟨placement, _⟩, hplacement, rfl⟩ := Option.map_eq_some_iff.mp h
    exact hpattern ⟨(Placement.fits_of_atFraction? hplacement hs).1, hs.width_le⟩ hmade hc
  | mapped h hs => exact hpattern (patternFits_of_mapped? h hs) hmade hc
  | gradient stops n geometry e q t =>
    obtain ⟨htable, hf⟩ :=
      GradientFetch.madeBy_prepare (GradientTable.size_pos stops n) geometry e q t
    exact safe_or_overrun_of_gradient hf ⟨stops, n, htable⟩ hc

/-- Only a gradient that was made to be reflected overruns its table. -/
theorem Described.reflect_of_overruns (h : Described fetch) (ho : fetch.Overruns k) :
    ∃ stops n geometry q t,
      fetch = .gradient (GradientFetch.prepare (.ofStops stops n) geometry .reflect q t).fetch := by
  cases h with
  | gradient stops n geometry e q t =>
    have hpos := GradientTable.size_pos stops n
    obtain ⟨htable, hf⟩ := GradientFetch.madeBy_prepare hpos geometry e q t
    refine ⟨stops, n, geometry, q, t, ?_⟩
    suffices he : e = .reflect by rw [he]
    revert hf ho
    unfold Overruns GradientFetch.MadeBy
    rw [← htable] at hpos
    generalize (GradientFetch.prepare (.ofStops stops n) geometry e q t).fetch = f at hpos ⊢
    obtain ⟨table, course⟩ := f
    intro ho hf
    cases course with
    | linear c | radial c => exact hf.eq_reflect hpos ho.2
    | conic c => exact ho.elim
  | _ => exact ho.elim

/-- A fetch is read inside of its source, by any kind that accepts it and wherever its cursor is
led: starting and skipping never fail, and there is a pixel just where what is read lies inside.
That is so everywhere unless the kind pads a gradient that was made to be reflected, and then where
the position is before the end of the table. -/
theorem Described.next?_isSome_iff (h : Described fetch) (hmade : fetch.Made)
    (hc : Cursor.ofFetch? k fetch origin = some c₀) (hled : c₀.Leads c) :
    (∀ x, (c.start? x).isSome) ∧ (∀ x n, (c.skip? x n).isSome) ∧
      (c.next?.isSome ↔ c.ReadsInside) ∧ (c.ReadsInside ↔ (fetch.Overruns k → c.BeforeEnd)) ∧
      (fetch.Overruns k → ∃ stops n geometry q t, fetch = .gradient
        (GradientFetch.prepare (.ofStops stops n) geometry .reflect q t).fetch) := by
  have hreflect := h.reflect_of_overruns (k := k)
  obtain ⟨hnot, hsafe⟩ | ⟨hoverruns, hoverrun⟩ := h.safe_or_overrun hmade hc
  · have hsafe := Cursor.kept_safe.of_leads hsafe hled
    obtain ⟨hstart, hskip, hnext⟩ := hsafe.next?_isSome
    exact ⟨hstart, hskip, iff_of_true hnext hsafe.readsInside,
      iff_of_true hsafe.readsInside fun h => absurd h hnot, hreflect⟩
  · obtain ⟨hstart, hskip, hnext, hinside⟩ :=
      (Cursor.kept_overrun.of_leads hoverrun hled).reads_iff
    exact ⟨hstart, hskip, hnext, hinside.trans ⟨fun hend _ => hend, fun hend => hend hoverruns⟩,
      hreflect⟩

/-- A table of two entries that is reflected every four columns, run by a kind that pads: the third
pixel of a row is not there. -/
theorem Described.next?_isSome_iff_reflected :
    ∃ c₀ c, Cursor.ofFetch? .linearPad (.gradient (GradientFetch.prepare (.ofStops [] 2)
        (.linear ⟨0, 0⟩ ⟨2, 0⟩) .reflect .nearest ⟨1, 0, 0, 1, 0, 0⟩).fetch) (0, 0) = some c₀ ∧
      c₀.Leads c ∧ c.next? = none := by
  have hsize : (GradientTable.ofStops [] 2).size = 2 :=
    (GradientTable.size_ofStops [] 2).trans (by decide +kernel)
  -- half an entry at the first column, and an entry more at each one after it
  have hcourse : (⟨1, 0, 0, 1, 0, 0⟩ : Affine).inverse?.map
      (GradientFetch.linearCourse 2 ⟨0, 0⟩ ⟨2, 0⟩ .reflect ⟨1, 0, 0, 1, 0, 0⟩) =
        some ⟨0x80000000, 0x100000000, 0, 3, 3⟩ := by decide +kernel
  obtain ⟨inv, hinv, hcourse⟩ := Option.map_eq_some_iff.mp hcourse
  have hfetch : (GradientFetch.prepare (.ofStops [] 2) (.linear ⟨0, 0⟩ ⟨2, 0⟩) .reflect .nearest
      ⟨1, 0, 0, 1, 0, 0⟩).fetch =
        ⟨.ofStops [] 2, .linear ⟨0x80000000, 0x100000000, 0, 3, 3⟩⟩ := by
    rw [GradientFetch.prepare, GradientFetch.linear, hinv, hsize]
    dsimp only
    rw [hcourse]
  have hdescribed := Described.gradient [] 2 (.linear ⟨0, 0⟩ ⟨2, 0⟩) .reflect .nearest
    ⟨1, 0, 0, 1, 0, 0⟩
  rw [hfetch] at hdescribed ⊢
  refine ⟨_, _, rfl, .start (x := 2) (.startRow 0 .refl) rfl, ?_⟩
  have hcursor : Cursor.ofFetch? .linearPad (.gradient ⟨.ofStops [] 2,
      .linear ⟨0x80000000, 0x100000000, 0, 3, 3⟩⟩) (0, 0) = some _ := rfl
  obtain ⟨-, -, hnext, hinside, -⟩ := hdescribed.next?_isSome_iff ⟨_, _, rfl⟩ hcursor
    (.start (x := 2) (.startRow 0 .refl) rfl)
  rw [← Option.not_isSome_iff_eq_none, hnext, hinside]
  intro hend
  have hpos : (2 : Int) < (2 : Nat) := hsize ▸ hend ⟨rfl, by rw [hsize]; decide⟩
  exact absurd hpos (by decide)

end Fetch

end Scanline
