import Scanline.Proofs.Fetch.Kinds
import Scanline.Proofs.Gradient.Indices
import Scanline.Proofs.Render.Invariants

/-
  Reading through a cursor. A cursor is safe (`Cursor.Safe`) where the columns and the rows that it
  walks over lie in a source that has all of its pixels, or where its table has every index that it
  comes to. `kept_safe`: a safe cursor stays safe wherever it goes, and always has a pixel. A sound
  cursor is safe wherever it is started, so it reads a pixel there (`Sound.isSome_pixelAt?`).
-/

namespace Scanline

/-! ## Patterns -/

/-- Every pixel inside the sides is there. -/
def PatternSource.Readable (s : PatternSource) : Prop :=
  ∀ {x y}, x < s.width → y < s.height → (s.pixel? x y).isSome

theorem PatternSource.readable_of_ofBytes? {bytes : Array UInt8} {stride width height : Nat}
    {format : PixelFormat} {s : PatternSource}
    (h : ofBytes? bytes stride width height format = some s) : s.Readable :=
  fun hx hy => isSome_pixel? h hx hy

/-- A walk over the columns and one over the rows of a source that has all of its pixels. -/
structure PatternSource.Walked (s : PatternSource) (columns : ColumnWalk) (rows : RowWalk) :
    Prop where
  sound_columns : columns.Sound
  sound_rows : rows.Sound
  inside_columns : columns.Inside
  inside_rows : rows.Inside
  width_eq : columns.width = s.width
  height_eq : rows.height = s.height
  readable : s.Readable

namespace PatternSource.Walked

variable {s : PatternSource} {columns : ColumnWalk} {rows : RowWalk}

theorem start (h : s.Walked columns rows) (x : Int) : s.Walked (columns.start x) rows where
  __ := h
  sound_columns := h.sound_columns.start x
  inside_columns := h.sound_columns.inside_start x

theorem next (h : s.Walked columns rows) : s.Walked columns.next rows where
  __ := h
  sound_columns := h.sound_columns.next
  inside_columns := h.sound_columns.inside_next h.inside_columns

theorem startRow (h : s.Walked columns rows) (y : Int) : s.Walked columns (rows.start y) where
  __ := h
  sound_rows := h.sound_rows.start y
  inside_rows := h.sound_rows.inside_start y

theorem nextRow (h : s.Walked columns rows) : s.Walked columns rows.next where
  __ := h
  sound_rows := h.sound_rows.next
  inside_rows := h.sound_rows.inside_next h.inside_rows

theorem isSome_pixel? (h : s.Walked columns rows) : (s.pixel? columns.index rows.index).isSome := by
  have hcolumn := h.sound_columns.index_lt h.inside_columns
  have hrow := h.sound_rows.index_lt h.inside_rows
  have hwidth := h.width_eq
  have hheight := h.height_eq
  exact h.readable (by omega) (by omega)

end PatternSource.Walked

namespace BilinearCursor

theorem isSome_weigh? {c : BilinearCursor} {columns : ColumnWalk}
    (h : c.source.Walked columns c.rows) (above below : Nat) :
    (c.weigh? columns.index above below).isSome := by
  obtain ⟨p, hp⟩ := Option.isSome_iff_exists.mp h.isSome_pixel?
  obtain ⟨q, hq⟩ := Option.isSome_iff_exists.mp h.nextRow.isSome_pixel?
  unfold weigh?
  rw [hp, hq]
  rfl

end BilinearCursor

theorem SampleAxis.index_lt (a : SampleAxis) {n : Nat} (hn : 0 < n) (v offset : Int) :
    a.index n v offset < n := by
  unfold index
  dsimp only
  omega

namespace MappedCursor

theorem isSome_pixel? {c : MappedCursor} (hw : 0 < c.source.width) (hh : 0 < c.source.height)
    (hread : c.source.Readable) : c.pixel?.isSome := by
  have hpixel (i j : Int) : (c.source.pixel? (c.column i) (c.row j)).isSome :=
    hread (SampleAxis.index_lt _ hw _ _) (SampleAxis.index_lt _ hh _ _)
  obtain ⟨p00, h00⟩ := Option.isSome_iff_exists.mp (hpixel 0 0)
  obtain ⟨p01, h01⟩ := Option.isSome_iff_exists.mp (hpixel 0 1)
  obtain ⟨p10, h10⟩ := Option.isSome_iff_exists.mp (hpixel 1 0)
  obtain ⟨p11, h11⟩ := Option.isSome_iff_exists.mp (hpixel 1 1)
  unfold pixel?
  rw [h00, h01, h10, h11]
  split <;> rfl

end MappedCursor

/-! ## Gradients -/

/-- Both tables of the gradient have the index. -/
def GradientTable.Has (t : GradientTable) (i : Nat) : Prop :=
  i < t.colors.size ∧ i < t.fineColors.size

/-- The two tables of color stops are of one length. -/
theorem GradientTable.has_of_lt {stops : List ColorStop} {n i : Nat}
    (h : i < (ofStops stops n).size) : (ofStops stops n).Has i :=
  ⟨h, lt_of_lt_of_eq h (fineColors_size stops n).symm⟩

/-- Every index that the cursor comes to is in the table. -/
def LinearCursor.Readable (c : LinearCursor) : Prop :=
  ∀ i, c.reader.table.Has (tableIndex c.folded c.course.maxIndex c.course.mirror i)

/-- Every index that the cursor comes to is in the table. -/
def RadialCursor.Readable (c : RadialCursor) : Prop :=
  ∀ i, c.reader.table.Has (tableIndex c.folded c.course.maxIndex c.course.mirror i)

/-- Every index that the cursor comes to is in the table. -/
def ConicCursor.Readable (c : ConicCursor) : Prop :=
  ∀ v, c.reader.table.Has (ConicCursor.indexOf c.course v)

/-- A reader finds an index that its table has, and keeps its table. -/
theorem TableReader.lands_next? {r : TableReader} {i : Nat} (h : r.table.Has i) :
    Lands False (fun out => out.2.table = r.table) (r.next? i) := by
  unfold next?
  cases r.dither with
  | none =>
    dsimp only
    rw [Array.getElem?_eq_getElem h.1]
    rfl
  | some d =>
    dsimp only
    rw [Array.getElem?_eq_getElem h.2]
    rfl

namespace Cursor

/-- The pixels that a cursor reads are there. -/
def Readable : Cursor → Prop
  | solid _ => True
  | aligned c => c.source.Readable
  | bilinear c => c.source.Readable
  | mapped c => c.source.Readable
  | linear c => c.Readable
  | radial c => c.Readable
  | conic c => c.Readable

/-- The cursor stands where its source has a pixel. -/
def Safe : Cursor → Prop
  | solid _ => True
  | aligned c => c.source.Walked c.columns c.rows
  | bilinear c => c.source.Walked c.columns c.rows
  | mapped c => 0 < c.source.width ∧ 0 < c.source.height ∧ c.source.Readable
  | linear c => c.Readable
  | radial c => c.Readable
  | conic c => c.Readable

/-- A cursor between pixels can be started where its walk over the columns has a column. -/
theorem start?_bilinear_safe {c : BilinearCursor} {x : Int}
    (h : c.source.Walked (c.columns.start x) c.rows) :
    Lands False Safe ((c.start? x).map bilinear) := by
  obtain ⟨left, hleft⟩ :=
    Option.isSome_iff_exists.mp (BilinearCursor.isSome_weigh? h c.weights.a c.weights.c)
  unfold BilinearCursor.start?
  dsimp only
  rw [hleft]
  exact h

theorem next?_bilinear_safe {c : BilinearCursor} (h : c.source.Walked c.columns c.rows) :
    Lands False (fun out => Safe out.2)
      (c.next?.map fun out : UInt32 × BilinearCursor => (out.1, bilinear out.2)) := by
  have hweigh (above below : Nat) := Option.isSome_iff_exists.mp
    (BilinearCursor.isSome_weigh? h.next above below)
  obtain ⟨right, hright⟩ := hweigh c.weights.b c.weights.d
  obtain ⟨left, hleft⟩ := hweigh c.weights.a c.weights.c
  unfold BilinearCursor.next?
  dsimp only
  rw [hright, hleft]
  exact h.next

/-- A safe cursor stays safe wherever it goes, and has a pixel at every step. -/
theorem kept_safe : Kept False (fun _ => True) Safe where
  startRow c y h := by
    cases c with
    | aligned c => exact PatternSource.Walked.startRow h y
    | bilinear c => exact PatternSource.Walked.startRow h y
    | _ => exact h
  nextRow c h := by
    cases c with
    | aligned c => exact PatternSource.Walked.nextRow h
    | bilinear c => exact PatternSource.Walked.nextRow h
    | _ => exact h
  start? c x h := by
    cases c with
    | aligned c => exact PatternSource.Walked.start h x
    | bilinear c => exact start?_bilinear_safe (PatternSource.Walked.start h x)
    | _ => exact h
  skip? c x n h := by
    cases c with
    | aligned c => exact PatternSource.Walked.start h x
    | bilinear c => exact start?_bilinear_safe (PatternSource.Walked.start h x)
    | _ => exact h
  next? c h := by
    refine Lands.mono (P := fun out => Safe out.2) ?_ fun out hout => ⟨trivial, hout⟩
    cases c with
    | solid pixel => exact h
    | aligned c =>
      obtain ⟨p, hp⟩ := Option.isSome_iff_exists.mp (PatternSource.Walked.isSome_pixel? h)
      change Lands False _ (((c.source.pixel? c.columns.index c.rows.index).bind _).map _)
      rw [hp]
      exact PatternSource.Walked.next h
    | bilinear c => exact next?_bilinear_safe h
    | mapped c =>
      obtain ⟨p, hp⟩ := Option.isSome_iff_exists.mp (MappedCursor.isSome_pixel? h.1 h.2.1 h.2.2)
      change Lands False _ ((c.pixel?.bind _).map _)
      rw [hp]
      exact h
    | linear c | radial c | conic c =>
      refine Lands.map (P := fun out => out.2.Readable) ?_ fun out hout => hout
      refine (TableReader.lands_next? (h _)).bind fun out hout i => ?_
      change out.2.table.Has _
      rw [hout]
      exact h i

/-- A sound cursor with all of its pixels is safe wherever it is started. -/
theorem Sound.safe_fresh? {c : Cursor} (h : c.Sound) (hread : c.Readable) (y x : Int) :
    Lands False Safe (c.fresh? y x) := by
  cases c with
  | solid p => trivial
  | aligned c =>
    obtain ⟨hcolumns, hrows, hwidth, hheight⟩ := h
    exact ⟨hcolumns.start x, hrows.start y, hcolumns.inside_start x, hrows.inside_start y, hwidth,
      hheight, hread⟩
  | bilinear c =>
    obtain ⟨hcolumns, hrows, hwidth, hheight⟩ := h
    refine start?_bilinear_safe (c := c.startRow y) ?_
    exact ⟨hcolumns.start x, hrows.start y, hcolumns.inside_start x, hrows.inside_start y, hwidth,
      hheight, hread⟩
  | mapped c => exact ⟨h.2.2.1, h.2.2.2, hread⟩
  | linear c => exact hread
  | radial c => exact h.elim
  | conic c => exact h.elim

/-- A cursor with all of its pixels reads one wherever it is started. -/
theorem Sound.isSome_pixelAt? {c : Cursor} (h : c.Sound) (hread : c.Readable) (y x : Int) :
    (c.pixelAt? y x).isSome := by
  obtain ⟨c', hc, hsafe⟩ := (h.safe_fresh? hread y x).exists_eq_some
  rw [pixelAt?, hc, Option.bind_some, Option.isSome_map]
  exact (kept_safe.next? c' hsafe).isSome id

end Cursor

end Scanline
