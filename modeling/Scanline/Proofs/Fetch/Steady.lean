import Scanline.Proofs.Fetch.Path

/-
  Cursors that do not remember their way. Only the column of a cursor is lost when a span is
  started (`Cursor.rowPart` is what stays), so a cursor is where a fresh one would be as soon as
  its rows and its columns follow each other as fresh ones do (`Cursor.Steady`).
  `Reaches.fresh`: every reached cursor is then a fresh one. `Steady.yields`: such a cursor yields
  an image.
-/

namespace Scanline

namespace Cursor

/-- The cursor that is put on row `y` and started at column `x`. -/
def fresh? (c₀ : Cursor) (y x : Int) : Option Cursor := (c₀.startRow y).start? x

/-- The pixel that is read first in row `y` from column `x` on. -/
def pixelAt? (c₀ : Cursor) (y x : Int) : Option UInt32 :=
  (c₀.fresh? y x).bind fun c => c.next?.map Prod.fst

/-- A cursor without its column. -/
def rowPart : Cursor → Cursor
  | solid p => solid p
  | aligned c => aligned { c with columns := { c.columns with x := 0 } }
  | bilinear c => bilinear { c with columns := { c.columns with x := 0 }, left := .splat 0 }
  | mapped c => mapped { c with posX := 0, posY := 0 }
  | linear c => linear { c with pos := 0, reader := c.reader.start 0 }
  | radial c => radial { c with x := 0, b := 0, d := 0, dd := 0, reader := c.reader.start 0 }
  | conic c =>
    conic { c with x := 0, tx := 0, height := 0, beyond := 0, reader := c.reader.start 0 }

theorem reader_start_start (r : TableReader) (x x' : Int) : (r.start x).start x' = r.start x' := by
  unfold TableReader.start
  cases r.dither <;> rfl

theorem reader_nextRow_start (r : TableReader) (x : Int) :
    (r.start x).nextRow = r.nextRow.start x := by
  unfold TableReader.start TableReader.nextRow
  cases r.dither <;> rfl

theorem reader_start_of_next? {r r' : TableReader} {i : Nat} {p : UInt32}
    (h : r.next? i = some (p, r')) (x : Int) : r'.start x = r.start x := by
  obtain ⟨table, dither⟩ := r
  cases dither with
  | none =>
    obtain ⟨_, _, heq⟩ := Option.map_eq_some_iff.mp h
    rw [← (Prod.mk.inj heq).2]
  | some d =>
    obtain ⟨_, _, heq⟩ := Option.map_eq_some_iff.mp h
    rw [← (Prod.mk.inj heq).2]
    rfl

/-- A start depends on the row only. -/
theorem start?_rowPart (c : Cursor) (x : Int) : c.rowPart.start? x = c.start? x := by
  cases c with
  | solid p => rfl
  | aligned c => rfl
  | bilinear c => rfl
  | mapped c => rfl
  | linear c => simp only [rowPart, start?, LinearCursor.start, reader_start_start]
  | radial c => simp only [rowPart, start?, RadialCursor.start, reader_start_start]
  | conic c => simp only [rowPart, start?, ConicCursor.start, reader_start_start]

theorem nextRow_rowPart (c : Cursor) : c.rowPart.nextRow = c.nextRow.rowPart := by
  cases c with
  | solid p => rfl
  | aligned c => rfl
  | bilinear c => rfl
  | mapped c => rfl
  | linear c => simp only [rowPart, nextRow, LinearCursor.nextRow, reader_nextRow_start]
  | radial c => simp only [rowPart, nextRow, RadialCursor.nextRow, reader_nextRow_start]
  | conic c => simp only [rowPart, nextRow, ConicCursor.nextRow, reader_nextRow_start]

theorem bilinear_start? {c c' : BilinearCursor} {x : Int} (h : c.start? x = some c') :
    ∃ left, c' = { c with columns := c.columns.start x, left := left } := by
  obtain ⟨left, _, hc⟩ := Option.bind_eq_some_iff.mp h
  exact ⟨left, (Option.some.inj hc).symm⟩

/-- A start keeps the row. -/
theorem rowPart_of_start? {c c' : Cursor} {x : Int} (h : c.start? x = some c') :
    c'.rowPart = c.rowPart := by
  cases c with
  | solid p => rw [← Option.some.inj h]
  | aligned c => rw [← Option.some.inj h]; rfl
  | bilinear c =>
    obtain ⟨d, hd, rfl⟩ := Option.map_eq_some_iff.mp h
    obtain ⟨left, rfl⟩ := bilinear_start? hd
    rfl
  | mapped c => rw [← Option.some.inj h]; rfl
  | linear c =>
    rw [← Option.some.inj h]
    simp only [rowPart, LinearCursor.start, reader_start_start]
  | radial c =>
    rw [← Option.some.inj h]
    simp only [rowPart, RadialCursor.start, reader_start_start]
  | conic c =>
    rw [← Option.some.inj h]
    simp only [rowPart, ConicCursor.start, reader_start_start]

/-- Columns that are skipped stay in the row. -/
theorem rowPart_of_skip? {c c' : Cursor} {x : Int} {n : Nat} (h : c.skip? x n = some c') :
    c'.rowPart = c.rowPart := by
  cases c with
  | solid p => rw [← Option.some.inj h]
  | aligned c => rw [← Option.some.inj h]; rfl
  | bilinear c => exact rowPart_of_start? (c := bilinear c) h
  | mapped c => rw [← Option.some.inj h]; rfl
  | linear c =>
    rw [← Option.some.inj h]
    simp only [rowPart, LinearCursor.skip, reader_start_start]
  | radial c =>
    rw [← Option.some.inj h]
    simp only [rowPart, RadialCursor.skip, reader_start_start]
  | conic c =>
    rw [← Option.some.inj h]
    simp only [rowPart, ConicCursor.skip, reader_start_start]

/-- A pixel that is read leaves the cursor in its row. -/
theorem rowPart_of_next? {c c' : Cursor} {p : UInt32} (h : c.next? = some (p, c')) :
    c'.rowPart = c.rowPart := by
  cases c with
  | solid p => rw [← (Prod.mk.inj (Option.some.inj h)).2]
  | aligned c =>
    obtain ⟨⟨_, d⟩, hd, heq⟩ := Option.map_eq_some_iff.mp h
    obtain ⟨_, _, hd⟩ := Option.bind_eq_some_iff.mp hd
    rw [← (Prod.mk.inj heq).2, ← (Prod.mk.inj (Option.some.inj hd)).2]
    rfl
  | bilinear c =>
    obtain ⟨⟨_, d⟩, hd, heq⟩ := Option.map_eq_some_iff.mp h
    obtain ⟨_, _, hd⟩ := Option.bind_eq_some_iff.mp hd
    obtain ⟨_, _, hd⟩ := Option.bind_eq_some_iff.mp hd
    rw [← (Prod.mk.inj heq).2, ← (Prod.mk.inj (Option.some.inj hd)).2]
    rfl
  | mapped c =>
    obtain ⟨⟨_, d⟩, hd, heq⟩ := Option.map_eq_some_iff.mp h
    obtain ⟨_, _, hd⟩ := Option.bind_eq_some_iff.mp hd
    rw [← (Prod.mk.inj heq).2, ← (Prod.mk.inj (Option.some.inj hd)).2]
    rfl
  | linear c =>
    obtain ⟨⟨_, d⟩, hd, heq⟩ := Option.map_eq_some_iff.mp h
    obtain ⟨⟨_, r⟩, hr, hd⟩ := Option.bind_eq_some_iff.mp hd
    rw [← (Prod.mk.inj heq).2, ← (Prod.mk.inj (Option.some.inj hd)).2]
    simp only [rowPart, reader_start_of_next? hr]
  | radial c =>
    obtain ⟨⟨_, d⟩, hd, heq⟩ := Option.map_eq_some_iff.mp h
    obtain ⟨⟨_, r⟩, hr, hd⟩ := Option.bind_eq_some_iff.mp hd
    rw [← (Prod.mk.inj heq).2, ← (Prod.mk.inj (Option.some.inj hd)).2]
    simp only [rowPart, reader_start_of_next? hr]
  | conic c =>
    obtain ⟨⟨_, d⟩, hd, heq⟩ := Option.map_eq_some_iff.mp h
    obtain ⟨⟨_, r⟩, hr, hd⟩ := Option.bind_eq_some_iff.mp hd
    rw [← (Prod.mk.inj heq).2, ← (Prod.mk.inj (Option.some.inj hd)).2]
    simp only [rowPart, reader_start_of_next? hr]

/-- A cursor whose rows and columns, taken one by one or skipped, are those of a fresh start. -/
structure Steady (R : Region) (c₀ : Cursor) : Prop where
  nextRow : ∀ {y}, R.Row y → R.Row (y + 1) → (c₀.startRow y).nextRow = c₀.startRow (y + 1)
  skip : ∀ {c y x} {n : Nat}, c₀.fresh? y x = some c → R.Place y x → R.Place y (x + n) →
    c.skip? (x + n) n = c₀.fresh? y (x + n)
  next : ∀ {c c' y x p}, c₀.fresh? y x = some c → R.Place y x → R.Place y (x + 1) →
    c.next? = some (p, c') → c₀.fresh? y (x + 1) = some c'

variable {R : Region} {c₀ : Cursor}

theorem fresh?_of_rowPart {c : Cursor} {y : Int} (h : c.rowPart = (c₀.startRow y).rowPart)
    (x : Int) : c.start? x = c₀.fresh? y x := by
  rw [← start?_rowPart, h, start?_rowPart]
  rfl

/-- A cursor that was led to a row is on it as a fresh one, and at a column it is fresh. -/
theorem Reaches.fresh (hs : Steady R c₀) {c : Cursor} {y : Int} {at? : Option Int}
    (h : Reaches R c₀ c y at?) : c.rowPart = (c₀.startRow y).rowPart ∧
      ∀ x, at? = some x → R.Place y x → c₀.fresh? y x = some c := by
  induction h with
  | startRow hy => exact ⟨rfl, nofun⟩
  | nextRow h hy ih =>
    refine ⟨?_, nofun⟩
    rw [← nextRow_rowPart, ih.1, nextRow_rowPart, hs.nextRow h.row hy]
  | start h hx hc ih =>
    refine ⟨(rowPart_of_start? hc).trans ih.1, ?_⟩
    rintro _ ⟨⟩ -
    rw [← fresh?_of_rowPart ih.1, hc]
  | skip h hx hn hc ih =>
    refine ⟨(rowPart_of_skip? hc).trans ih.1, ?_⟩
    rintro _ ⟨⟩ -
    rw [← hs.skip (ih.2 _ rfl hx) hx hn, hc]
  | next h hx hc ih =>
    refine ⟨(rowPart_of_next? hc).trans ih.1, ?_⟩
    rintro _ ⟨⟩ hx'
    exact hs.next (ih.2 _ rfl hx) hx hx' hc

/-- What a reached cursor reads is what a fresh one reads there. -/
theorem Reaches.next?_eq (hs : Steady R c₀) {c : Cursor} {y x : Int}
    (h : Reaches R c₀ c y (some x)) (hx : R.Place y x) :
    c.next?.map Prod.fst = c₀.pixelAt? y x := by
  rw [pixelAt?, (h.fresh hs).2 x rfl hx, Option.bind_some]

/-- Where a fresh cursor reads a pixel everywhere, every way leads to these pixels. -/
theorem Steady.yields (hs : Steady R c₀) {image : Int → Int → UInt32}
    (himage : ∀ y x, R.Place y x → c₀.pixelAt? y x = some (image y x)) : Yields R c₀ image where
  start h hx := by
    obtain ⟨c, hc, -⟩ := Option.bind_eq_some_iff.mp (himage _ _ hx)
    exact ⟨c, (fresh?_of_rowPart (h.fresh hs).1 _).trans hc⟩
  skip h hx hn := by
    obtain ⟨c, hc, -⟩ := Option.bind_eq_some_iff.mp (himage _ _ hn)
    exact ⟨c, (hs.skip ((h.fresh hs).2 _ rfl hx) hx hn).trans hc⟩
  next h hx := by
    have hpixel := (h.next?_eq hs hx).trans (himage _ _ hx)
    obtain ⟨⟨p, c'⟩, hnext, hp⟩ := Option.map_eq_some_iff.mp hpixel
    exact ⟨c', by rw [hnext, ← hp]⟩

end Cursor

end Scanline
