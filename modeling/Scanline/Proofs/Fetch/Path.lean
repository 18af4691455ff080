import Scanline.Fetch.Cursor

/-
  The ways of a cursor. A fill moves a cursor in steps of five kinds; `Cursor.Reaches` relates a
  fresh cursor to the ones it becomes, with the row and the column that it is at. A cursor yields
  an image (`Cursor.Yields`) when every such way ends with the same pixels.
-/

namespace Scanline

namespace Cursor

/-- The rows and the places, in a row `y` and a column `x`, where a cursor is used. -/
structure Region where
  Row : Int → Prop
  Place : Int → Int → Prop
  row_of_place : ∀ {y x}, Place y x → Row y

/-- The cursors that a fresh cursor `c₀` becomes, each in a row and, once a span has been started,
at a column. The fresh cursor is put on a row once. -/
inductive Reaches (R : Region) (c₀ : Cursor) : Cursor → Int → Option Int → Prop
  | startRow {y : Int} (hy : R.Row y) : Reaches R c₀ (c₀.startRow y) y none
  | nextRow {c : Cursor} {y : Int} {at? : Option Int} (h : Reaches R c₀ c y at?)
      (hy : R.Row (y + 1)) : Reaches R c₀ c.nextRow (y + 1) none
  | start {c c' : Cursor} {y x : Int} {at? : Option Int} (h : Reaches R c₀ c y at?)
      (hx : R.Place y x) (hc : c.start? x = some c') : Reaches R c₀ c' y (some x)
  | skip {c c' : Cursor} {y x : Int} {n : Nat} (h : Reaches R c₀ c y (some x))
      (hx : R.Place y x) (hn : R.Place y (x + n)) (hc : c.skip? (x + n) n = some c') :
      Reaches R c₀ c' y (some (x + n))
  | next {c c' : Cursor} {y x : Int} {p : UInt32} (h : Reaches R c₀ c y (some x))
      (hx : R.Place y x) (hc : c.next? = some (p, c')) : Reaches R c₀ c' y (some (x + 1))

/-- Wherever the cursor goes in the region it can go on, and reads the pixels of one image. -/
structure Yields (R : Region) (c₀ : Cursor) (image : Int → Int → UInt32) : Prop where
  start : ∀ {c y at? x}, Reaches R c₀ c y at? → R.Place y x → ∃ c', c.start? x = some c'
  skip : ∀ {c y x} {n : Nat}, Reaches R c₀ c y (some x) → R.Place y x → R.Place y (x + n) →
    ∃ c', c.skip? (x + n) n = some c'
  next : ∀ {c y x}, Reaches R c₀ c y (some x) → R.Place y x →
    ∃ c', c.next? = some (image y x, c')

theorem Reaches.row {R : Region} {c₀ c : Cursor} {y : Int} {at? : Option Int}
    (h : Reaches R c₀ c y at?) : R.Row y := by
  induction h with
  | startRow hy => exact hy
  | nextRow _ hy _ => exact hy
  | start _ hx _ _ => exact R.row_of_place hx
  | skip _ hx _ _ _ => exact R.row_of_place hx
  | next _ hx _ _ => exact R.row_of_place hx

/-- A cursor over a single color is the same everywhere. -/
theorem Reaches.solid_eq {R : Region} {p : UInt32} {c : Cursor} {y : Int} {at? : Option Int}
    (h : Reaches R (solid p) c y at?) : c = solid p := by
  induction h with
  | startRow _ => rfl
  | nextRow _ _ ih => rw [ih]; rfl
  | start _ _ hc ih => subst ih; exact (Option.some.inj hc).symm
  | skip _ _ _ hc ih => subst ih; exact (Option.some.inj hc).symm
  | next _ _ hc ih => subst ih; exact (Prod.mk.inj (Option.some.inj hc)).2.symm

theorem yields_solid (R : Region) (p : UInt32) : Yields R (solid p) fun _ _ => p where
  start h _ := ⟨solid p, by rw [h.solid_eq]; rfl⟩
  skip h _ _ := ⟨solid p, by rw [h.solid_eq]; rfl⟩
  next h _ := ⟨solid p, by rw [h.solid_eq]; rfl⟩

end Cursor

end Scanline
