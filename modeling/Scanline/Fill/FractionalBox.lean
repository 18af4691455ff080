import Scanline.Geometry.Affine
import Scanline.Geometry.Box
import Scanline.Numeric.FloatValue

/-
  Boxes with edges between pixels. The rows of such a box fall into at most three tiers, a
  partial row at the top, whole rows, and a partial row at the bottom; the columns of every row
  into a left one, inner ones and a right one. The coverage of a pixel is its covered area times
  the alpha, cut to an integer.
-/

namespace Scanline

/-- Rows of equal coverage. -/
structure CoverageTier where
  left : Nat
  inner : Nat
  right : Nat
  rows : Nat
  deriving DecidableEq, Repr

namespace CoverageTier

/-- One row with the same coverage everywhere. -/
def uniform (m : Nat) : CoverageTier := ⟨m, m, m, 1⟩

/-- The coverage of column `i` in a row of `width` pixels. -/
def coverage (t : CoverageTier) (i width : Nat) : Nat :=
  if i = 0 then t.left else if i + 1 = width then t.right else t.inner

/-- The row after the tier when it starts at row `row`. Its rows count as a 32-bit word. -/
def stopAfter (t : CoverageTier) (row : Int) : Int := addSat32 row (wrap32 t.rows)

end CoverageTier

/-- A box with edges between pixels. -/
structure FractionalBox where
  /-- The pixels that the box touches. -/
  bounds : Box
  /-- Its rows, from top to bottom. -/
  tiers : List CoverageTier
  deriving DecidableEq, Repr

namespace FractionalBox

/-- A tier of a box of several columns: `fl` and `fr` are the parts of the left and right columns
that are covered, `m` is the covered part of the row times the alpha. -/
def wideTier (fl fr m : Nat) (shift : Nat) : CoverageTier :=
  ⟨fl * m / (256 * shift), m / shift, fr * m / (256 * shift), 1⟩

/-- The tiers of a box of `h` rows. A top row that covers nothing is left out. -/
def stack (top middle bottom : CoverageTier) (h : Nat) : List CoverageTier :=
  (if top.inner ≠ 0 then [top] else [])
    ++ (if 2 < h then [{ middle with rows := h - 2 }] else [])
    ++ [bottom]

/-- The bounds without a top row and a bottom row that cover nothing. -/
def shrink (b : Box) (top bottom : CoverageTier) : Box :=
  { b with
    y0 := if top.inner = 0 then b.y0 + 1 else b.y0
    y1 := if bottom.inner = 0 then b.y1 - 1 else b.y1 }

/-- The box `x0` to `x1` by `y0` to `y1` in steps of 1/256 pixel, unless it covers nothing. -/
def ofFixed? (alpha : Nat) (x0 y0 x1 y1 : Int) : Option FractionalBox :=
  if x1 ≤ x0 ∨ y1 ≤ y0 ∨ x0 < 0 ∨ y0 < 0 then none
  else
    let alpha := min alpha 255
    let left := x0.toNat / 256
    let upper := y0.toNat / 256
    let right := (x1.toNat + 255) / 256
    let lower := (y1.toNat + 255) / 256
    let bounds : Box := ⟨left, upper, right, lower⟩
    let fx1 := (x1.toNat - 1) % 256 + 1
    let fy1 := (y1.toNat - 1) % 256 + 1
    let w := right - left
    let h := lower - upper
    let fy0 := (if h = 1 then fy1 else 256) - y0.toNat % 256
    if w = 1 then
      let fx := fx1 - x0.toNat % 256
      let top := CoverageTier.uniform (fx * (fy0 * alpha) / 65536)
      let middle := CoverageTier.uniform (fx * alpha / 256)
      let bottom := CoverageTier.uniform (fx * (fy1 * alpha) / 65536)
      if h = 1 then
        if top.inner = 0 then none else some ⟨bounds, [top]⟩
      else
        let bounds := shrink bounds top bottom
        if bounds.y1 ≤ bounds.y0 ∨ middle.inner = 0 then none
        else some ⟨bounds, stack top middle bottom h⟩
    else
      let fx0 := 256 - x0.toNat % 256
      let top := wideTier fx0 fx1 (fy0 * alpha) 256
      let middle := wideTier fx0 fx1 alpha 1
      let bottom := wideTier fx0 fx1 (fy1 * alpha) 256
      let bounds := shrink bounds top bottom
      if bounds.y1 ≤ bounds.y0 then none
      else if h = 1 then some ⟨bounds, [top]⟩
      else some ⟨bounds, stack top middle bottom h⟩

/-- The box of a rectangle in pixels, cut toward zero to steps of 1/256. -/
def ofRect? (alpha : Nat) (r : Rect) : Option FractionalBox :=
  let fixed (v : Float) : Int := truncateToInt32 (v * 256)
  ofFixed? alpha (fixed r.x0) (fixed r.y0) (fixed r.x1) (fixed r.y1)

/-- The coverage of row `y` of tiers that start at row `row`. -/
def tierCoverage (y : Int) (i width : Nat) : Int → List CoverageTier → Nat
  | _, [] => 0
  | row, t :: rest =>
    let stop := t.stopAfter row
    if y < stop then t.coverage i width else tierCoverage y i width stop rest

/-- The coverage of a pixel. -/
def coverageAt (b : FractionalBox) (x y : Int) : Nat :=
  if b.bounds.Contains x y then
    tierCoverage y (x - b.bounds.x0).toNat b.bounds.width b.bounds.y0 b.tiers
  else 0

/-- The rows of the tiers, which start at row `row`, that lie in rows `lo` to `hi`. -/
def clipTiers (lo hi : Int) : Int → List CoverageTier → List CoverageTier
  | _, [] => []
  | row, t :: rest =>
    let start := max row lo
    let stop := min (t.stopAfter row) hi
    let tail := clipTiers lo hi (t.stopAfter row) rest
    if start < stop then { t with rows := (stop - start).toNat } :: tail else tail

/-- The part of the box in rows `lo` to `hi`. -/
def clipRows? (b : FractionalBox) (lo hi : Int) : Option FractionalBox :=
  let bounds := b.bounds.clipRows lo hi
  if bounds.y1 ≤ bounds.y0 then none
  else some ⟨bounds, clipTiers bounds.y0 bounds.y1 b.bounds.y0 b.tiers⟩

end FractionalBox

end Scanline
