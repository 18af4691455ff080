import Scanline.Fetch.Basic
import Scanline.Gradient.Cursor
import Scanline.Pattern.Cursor

/-
  Cursors over any fetch. A fill puts the cursor on its first row, starts every span at a column,
  moves on over columns it does not need, reads pixels from left to right and takes the cursor to
  the next row. `none` stands for a read outside of the source.
-/

namespace Scanline

/-- A position in a fetch. -/
inductive Cursor where
  | solid (pixel : UInt32)
  | aligned (c : AlignedCursor)
  | bilinear (c : BilinearCursor)
  | mapped (c : MappedCursor)
  | linear (c : LinearCursor)
  | radial (c : RadialCursor)
  | conic (c : ConicCursor)

namespace Cursor

/-- A cursor of the given kind over a pattern that is not empty. -/
def ofPattern? (kind : FetchKind) (f : PatternFetch) : Option Cursor :=
  match f.mode, kind with
  | .placed p, .alignedBlit | .placed p, .alignedPad | .placed p, .alignedRepeat
  | .placed p, .alignedFold => some (aligned (.ofPlacement kind f.source p))
  | .placed p, .fractionalXPad | .placed p, .fractionalXFold | .placed p, .fractionalYPad
  | .placed p, .fractionalYFold | .placed p, .fractionalXYPad | .placed p, .fractionalXYFold =>
    some (bilinear (.ofPlacement kind f.source p))
  | .mapped s, .affineNearest | .mapped s, .affineNearestShort | .mapped s, .affineBilinear
  | .mapped s, .affineBilinearShort => some (mapped (.ofSampling kind f.source s))
  | _, _ => none

/-- A cursor of the given kind over a gradient. -/
def ofGradient? (kind : FetchKind) (f : GradientFetch) (origin : Int × Int) : Option Cursor :=
  let reader := TableReader.ofOrigin f.table (if kind.isDithered then some origin else none)
  match f.course, kind with
  | .linear c, .linearPad | .linear c, .linearFold | .linear c, .linearDitherPad
  | .linear c, .linearDitherFold =>
    some (linear { reader, course := c, folded := kind.isFolded })
  | .radial c, .radialPad | .radial c, .radialFold | .radial c, .radialDitherPad
  | .radial c, .radialDitherFold =>
    some (radial { reader, course := c, folded := kind.isFolded })
  | .conic c, .conic | .conic c, .conicDither => some (conic { reader, course := c })
  | _, _ => none

/-- A cursor of the given kind, if the fetch is of that kind. An empty pattern is transparent.
`origin` is where the destination lies in the render target. -/
def ofFetch? (kind : FetchKind) (fetch : Fetch) (origin : Int × Int) : Option Cursor :=
  match fetch with
  | .solid pixel => if kind.isSolid then some (solid pixel) else none
  | .pattern f =>
    if kind.isPattern then
      if f.source.isEmpty then some (solid 0) else ofPattern? kind f
    else none
  | .gradient f => if kind.isGradient then ofGradient? kind f origin else none

/-- The pixel of a cursor that has the same one everywhere. -/
def solid? : Cursor → Option UInt32
  | solid pixel => some pixel
  | _ => none

/-- Goes to row `y`. -/
def startRow (cursor : Cursor) (y : Int) : Cursor :=
  match cursor with
  | solid pixel => solid pixel
  | aligned c => aligned (c.startRow y)
  | bilinear c => bilinear (c.startRow y)
  | mapped c => mapped (c.startRow y)
  | linear c => linear (c.startRow y)
  | radial c => radial (c.startRow y)
  | conic c => conic (c.startRow y)

/-- Goes to the next row. -/
def nextRow : Cursor → Cursor
  | solid pixel => solid pixel
  | aligned c => aligned c.nextRow
  | bilinear c => bilinear c.nextRow
  | mapped c => mapped c.nextRow
  | linear c => linear c.nextRow
  | radial c => radial c.nextRow
  | conic c => conic c.nextRow

/-- Starts a span at column `x`. -/
def start? (cursor : Cursor) (x : Int) : Option Cursor :=
  match cursor with
  | solid pixel => some (solid pixel)
  | aligned c => some (aligned (c.start x))
  | bilinear c => (c.start? x).map bilinear
  | mapped c => some (mapped (c.start x))
  | linear c => some (linear (c.start x))
  | radial c => some (radial (c.start x))
  | conic c => some (conic (c.start x))

/-- Moves on by `n` columns to column `x`. -/
def skip? (cursor : Cursor) (x : Int) (n : Nat) : Option Cursor :=
  match cursor with
  | solid pixel => some (solid pixel)
  | aligned c => some (aligned (c.start x))
  | bilinear c => (c.start? x).map bilinear
  | mapped c => some (mapped (c.skip n))
  | linear c => some (linear (c.skip x n))
  | radial c => some (radial (c.skip x n))
  | conic c => some (conic (c.skip x n))

/-- The pixel at the current column, with the cursor one column further. -/
def next? : Cursor → Option (UInt32 × Cursor)
  | solid pixel => some (pixel, solid pixel)
  | aligned c => c.next?.map fun (p, c) => (p, aligned c)
  | bilinear c => c.next?.map fun (p, c) => (p, bilinear c)
  | mapped c => c.next?.map fun (p, c) => (p, mapped c)
  | linear c => c.next?.map fun (p, c) => (p, linear c)
  | radial c => c.next?.map fun (p, c) => (p, radial c)
  | conic c => c.next?.map fun (p, c) => (p, conic c)

end Cursor

end Scanline
