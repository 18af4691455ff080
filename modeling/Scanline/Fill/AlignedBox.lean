import Scanline.Geometry.Box

/-
  Boxes of whole pixels with one coverage.
-/

namespace Scanline

structure AlignedBox where
  bounds : Box
  /-- The coverage of every pixel. -/
  alpha : Nat
  deriving DecidableEq, Repr

namespace AlignedBox

/-- A box, unless it covers nothing. -/
def ofBounds? (alpha : Nat) (bounds : Box) : Option AlignedBox :=
  if alpha = 0 ∨ bounds.isEmpty then none else some ⟨bounds, min alpha 255⟩

/-- The part of the box in rows `lo` to `hi`. -/
def clipRows? (b : AlignedBox) (lo hi : Int) : Option AlignedBox :=
  ofBounds? b.alpha (b.bounds.clipRows lo hi)

end AlignedBox

end Scanline
