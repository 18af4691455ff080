import Scanline.Numeric.Word

/-
  Boxes of whole pixels, `x0` to `x1` by `y0` to `y1`, the upper ends excluded.
-/

namespace Scanline

structure Box where
  x0 : Int
  y0 : Int
  x1 : Int
  y1 : Int
  deriving DecidableEq, Repr

namespace Box

/-- The number of columns; of a reversed box the 32-bit word of the difference. -/
def width (b : Box) : Nat := ((b.x1 - b.x0) % 0x100000000).toNat

/-- The number of rows; of a reversed box the 32-bit word of the difference. -/
def height (b : Box) : Nat := ((b.y1 - b.y0) % 0x100000000).toNat

def isEmpty (b : Box) : Bool := b.x1 ≤ b.x0 || b.y1 ≤ b.y0

/-- The part of the box within `w` columns and `h` rows from the origin. -/
def clampTo (b : Box) (w h : Nat) : Box :=
  let w : Int := min (w : Int) maxInt32
  let h : Int := min (h : Int) maxInt32
  ⟨clampInt 0 w b.x0, clampInt 0 h b.y0, clampInt 0 w b.x1, clampInt 0 h b.y1⟩

/-- The part of the box in the rows `lo` to `hi`. -/
def clipRows (b : Box) (lo hi : Int) : Box := { b with y0 := max b.y0 lo, y1 := min b.y1 hi }

/-- Whether a pixel belongs to the box. -/
def Contains (b : Box) (x y : Int) : Prop := b.x0 ≤ x ∧ x < b.x1 ∧ b.y0 ≤ y ∧ y < b.y1

instance (b : Box) (x y : Int) : Decidable (b.Contains x y) :=
  inferInstanceAs (Decidable (_ ∧ _))

theorem width_eq {b : Box} (h : b.x0 ≤ b.x1) (hw : b.x1 - b.x0 ≤ maxInt32) :
    (b.width : Int) = b.x1 - b.x0 := by
  unfold maxInt32 at hw
  unfold width
  omega

theorem height_eq {b : Box} (h : b.y0 ≤ b.y1) (hh : b.y1 - b.y0 ≤ maxInt32) :
    (b.height : Int) = b.y1 - b.y0 := by
  unfold maxInt32 at hh
  unfold height
  omega

end Box

end Scanline
