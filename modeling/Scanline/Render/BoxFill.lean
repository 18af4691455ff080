import Scanline.Fill.AlignedBox
import Scanline.Fill.FractionalBox
import Scanline.Render.Stroke

/-
  Drawing boxes, row by row from left to right.
-/

namespace Scanline

namespace AlignedBox

/-- Draws `n` rows from row `y` on. -/
def drawRows? (b : AlignedBox) (s : Stroke) (y : Int) : Nat → Option Stroke
  | 0 => some s
  | n + 1 => do
    let s ← s.start? b.bounds.x0
    let s ← s.span? y b.bounds.x0.toNat b.bounds.x1.toNat b.alpha
    b.drawRows? s.nextRow (y + 1) n

/-- Draws the box. -/
def draw? (b : AlignedBox) (s : Stroke) : Option Stroke :=
  b.drawRows? (s.startRow b.bounds.y0) b.bounds.y0 (b.bounds.y1 - b.bounds.y0).toNat

end AlignedBox

namespace FractionalBox

/-- Draws row `y` of a tier in columns `x0` to `x1`. -/
def drawRow? (t : CoverageTier) (x0 x1 : Nat) (s : Stroke) (y : Int) : Option Stroke := do
  let s ← s.start? x0
  let s ← s.dab? y x0 t.left
  let s ← if 2 < x1 - x0 then s.span? y (x0 + 1) (x1 - 1) t.inner else some s
  let s ← if 1 < x1 - x0 then s.dab? y (x1 - 1) t.right else some s
  some s.nextRow

/-- Draws `n` rows of a tier from row `y` on. -/
def drawRows? (t : CoverageTier) (x0 x1 : Nat) (s : Stroke) (y : Int) : Nat → Option Stroke
  | 0 => some s
  | n + 1 => do
    let s ← drawRow? t x0 x1 s y
    drawRows? t x0 x1 s (y + 1) n

/-- Draws tiers from row `y` to row `stop` at most. -/
def drawTiers? (x0 x1 : Nat) (stop : Int) (s : Stroke) (y : Int) :
    List CoverageTier → Option Stroke
  | [] => some s
  | t :: rest => do
    let n := min t.rows (stop - y).toNat
    let s ← drawRows? t x0 x1 s y n
    drawTiers? x0 x1 stop s (y + n) rest

/-- The column of an edge as an index: an edge left of the first column is beyond every row. -/
def edgeIndex (x : Int) : Nat := (x % 0x10000000000000000).toNat

/-- Draws the box. Its right edge must not lie left of the left one. -/
def draw? (b : FractionalBox) (s : Stroke) : Option Stroke :=
  let x0 := edgeIndex b.bounds.x0
  let x1 := edgeIndex b.bounds.x1
  if x1 < x0 then none
  else drawTiers? x0 x1 b.bounds.y1 (s.startRow b.bounds.y0) b.bounds.y0 b.tiers

end FractionalBox

end Scanline
