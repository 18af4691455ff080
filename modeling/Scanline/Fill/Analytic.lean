import Scanline.Error
import Scanline.Geometry.Box

/-
  Analytic fills. Every row has cells, which say by how much coverage changes at a pixel, and bits,
  one for each group of four cells that may hold a change. A fill uses up both.
-/

namespace Scanline

/-- How winding becomes coverage. -/
inductive FillRule where
  | nonZero
  | evenOdd
  deriving DecidableEq, Repr

namespace FillRule

def all : List FillRule := [nonZero, evenOdd]

def label : FillRule → String
  | nonZero => "NonZero"
  | evenOdd => "EvenOdd"

/-- The bits of accumulated coverage that count. -/
def mask : FillRule → UInt32
  | nonZero => 0xFFFFFFFF
  | evenOdd => 0x000001FF

/-- How far accumulated coverage is from its value without winding, in 256 steps to a whole
winding and not beyond. One step is 512 of the units that cells hold. -/
def winding (rule : FillRule) (cover : UInt32) : Nat :=
  let steps := wrap32 cover.toNat / 512
  let steps := match rule with
    | nonZero => steps
    | evenOdd => steps % 512
  min (steps - 256).natAbs 256

/-- The coverage of a pixel from the accumulated coverage. -/
def coverage (rule : FillRule) (alpha : Nat) (cover : UInt32) : Nat :=
  rule.winding cover * alpha / 256

end FillRule

/-- The accumulated coverage where no winding lies. -/
def coverBias : UInt32 := 0x20000

/-- The cells that one bit stands for. -/
def cellsPerBit : Nat := 4

/-- The cells that one word of bits stands for. -/
def cellsPerWord : Nat := 256

/-- Rows of coverage changes. -/
structure AnalyticFill where
  bounds : Box
  alpha : Nat
  rule : FillRule
  bits : Array UInt64
  /-- Words of bits from one row to the next. -/
  bitStride : Nat
  cells : Array UInt32
  /-- Cells from one row to the next. -/
  cellStride : Nat
  deriving DecidableEq, Repr

namespace AnalyticFill

/-- The column where the rows end. -/
def rightEnd (b : Box) : Nat := b.x1.toNat

/-- Whether the buffers hold the rows of the bounds. A row needs a cell more than it has columns,
since the cell after the last one is read as well. -/
def Fits (bounds : Box) (bits : Array UInt64) (bitStride : Nat) (cells : Array UInt32)
    (cellStride : Nat) : Prop :=
  bounds.y0 < bounds.y1 ∧ rightEnd bounds ≤ bitStride * cellsPerWord
    ∧ rightEnd bounds + 1 ≤ cellStride ∧ bitStride * bounds.height ≤ bits.size
    ∧ cellStride * (bounds.height - 1) + rightEnd bounds + 1 ≤ cells.size

instance (bounds : Box) (bits : Array UInt64) (bitStride : Nat) (cells : Array UInt32)
    (cellStride : Nat) : Decidable (Fits bounds bits bitStride cells cellStride) :=
  inferInstanceAs (Decidable (_ ∧ _))

/-- Whether the sizes that are compared for the buffers are ones that words hold. -/
def Counted (bounds : Box) (bitStride cellStride : Nat) : Prop :=
  bounds.y1 - bounds.y0 ≤ maxInt32 ∧ bitStride * cellsPerWord < 0x10000000000000000
    ∧ bitStride * bounds.height < 0x10000000000000000
    ∧ cellStride * (bounds.height - 1) + rightEnd bounds + 1 < 0x10000000000000000

/-- The buffers are too small where `p` does not hold. -/
def require (p : Prop) [Decidable p] : Except Halt Unit :=
  if p then .ok () else .error (.refused .analyticBuffers)

theorem require_eq_ok {p : Prop} [Decidable p] {u : Unit} : require p = .ok u ↔ p := by
  unfold require
  split <;> simp [*]

/-- An analytic fill, unless the buffers are too small. The sizes are worked out one after the
other, and none behind the first that is too small. -/
def ofBuffers (alpha : Nat) (bounds : Box) (rule : FillRule) (bits : Array UInt64)
    (bitStride : Nat) (cells : Array UInt32) (cellStride : Nat) : Except Halt AnalyticFill := do
  let _ ← orOutOfRange (word32? (bounds.y1 - bounds.y0))
  require (bounds.y0 < bounds.y1)
  let columns ← orOutOfRange (size64? (bitStride * cellsPerWord))
  require (rightEnd bounds ≤ columns)
  require (rightEnd bounds + 1 ≤ cellStride)
  let words ← orOutOfRange (size64? (bitStride * bounds.height))
  require (words ≤ bits.size)
  let count ← orOutOfRange (size64? (cellStride * (bounds.height - 1) + rightEnd bounds + 1))
  require (count ≤ cells.size)
  .ok ⟨bounds, min alpha 255, rule, bits, bitStride, cells, cellStride⟩

/-- The fill over the given buffers, if there is one. -/
def ofBuffers? (alpha : Nat) (bounds : Box) (rule : FillRule) (bits : Array UInt64)
    (bitStride : Nat) (cells : Array UInt32) (cellStride : Nat) : Option AnalyticFill :=
  (ofBuffers alpha bounds rule bits bitStride cells cellStride).toOption

/-- The fill with nothing left in its buffers. -/
def emptied (f : AnalyticFill) : AnalyticFill :=
  { f with bits := f.bits.map fun _ => 0, cells := f.cells.map fun _ => 0 }

end AnalyticFill

end Scanline
