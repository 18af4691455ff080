import Scanline.Pattern.Fetch
import Scanline.Pattern.Walk

/-
  Cursors over patterns. A cursor gives the pixels of one row from left to right; it is put on a
  row, started at a column, moved on over columns that are not needed, and taken to the next row.
  A pixel that the source does not have ends the reading.
-/

namespace Scanline

/-- A cursor over a pattern placed at whole pixels. -/
structure AlignedCursor where
  source : PatternSource
  columns : ColumnWalk
  rows : RowWalk

namespace AlignedCursor

/-- A cursor of the given kind. A copied pattern states where it lies, every other one what to add
to a destination coordinate. -/
def ofPlacement (kind : FetchKind) (source : PatternSource) (p : Placement) : AlignedCursor :=
  match kind with
  | .alignedBlit =>
    ⟨source, .ofSource source .pad (-p.tx) p.rx, .ofSource source (-p.ty) 0 .pad⟩
  | .alignedRepeat =>
    ⟨source, .ofSource source .tile p.tx p.rx, .ofSource source p.ty p.ry p.extendY⟩
  | .alignedFold =>
    ⟨source, .ofSource source .fold p.tx p.rx, .ofSource source p.ty p.ry p.extendY⟩
  | _ => ⟨source, .ofSource source .pad p.tx p.rx, .ofSource source p.ty p.ry p.extendY⟩

def startRow (c : AlignedCursor) (y : Int) : AlignedCursor := { c with rows := c.rows.start y }

def nextRow (c : AlignedCursor) : AlignedCursor := { c with rows := c.rows.next }

def start (c : AlignedCursor) (x : Int) : AlignedCursor :=
  { c with columns := c.columns.start x }

def next? (c : AlignedCursor) : Option (UInt32 × AlignedCursor) := do
  let p ← c.source.pixel? c.columns.index c.rows.index
  some (p, { c with columns := c.columns.next })

end AlignedCursor

/-- A cursor over a pattern placed between pixels. Every pixel mixes two columns of two rows, and
the left column is carried over from the pixel before. -/
structure BilinearCursor where
  source : PatternSource
  columns : ColumnWalk
  rows : RowWalk
  weights : BilinearWeights
  /-- The share of the left column. -/
  left : Channels

namespace BilinearCursor

def ofPlacement (kind : FetchKind) (source : PatternSource) (p : Placement) : BilinearCursor where
  source := source
  columns :=
    .ofSource source
      (match kind with
        | .fractionalXFold | .fractionalYFold | .fractionalXYFold => .fold
        | _ => .pad)
      p.tx p.rx
  rows := .ofSource source p.ty p.ry p.extendY
  weights := p.weights
  left := .splat 0

/-- Column `x` of the current row and the row below it, weighted. -/
def weigh? (c : BilinearCursor) (x above below : Nat) : Option Channels := do
  let p ← c.source.pixel? x c.rows.index
  let q ← c.source.pixel? x c.rows.next.index
  some ((unpack p).zipWith (fun u v => u * above + v * below) (unpack q))

def startRow (c : BilinearCursor) (y : Int) : BilinearCursor := { c with rows := c.rows.start y }

def nextRow (c : BilinearCursor) : BilinearCursor := { c with rows := c.rows.next }

def start? (c : BilinearCursor) (x : Int) : Option BilinearCursor := do
  let columns := c.columns.start x
  let left ← c.weigh? columns.index c.weights.a c.weights.c
  some { c with columns, left }

def next? (c : BilinearCursor) : Option (UInt32 × BilinearCursor) := do
  let columns := c.columns.next
  let right ← c.weigh? columns.index c.weights.b c.weights.d
  let left ← c.weigh? columns.index c.weights.a c.weights.c
  some ((right.zipWith (fun u v => (u + v) / 256) c.left).pack, { c with columns, left })

end BilinearCursor

namespace SampleAxis

/-- The cell of a position. -/
def cell (v : Int) : Int := v / 0x100000000

/-- The position with another cell. -/
def withCell (v x : Int) : Int := x * 0x100000000 + v % 0x100000000

/-- The top eight bits of the part of a position below one cell. -/
def fraction (v : Int) : Nat := (v % 0x100000000 / 0x1000000).toNat

/-- The position with its cell brought back into the period. -/
def normalize (a : SampleAxis) (v : Int) : Int :=
  let x := Int.tmod (cell v) a.modulus
  let x := if x < 0 then x + a.period else x
  withCell v (if a.last < x then x - a.period else x)

/-- The position one column further. -/
def advance (a : SampleAxis) (v : Int) : Int :=
  let v := wrap64 (v + a.step)
  if a.last < cell v then withCell v (wrap32 (cell v - a.period)) else v

/-- The pattern coordinate `offset` cells after a position. -/
def index (a : SampleAxis) (n : Nat) (v offset : Int) : Nat :=
  let x := max (wrap32 (cell v + offset)) a.least
  min (foldSign (if a.greatest < x then a.corner else x)).toNat (n - 1)

end SampleAxis

/-- A cursor over a mapped pattern. -/
structure MappedCursor where
  source : PatternSource
  sampling : Sampling
  bilinear : Bool
  /-- The position at column 0 of the current row. -/
  rowX : Int := 0
  rowY : Int := 0
  /-- The current position. -/
  posX : Int := 0
  posY : Int := 0

namespace MappedCursor
open SampleAxis

def ofSampling (kind : FetchKind) (source : PatternSource) (s : Sampling) : MappedCursor where
  source := source
  sampling := s
  bilinear :=
    match kind with
    | .affineBilinear | .affineBilinearShort => true
    | _ => false

def startRow (c : MappedCursor) (y : Int) : MappedCursor :=
  { c with
    rowX := wrap64 (c.sampling.x.start + c.sampling.x.rowStep * y)
    rowY := wrap64 (c.sampling.y.start + c.sampling.y.rowStep * y) }

def nextRow (c : MappedCursor) : MappedCursor :=
  { c with
    rowX := wrap64 (c.rowX + c.sampling.x.rowStep)
    rowY := wrap64 (c.rowY + c.sampling.y.rowStep) }

def start (c : MappedCursor) (x : Int) : MappedCursor :=
  { c with
    posX := c.sampling.x.normalize (wrap64 (c.rowX + c.sampling.x.step * x))
    posY := c.sampling.y.normalize (wrap64 (c.rowY + c.sampling.y.step * x)) }

/-- Moves on by `n` columns. -/
def skip (c : MappedCursor) (n : Nat) : MappedCursor :=
  { c with
    posX := c.sampling.x.normalize (wrap64 (c.posX + c.sampling.x.step * n))
    posY := c.sampling.y.normalize (wrap64 (c.posY + c.sampling.y.step * n)) }

def column (c : MappedCursor) (offset : Int) : Nat :=
  c.sampling.x.index c.source.width c.posX offset

def row (c : MappedCursor) (offset : Int) : Nat :=
  c.sampling.y.index c.source.height c.posY offset

/-- The mix of four pixels by the parts of the position below one cell: first down, then
across. -/
def mix (wx wy : Nat) (p00 p01 p10 p11 : Channels) : Channels :=
  let down (p q : Channels) : Channels :=
    p.zipWith (fun u v => (u * (256 - wy) + v * wy) / 256) q
  (down p00 p01).zipWith (fun u v => (u * (256 - wx) + v * wx) / 256) (down p10 p11)

/-- The pixel at the current position. -/
def pixel? (c : MappedCursor) : Option UInt32 :=
  if c.bilinear then do
    let p00 ← c.source.pixel? (c.column 0) (c.row 0)
    let p01 ← c.source.pixel? (c.column 0) (c.row 1)
    let p10 ← c.source.pixel? (c.column 1) (c.row 0)
    let p11 ← c.source.pixel? (c.column 1) (c.row 1)
    some (mix (fraction c.posX) (fraction c.posY) (unpack p00) (unpack p01) (unpack p10)
      (unpack p11)).pack
  else c.source.pixel? (c.column 0) (c.row 0)

def next? (c : MappedCursor) : Option (UInt32 × MappedCursor) := do
  let p ← c.pixel?
  some (p, { c with
    posX := c.sampling.x.advance c.posX
    posY := c.sampling.y.advance c.posY })

end MappedCursor

end Scanline
