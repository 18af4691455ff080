import Scanline.Gradient.Dither
import Scanline.Gradient.Fetch

/-
  Cursors over gradients. Each of them turns a pixel into a table index; the lookup then reads the
  table, dithered or not. An index that the table does not have ends the reading.
-/

namespace Scanline

/-- Where dithering is in its matrix. -/
structure DitherPhase where
  originX : Int
  originY : Int
  x : Int := 0
  y : Int := 0
  deriving DecidableEq, Repr

/-- Reads a gradient table. -/
structure TableReader where
  table : GradientTable
  dither : Option DitherPhase

namespace TableReader

/-- A reader that dithers when an origin is given. -/
def ofOrigin (table : GradientTable) (origin : Option (Int × Int)) : TableReader :=
  ⟨table, origin.map fun o => { originX := o.1, originY := o.2 }⟩

def startRow (r : TableReader) (y : Int) : TableReader :=
  { r with dither := r.dither.map fun d => { d with y := d.originY + y } }

def start (r : TableReader) (x : Int) : TableReader :=
  { r with dither := r.dither.map fun d => { d with x := d.originX + x } }

def nextRow (r : TableReader) : TableReader :=
  { r with dither := r.dither.map fun d => { d with y := d.y + 1 } }

/-- The entry at `index`, with the reader one pixel further. -/
def next? (r : TableReader) (index : Nat) : Option (UInt32 × TableReader) :=
  match r.dither with
  | none => (r.table.colors[index]?).map fun p => (p, r)
  | some d =>
    (r.table.fineColors[index]?).map fun c =>
      (Dither.round c (Dither.valueAt d.x d.y), { r with dither := some { d with x := d.x + 1 } })

end TableReader

/-- Brings an index into a table: by the bits of its 32-bit word that the period and the mirror keep
when `folded`, to its ends otherwise. -/
def tableIndex (folded : Bool) (maxIndex mirror : Nat) (i : Int) : Nat :=
  if folded then
    let t := (i % 0x100000000).toNat &&& maxIndex
    min t (t ^^^ mirror)
  else (clampInt 0 maxIndex i).toNat

/-- A cursor over a linear gradient. -/
structure LinearCursor where
  reader : TableReader
  course : LinearCourse
  folded : Bool
  /-- The position at column 0 of the current row. -/
  row : Int := 0
  /-- The current position. -/
  pos : Int := 0

namespace LinearCursor

def startRow (c : LinearCursor) (y : Int) : LinearCursor :=
  { c with
    row := wrap64 (c.course.start + c.course.rowStep * y)
    reader := c.reader.startRow y }

def nextRow (c : LinearCursor) : LinearCursor :=
  { c with row := wrap64 (c.row + c.course.rowStep), reader := c.reader.nextRow }

def start (c : LinearCursor) (x : Int) : LinearCursor :=
  { c with pos := wrap64 (c.row + c.course.step * x), reader := c.reader.start x }

/-- Moves on by `n` columns to column `x`. -/
def skip (c : LinearCursor) (x : Int) (n : Nat) : LinearCursor :=
  { c with pos := wrap64 (c.pos + c.course.step * n), reader := c.reader.start x }

def next? (c : LinearCursor) : Option (UInt32 × LinearCursor) := do
  let i := tableIndex c.folded c.course.maxIndex c.course.mirror (c.pos / 0x100000000)
  let (p, reader) ← c.reader.next? i
  some (p, { c with pos := wrap64 (c.pos + c.course.step), reader })

end LinearCursor

/-- A single float as a 32-bit integer, toward zero. -/
def truncateSingle (x : Float32) : Int := (FloatValue.ofFloat32 x).truncateInto minInt32 maxInt32

/-- The 32-bit integer nearest to a single float, the even one of two. -/
def nearestOfSingle (x : Float32) : Int := (FloatValue.ofFloat32 x).nearestInto minInt32 maxInt32

/-- A cursor over a radial gradient. -/
structure RadialCursor where
  reader : TableReader
  course : RadialCourse
  folded : Bool
  y : Float := 0
  x : Float32 := 0
  b : Float32 := 0
  d : Float32 := 0
  dd : Float32 := 0

namespace RadialCursor

def startRow (c : RadialCursor) (y : Int) : RadialCursor :=
  { c with y := Float.ofInt y, reader := c.reader.startRow y }

def nextRow (c : RadialCursor) : RadialCursor :=
  { c with y := c.y + 1, reader := c.reader.nextRow }

def start (c : RadialCursor) (x : Int) : RadialCursor :=
  let r := c.course
  let px := r.yx * c.y + r.tx
  let py := r.yy * c.y + r.ty
  let b := c.y * r.bRow + r.bStart
  { c with
    x := Float32.ofInt x
    b := (b * r.inv2a).toFloat32
    d := ((r.amul4 * (px * px + py * py - r.sqFr) + b * b) * r.sqInv2a).toFloat32
    dd := ((c.y * r.ddRow + r.ddStart) * r.sqInv2a).toFloat32
    reader := c.reader.start x }

/-- Moves on by `n` columns to column `x`. -/
def skip (c : RadialCursor) (x : Int) (n : Nat) : RadialCursor :=
  { c with x := c.x + Float32.ofNat n, reader := c.reader.start x }

/-- The table position of the current pixel. -/
def position (c : RadialCursor) : Float32 :=
  let root := (c.x * c.x * c.course.ddStep + (c.x * c.dd + c.d)).abs.sqrt
  c.x * c.course.bStep + c.b + root

def next? (c : RadialCursor) : Option (UInt32 × RadialCursor) := do
  let i := tableIndex c.folded c.course.maxIndex c.course.mirror (truncateSingle c.position)
  let (p, reader) ← c.reader.next? i
  some (p, { c with x := c.x + 1, reader })

end RadialCursor

/-- A cursor over a conic gradient. -/
structure ConicCursor where
  reader : TableReader
  course : ConicCourse
  y : Float := 0
  x : Float32 := 0
  tx : Float32 := 0
  /-- How far the row is from the center. -/
  height : Float32 := 0
  /-- What is added to the angle on the other side of the center. -/
  beyond : Float32 := 0

namespace ConicCursor

def startRow (c : ConicCursor) (y : Int) : ConicCursor :=
  { c with y := Float.ofInt y, reader := c.reader.startRow y }

def nextRow (c : ConicCursor) : ConicCursor :=
  { c with y := c.y + 1, reader := c.reader.nextRow }

def start (c : ConicCursor) (x : Int) : ConicCursor :=
  let k := c.course
  let py := (k.ty + k.yy * c.y).toFloat32
  { c with
    tx := (k.tx + k.yx * c.y).toFloat32
    beyond := if py < 0 then k.turn else 0
    height := py.abs
    x := Float32.ofInt x
    reader := c.reader.start x }

/-- Moves on by `n` columns to column `x`. -/
def skip (c : ConicCursor) (x : Int) (n : Nat) : ConicCursor :=
  { c with x := c.x + Float32.ofNat n, reader := c.reader.start x }

/-- Whether the float has a minus sign; a position that is no number counts by `undefinedIsLeft`. -/
def isLeft (k : ConicCourse) (x : Float32) : Bool :=
  if x.isNaN then k.undefinedIsLeft else 0x80000000 ≤ x.toBits

/-- The table position of the current pixel: the arc tangent in the first octant, folded out to
the full turn. -/
def position (c : ConicCursor) : Float32 :=
  let k := c.course
  let x := c.x * k.xx + c.tx
  let ax := x.abs
  let lo := smaller ax c.height
  let hi := larger ax c.height
  let s := if ax == lo then k.quarter else 0
  let p := if 0 < hi then lo / hi else 0
  let p2 := p * p
  let v := ((p2 * k.q3 + k.q2) * p2 + k.q1) * p2 + k.q0
  let v := (v * p - s).abs
  let v := (v - (if isLeft k x then k.half else 0)).abs
  (v - c.beyond).abs + k.offset

/-- The table index of a position: the nearest one, with the bits that the table keeps. -/
def indexOf (k : ConicCourse) (v : Float32) : Nat :=
  (min (nearestOfSingle v) k.maxIndex % (k.mirror + 1)).toNat

def next? (c : ConicCursor) : Option (UInt32 × ConicCursor) := do
  let (p, reader) ← c.reader.next? (indexOf c.course c.position)
  some (p, { c with x := c.x + 1, reader })

end ConicCursor

end Scanline
