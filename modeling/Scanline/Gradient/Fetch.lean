import Scanline.Geometry.Affine
import Scanline.Gradient.Table
import Scanline.Pattern.Fetch

/-
  Gradient fetches: a table with the constants that give the table position of a pixel. The
  position of a linear gradient is linear in the coordinates and kept in 32.32 fixed point, that
  of a radial gradient has a root of a quadratic form, that of a conic gradient is an angle.
-/

namespace Scanline

/-- Whether a gradient is dithered. -/
inductive GradientQuality where
  | nearest
  | dither
  deriving DecidableEq, Repr

namespace GradientQuality

def all : List GradientQuality := [nearest, dither]

def label : GradientQuality → String
  | nearest => "Nearest"
  | dither => "Dither"

end GradientQuality

/-- The constants of a linear gradient. -/
structure LinearCourse where
  /-- The position at the destination origin. -/
  start : Int := 0
  /-- Advance for each destination column. -/
  step : Int := 0
  /-- Advance for each destination row. -/
  rowStep : Int := 0
  /-- The largest index before the table starts again. -/
  maxIndex : Nat := 0
  /-- `maxIndex` for a table that is reflected, 0 otherwise. -/
  mirror : Nat := 0
  deriving DecidableEq, Repr

/-- The constants of a radial gradient: the position is `b + sqrt d`, with `b` linear and `d`
quadratic along a row. -/
structure RadialCourse where
  tx : Float := 0
  ty : Float := 0
  yx : Float := 0
  yy : Float := 0
  amul4 : Float := 0
  inv2a : Float := 0
  sqInv2a : Float := 0
  sqFr : Float := 0
  bStart : Float := 0
  bRow : Float := 0
  ddStart : Float := 0
  ddRow : Float := 0
  bStep : Float32 := 0
  ddStep : Float32 := 0
  maxIndex : Nat := 0
  mirror : Nat := 0

/-- The constants of a conic gradient. -/
structure ConicCourse where
  tx : Float := 0
  ty : Float := 0
  yx : Float := 0
  yy : Float := 0
  /-- Coefficients of the arc tangent, in table entries. -/
  q0 : Float32 := 0
  q1 : Float32 := 0
  q2 : Float32 := 0
  q3 : Float32 := 0
  /-- The entries of a turn, of half a turn and of a quarter. -/
  turn : Float32 := 0
  half : Float32 := 0
  quarter : Float32 := 0
  offset : Float32 := 0
  xx : Float32 := 0
  /-- The largest index. -/
  maxIndex : Int := 0
  /-- The bits that an index keeps. -/
  mirror : Nat := 0
  /-- Whether a column without a position counts as left of the center. -/
  undefinedIsLeft : Bool := true

/-- The constants of a gradient. -/
inductive GradientCourse where
  | linear (c : LinearCourse)
  | radial (c : RadialCourse)
  | conic (c : ConicCourse)

/-- The shape of a gradient. -/
inductive GradientGeometry where
  /-- From offset 0 at `p0` to offset 1 at `p1`. -/
  | linear (p0 p1 : Point)
  /-- From the circle around `focal` to the one around `center`. -/
  | radial (center focal : Point) (centerRadius focalRadius : Float)
  /-- Around `center` from `angle` on, `turns` times through the table. -/
  | conic (center : Point) (angle turns : Float)

/-- A table with the constants of a gradient. -/
structure GradientFetch where
  table : GradientTable
  course : GradientCourse

namespace GradientFetch

/-- The largest index before a table of `n` entries starts again, and the mirror that goes with
it. -/
def indexRange (e : Extend) (n : Nat) : Nat × Nat :=
  if e = .reflect then (2 * n - 1, 2 * n - 1) else (n - 1, 0)

/-- The kind of a gradient, given its kinds without and with dithering for an end that pads. -/
def kindOf (nearest dithered : FetchKind) (q : GradientQuality) (e : Extend) : FetchKind :=
  let base := match q with
    | .nearest => nearest
    | .dither => dithered
  (base.after? (if e = .pad then 0 else 1)).getD base

/-- The constants of a linear gradient from `p0` to `p1`. -/
def linearCourse (n : Nat) (p0 p1 : Point) (e : Extend) (t inv : Affine) : LinearCourse :=
  let (maxIndex, mirror) := indexRange e n
  let ax := p1.x - p0.x
  let ay := p1.y - p0.y
  let dist := ax * ax + ay * ay
  let origin := t.apply p0
  let ox := 0.5 - origin.x
  let oy := 0.5 - origin.y
  let dt := ax * inv.a + ay * inv.b
  let dy := ax * inv.c + ay * inv.d
  let scale := Float.ofInt (wrap64 (n * 0x100000000)) / dist
  let offset := ox * dt + oy * dy
  { start := floorToInt64 (offset * scale)
    step := floorToInt64 (dt * scale)
    rowStep := floorToInt64 (dy * scale)
    maxIndex := maxIndex
    mirror := mirror }

def linear (table : GradientTable) (p0 p1 : Point) (e : Extend) (q : GradientQuality) (t : Affine) :
    Prepared GradientFetch :=
  match t.inverse? with
  | none => ⟨⟨table, .linear {}⟩, none⟩
  | some inv =>
    ⟨⟨table, .linear (linearCourse table.size p0 p1 e t inv)⟩,
      some (kindOf .linearPad .linearDitherPad q e)⟩

/-- The vector from the focal point to the center, moved when the focal point is closer than half
a pixel to the border of the end circle. The second part says whether it was moved. -/
def focalVector (dp : Point) (dr : Float) : Point × Bool :=
  let squared := dp.squaredLength
  let dist := squared.sqrt
  if (dist - dr).abs < 0.5 then
    let inner := (dp.scale (dr - 0.5)).shrink dist
    let outer := (dp.scale (dr + 0.5)).shrink dist
    let nearInner := (inner.x * inner.x + inner.y * inner.y - squared).abs
    let nearOuter := (outer.x * outer.x + outer.y * outer.y - squared).abs
    (if nearInner < nearOuter then inner else outer, true)
  else (dp, false)

/-- The constants of a radial gradient. -/
def radialCourse (n : Nat) (center focal : Point) (centerRadius focalRadius : Float) (e : Extend)
    (inv : Affine) : RadialCourse :=
  let (maxIndex, mirror) := indexRange e n
  let dr := centerRadius - focalRadius
  let (dp, moved) := focalVector (center - focal) dr
  let fp := if moved then center - dp else focal
  let a := dr * dr - dp.squaredLength
  let tx := inv.e + (inv.a + inv.b) * 0.5 - fp.x
  let ty := inv.f + (inv.c + inv.d) * 0.5 - fp.y
  let amul4 := a * 4
  let inv2a := Float.ofNat n * 0.5 / a
  let sqInv2a := inv2a * inv2a
  let sqStep := inv.a * inv.a + inv.b * inv.b
  let b := 2 * (dr * focalRadius + tx * dp.x + ty * dp.y)
  let bStep := 2 * (dp.x * inv.a + dp.y * inv.b)
  let bRow := 2 * (dp.x * inv.c + dp.y * inv.d)
  let sqB := bStep * bStep
  let dd := sqB + bStep * 2 * b + amul4 * (sqStep + 2 * (tx * inv.a + ty * inv.b))
  let ddRow := bStep * 2 * bRow + amul4 * (2 * (inv.a * inv.c + inv.d * inv.b))
  let ddHalf := sqB + amul4 * sqStep
  { tx := tx
    ty := ty
    yx := inv.c
    yy := inv.d
    amul4 := amul4
    inv2a := inv2a
    sqInv2a := sqInv2a
    sqFr := focalRadius * focalRadius
    bStart := -b
    bRow := -bRow
    ddStart := dd - ddHalf
    ddRow := ddRow
    bStep := (-bStep * inv2a).toFloat32
    ddStep := (ddHalf * sqInv2a).toFloat32
    maxIndex := maxIndex
    mirror := mirror }

def radial (table : GradientTable) (center focal : Point) (centerRadius focalRadius : Float)
    (e : Extend) (q : GradientQuality) (t : Affine) : Prepared GradientFetch :=
  match t.inverse? with
  | none => ⟨⟨table, .radial {}⟩, none⟩
  | some inv =>
    ⟨⟨table, .radial (radialCourse table.size center focal centerRadius focalRadius e inv)⟩,
      some (kindOf .radialPad .radialDitherPad q e)⟩

/-- A full turn. -/
def tau : Float := 6.283185307179586

/-- Where a turn that starts at `angle` begins, as a part of a turn from -1 to 0. -/
def turnOffset (angle : Float) : Float :=
  let turns := angle / -tau
  let part := turns - turns.floor
  if part != 0 then part - 1 else part

/-- The constants of a conic gradient; `inv` undoes the map without its rotation. -/
def conicCourse (n : Nat) (center : Point) (angle turns : Float) (t inv : Affine) : ConicCourse :=
  let image := t.apply center
  let cx := 0.5 - image.x
  let cy := 0.5 - image.y
  let turn := Float.ofNat n * turns
  let unit := turn / 256
  { tx := cx * inv.a + cy * inv.c
    ty := cx * inv.b + cy * inv.d
    yx := inv.c
    yy := inv.d
    q0 := (40.71421038552 * unit).toFloat32
    q1 := (-13.11160794048 * unit).toFloat32
    q2 := (6.017670215625 * unit).toFloat32
    q3 := (-1.623253505085 * unit).toFloat32
    turn := turn.toFloat32
    half := (turn * 0.5).toFloat32
    quarter := (turn * 0.25).toFloat32
    offset := (turnOffset angle * turn - 0.5).toFloat32
    xx := inv.a.toFloat32
    maxIndex := maxInt32
    mirror := n - 1
    undefinedIsLeft := !(center.x.isNaN || center.y.isNaN || t.e.isNaN || t.f.isNaN) }

def conic (table : GradientTable) (center : Point) (angle turns : Float) (q : GradientQuality)
    (t : Affine) : Prepared GradientFetch :=
  let rotation := Float.atan2 t.b t.a
  match (t.comp (.rotation (-rotation))).inverse? with
  | none => ⟨⟨table, .conic {}⟩, none⟩
  | some inv =>
    ⟨⟨table, .conic (conicCourse table.size center (angle + rotation) turns t inv)⟩,
      some (match q with
        | .nearest => .conic
        | .dither => .conicDither)⟩

/-- Makes a gradient ready to be drawn under a map to the destination. -/
def prepare (table : GradientTable) (geometry : GradientGeometry) (e : Extend)
    (q : GradientQuality) (t : Affine) : Prepared GradientFetch :=
  match geometry with
  | .linear p0 p1 => linear table p0 p1 e q t
  | .radial center focal centerRadius focalRadius =>
    radial table center focal centerRadius focalRadius e q t
  | .conic center angle turns => conic table center angle turns q t

end GradientFetch

end Scanline
