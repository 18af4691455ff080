import Scanline.Numeric.Extremes

/-
  Points and affine maps in double precision. The order of the operations is part of every
  definition, because each of them rounds.
-/

namespace Scanline

structure Point where
  x : Float
  y : Float

namespace Point

instance : Sub Point := ⟨fun p q => ⟨p.x - q.x, p.y - q.y⟩⟩

def scale (p : Point) (s : Float) : Point := ⟨p.x * s, p.y * s⟩

/-- Multiplies by the reciprocal of `s`, which rounds twice. -/
def shrink (p : Point) (s : Float) : Point := p.scale (1 / s)

def squaredLength (p : Point) : Float := p.x * p.x + p.y * p.y

end Point

/-- The map `(x, y) ↦ (a * x + c * y + e, b * x + d * y + f)`. -/
structure Affine where
  a : Float
  b : Float
  c : Float
  d : Float
  e : Float
  f : Float

namespace Affine

def determinant (t : Affine) : Float := t.a * t.d - t.b * t.c

def apply (t : Affine) (p : Point) : Point :=
  ⟨t.a * p.x + t.c * p.y + t.e, t.b * p.x + t.d * p.y + t.f⟩

/-- The map that applies `u` first. -/
def comp (t u : Affine) : Affine where
  a := t.a * u.a + t.c * u.b
  b := t.b * u.a + t.d * u.b
  c := t.a * u.c + t.c * u.d
  d := t.b * u.c + t.d * u.d
  e := t.a * u.e + t.c * u.f + t.e
  f := t.b * u.e + t.d * u.f + t.f

def rotation (angle : Float) : Affine where
  a := angle.cos
  b := angle.sin
  c := -angle.sin
  d := angle.cos
  e := 0
  f := 0

def inverse (t : Affine) : Affine :=
  let i := 1 / t.determinant
  { a := i * t.d
    b := -i * t.b
    c := -i * t.c
    d := i * t.a
    e := i * (t.c * t.f - t.d * t.e)
    f := i * (t.b * t.e - t.a * t.f) }

/-- The inverse of a map whose determinant is a number other than zero. -/
def inverse? (t : Affine) : Option Affine :=
  let det := t.determinant
  if det != 0 && det.isFinite then some t.inverse else none

end Affine

/-- A box with corners in double precision. -/
structure Rect where
  x0 : Float
  y0 : Float
  x1 : Float
  y1 : Float

/-- The same box with its corners in order. -/
def Rect.ordered (r : Rect) : Rect :=
  ⟨smallerDouble r.x0 r.x1, smallerDouble r.y0 r.y1, largerDouble r.x0 r.x1,
    largerDouble r.y0 r.y1⟩

end Scanline
