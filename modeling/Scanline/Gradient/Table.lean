import Scanline.Numeric.FloatValue
import Scanline.Pixel.Format
import Scanline.Pixel.Premultiply

/-
  Gradient tables. The colors between the stops of a gradient are worked out once, at a power of
  two of evenly spaced offsets, premultiplied in 16 bits a channel and again in 8.
  `size_ofStops`: a table has the length that the requested size asks for.
-/

namespace Scanline

/-- A color at an offset from 0 to 1. -/
structure ColorStop where
  offset : Float32
  color : Color

/-- The colors of a gradient. -/
structure GradientTable where
  /-- Premultiplied pixels. -/
  colors : Array UInt32
  /-- The same colors with 16 bits a channel. -/
  fineColors : Array Channels
  /-- What is known about all of the colors. -/
  format : PixelFormat

namespace GradientTable

/-- A straight color with 16 bits a channel. -/
def widen (c : Color) : Channels :=
  ⟨c.b.toNat * 257, c.g.toNat * 257, c.r.toNat * 257, c.a.toNat * 257⟩

/-- The value a fraction `w` of the way from `u` to `v`, rounded to 16 bits. -/
def between (w : Float) (u v : Nat) : Nat :=
  let x := Float.ofNat u + (Float.ofNat v - Float.ofNat u) * w
  ((FloatValue.ofFloat (x + 0.5)).truncateInto 0 65535).toNat

/-- Premultiplies a color of 16 bits a channel. -/
def premultiplyFine (c : Channels) : Channels :=
  let scale (v : Nat) : Nat := (v * c.a + 32767) / 65535
  ⟨scale c.b, scale c.g, scale c.r, c.a⟩

/-- A 16-bit channel cut to 8 bits, to the nearest. -/
def narrowChannel (v : Nat) : Nat := (v + 128 - (v + 128) / 256) / 256

/-- The pixel of a color with 16 bits a channel. -/
def narrow (c : Channels) : UInt32 := (c.map narrowChannel).pack

/-- A color of 16 bits a channel in one word, alpha on top. -/
def fineWord (c : Channels) : UInt64 :=
  UInt64.ofNat (c.b + c.g <<< 16 + c.r <<< 32 + c.a <<< 48)

/-- The straight color at offset `t`: that of the last stop up to `t`, mixed with the next one. -/
def colorAt (stops : List ColorStop) (t : Float) : Channels :=
  match stops with
  | [] => .splat 0
  | first :: later =>
    let passed := later.takeWhile fun s => s.offset.toFloat ≤ t
    let here := passed.getLastD first
    match later.drop passed.length with
    | [] => widen here.color
    | next :: _ =>
      if t ≤ here.offset.toFloat then widen here.color
      else
        let span := (next.offset - here.offset).toFloat
        let w := if 0 < span then (t - here.offset.toFloat) / span else 1
        (widen here.color).zipWith (between w) (widen next.color)

/-- The length of a table for a requested size: the least power of two that has room for it, at
least 2. -/
def length (size : Nat) : Nat := 1 <<< ((max size 2 - 1).log2 + 1)

/-- The color of entry `i` in a table of `n` entries. -/
def entry (stops : List ColorStop) (n i : Nat) : Channels :=
  premultiplyFine (colorAt stops (Float.ofNat i / Float.ofNat (n - 1)))

/-- The table of the given stops, in order of their offsets. Without stops it is transparent. -/
def ofStops (stops : List ColorStop) (size : Nat) : GradientTable :=
  let n := length size
  let fine := (Array.range n).map (entry stops n)
  { colors := fine.map narrow
    fineColors := fine
    format :=
      if !stops.isEmpty && stops.all (fun s => s.color.a == 255) then .frgb32 else .prgb32 }

/-- The table of the given stops, unless no word holds the power of two for its size. -/
def ofStops? (stops : List ColorStop) (size : Nat) : Option GradientTable :=
  if size ≤ 0x8000000000000000 then some (ofStops stops size) else none

/-- A size that suits the given stops. -/
def optimalSize : List ColorStop → Nat
  | [] | [_] => 256
  | [s, t] => if 0.998 ≤ t.offset - s.offset then 256 else 512
  | [s, t, u] =>
    if s.offset ≤ 0.002 && t.offset == 0.5 && 0.998 ≤ u.offset then 512 else 1024
  | _ => 1024

def size (t : GradientTable) : Nat := t.colors.size

theorem size_ofStops (stops : List ColorStop) (n : Nat) :
    (ofStops stops n).size = length n := by
  simp [ofStops, size]

end GradientTable

end Scanline
