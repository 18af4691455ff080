import Scanline.Pixel.Channels

/-
  Straight colors and their premultiplied pixels.
-/

namespace Scanline

/-- The premultiplied pixel of a straight color `argb`. -/
def premultiply (argb : UInt32) : UInt32 :=
  let c := unpack argb
  Channels.pack ⟨mul255 c.b c.a, mul255 c.g c.a, mul255 c.r c.a, c.a⟩

/-- A straight color, 8 bits a component. -/
structure Color where
  r : UInt8
  g : UInt8
  b : UInt8
  a : UInt8
  deriving DecidableEq, Repr

namespace Color

/-- The components in one word, alpha first. -/
def argb (c : Color) : UInt32 :=
  Channels.pack ⟨c.b.toNat, c.g.toNat, c.r.toNat, c.a.toNat⟩

/-- The premultiplied pixel of the color. -/
def premultiplied (c : Color) : UInt32 := premultiply c.argb

end Color

end Scanline
