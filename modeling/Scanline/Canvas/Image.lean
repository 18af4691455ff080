import Scanline.Pattern.Source
import Scanline.Render.Surface

/-
  Images: rows of pixels without padding between them, in a format that can be drawn to.
-/

namespace Scanline

/-- An image that can be drawn to. -/
structure Image where
  width : Nat
  height : Nat
  format : PixelFormat
  bytes : Array UInt8
  deriving DecidableEq, Repr

namespace Image

/-- Bytes in a row. -/
def stride (i : Image) : Nat := i.width * i.format.bytesPerPixel

/-- A transparent image. There is room for as many bytes as a signed word counts. -/
def blank (width height : Nat) (format : PixelFormat) : Except Halt Image :=
  let size := width * height * format.bytesPerPixel
  if !format.isDrawable then .error (.refused (.unsupportedFormat format))
  else if maxInt64 < size then .error .outOfRange
  else .ok ⟨width, height, format, Array.replicate size 0⟩

/-- An image of 32-bit pixels, row by row. -/
def ofWords (words : Array UInt32) (width height : Nat) (format : PixelFormat) :
    Except RenderError Image :=
  if format ≠ .prgb32 ∧ format ≠ .xrgb32 then .error (.unsupportedFormat format)
  else if words.size ≠ width * height then .error .invalidBuffer
  else .ok ⟨width, height, format, bytesOfWords words⟩

/-- The image as a pattern. -/
def asPattern (i : Image) : PatternSource := ⟨i.bytes, i.stride, i.width, i.height, i.format⟩

/-- The image as a surface. -/
def toSurface (i : Image) : Except Halt Surface :=
  Surface.ofBytes i.bytes i.stride i.width i.height i.format

/-- The image with the bytes of a surface over it. -/
def withSurface (i : Image) (s : Surface) : Image := { i with bytes := s.bytes }

/-- The bytes of row `y`. -/
def row? (i : Image) (y : Nat) : Option (Array UInt8) :=
  if (y + 1) * i.stride ≤ i.bytes.size then
    some (i.bytes.extract (y * i.stride) ((y + 1) * i.stride))
  else none

/-- The premultiplied pixel in column `x` of row `y`. -/
def pixel? (i : Image) (x y : Nat) : Option UInt32 :=
  if (y + 1) * i.stride ≤ i.bytes.size then i.asPattern.pixel? x y else none

/-- Every pixel, row by row. -/
def pixels? (i : Image) : Option (List UInt32) :=
  (List.range (i.height * i.width)).mapM fun k => i.pixel? (k % i.width) (k / i.width)

/-- The image with another byte at `index`. -/
def setByte? (i : Image) (index : Nat) (b : UInt8) : Option Image :=
  (writeByte? i.bytes index b).map fun bytes => { i with bytes }

end Image

end Scanline
