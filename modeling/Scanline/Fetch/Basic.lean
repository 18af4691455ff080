import Scanline.Gradient.Fetch
import Scanline.Pattern.Fetch

/-
  Fetches: where the source pixels of a fill come from.
-/

namespace Scanline

/-- A source of pixels. -/
inductive Fetch where
  /-- One premultiplied pixel everywhere. -/
  | solid (pixel : UInt32)
  | pattern (f : PatternFetch)
  | gradient (f : GradientFetch)

/-- What is known about the pixels of a fetch. -/
def Fetch.format : Fetch → PixelFormat
  | .solid pixel => .ofColor pixel
  | .pattern f => f.source.format
  | .gradient f => f.table.format

end Scanline
