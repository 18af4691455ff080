import Scanline.Canvas.Image
import Scanline.Fetch.Basic

/-
  Styles: what a canvas draws with. A style is made into a fetch anew for every fill.
-/

namespace Scanline

/-- What a canvas draws with. -/
inductive Style where
  /-- A premultiplied pixel. -/
  | solid (pixel : UInt32)
  | pattern (image : Image) (extend : ExtendMode) (quality : PatternQuality) (transform : Affine)
  | gradient (table : GradientTable) (geometry : GradientGeometry) (extend : Extend)
    (quality : GradientQuality) (transform : Affine)

namespace Style

/-- The fetch of a style, unless a coordinate of a pattern leaves the 32-bit words. -/
def prepare? : Style → Option (Prepared Fetch)
  | solid pixel => some ⟨.solid pixel, some .solid⟩
  | pattern image extend quality transform =>
    (PatternFetch.mapped? image.asPattern extend quality transform).map fun p =>
      ⟨.pattern p.fetch, p.kind⟩
  | gradient table geometry extend quality transform =>
    let p := GradientFetch.prepare table geometry extend quality transform
    some ⟨.gradient p.fetch, p.kind⟩

end Style

end Scanline
