import Scanline.Fill.Basic
import Scanline.Render.AnalyticFill
import Scanline.Render.BoxFill
import Scanline.Render.MaskFill

/-
  Drawing a fill of any kind.
-/

namespace Scanline

/-- Draws a fill and gives back what is left of it: an analytic fill has used up its buffers. -/
def Fill.draw? (f : Fill) (s : Stroke) : Option (Fill × Stroke) :=
  match f with
  | alignedBox b => (b.draw? s).map fun s => (alignedBox b, s)
  | fractionalBox b => (b.draw? s).map fun s => (fractionalBox b, s)
  | mask m => (m.draw? s).map fun s => (mask m, s)
  | analytic a => (a.draw? s).map fun (a, s) => (analytic a, s)

end Scanline
