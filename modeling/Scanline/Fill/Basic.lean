import Scanline.Fill.AlignedBox
import Scanline.Fill.Analytic
import Scanline.Fill.FractionalBox
import Scanline.Fill.Mask
import Scanline.Signature.Kind

/-
  Fills: which pixels are drawn and with what coverage.
-/

namespace Scanline

/-- A fill of any kind. -/
inductive Fill where
  | alignedBox (b : AlignedBox)
  | fractionalBox (b : FractionalBox)
  | mask (m : MaskFill)
  | analytic (a : AnalyticFill)

namespace Fill

def kind : Fill → FillKind
  | alignedBox _ => .alignedBox
  | fractionalBox _ => .fractionalBox
  | mask _ => .mask
  | analytic _ => .analytic

/-- The rows and columns that the fill may touch. -/
def bounds : Fill → Box
  | alignedBox b => b.bounds
  | fractionalBox b => b.bounds
  | mask m => m.bounds
  | analytic a => a.bounds

/-- The part of a box fill in rows `lo` to `hi`; other fills are not cut. -/
def clipRows? (f : Fill) (lo hi : Int) : Option Fill :=
  match f with
  | alignedBox b => (b.clipRows? lo hi).map alignedBox
  | fractionalBox b => (b.clipRows? lo hi).map fractionalBox
  | f => some f

end Fill

end Scanline
