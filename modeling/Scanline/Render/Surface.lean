import Scanline.Error
import Scanline.Geometry.Box
import Scanline.Operator.Formula
import Scanline.Pixel.Bytes

/-
  Surfaces: the rows of pixels that a fill draws to. A surface may show some of the rows of an
  image; its rows keep the numbers that they have there.
  `join_bands`: a surface that is cut into bands and put together again has the same bytes.
-/

namespace Scanline

/-- Rows of pixels to draw to. -/
structure Surface where
  bytes : Array UInt8
  /-- Bytes from one row to the next. -/
  stride : Nat
  width : Nat
  height : Nat
  format : PixelFormat
  /-- The number of the first row. -/
  top : Int := 0
  deriving DecidableEq, Repr

/-- Combines two pixels of a destination in the given format. -/
def Operator.combine (op : Operator) (format : PixelFormat) (dst src : UInt32) : UInt32 :=
  if format = .a8 then op.onAlpha dst src else op.onColor dst src

namespace Surface

/-- A surface over the rows of `bytes`, unless its format cannot be drawn to or rows are missing.
The end of the last row has to be a size that a word holds. -/
def ofBytes (bytes : Array UInt8) (stride width height : Nat) (format : PixelFormat) :
    Except Halt Surface :=
  let rowBytes := width * format.bytesPerPixel
  if !format.isDrawable then .error (.refused (.unsupportedFormat format))
  else if stride < rowBytes then .error (.refused .invalidBuffer)
  else
    match size64? (if 0 < height then stride * (height - 1) + rowBytes else 0) with
    | none => .error .outOfRange
    | some size =>
      if bytes.size < size then .error (.refused .invalidBuffer)
      else .ok { bytes, stride, width, height, format }

/-- The number of the row after the last one. Rows are counted in a 32-bit word. -/
def bottom (s : Surface) : Int := s.top + wrap32 s.height

/-- Whether a box stays inside the surface, whose sides count as 32-bit words. -/
def Holds (s : Surface) (b : Box) : Prop :=
  0 ≤ b.x0 ∧ b.x1 ≤ wrap32 s.width ∧ s.top ≤ b.y0 ∧ b.y1 ≤ s.bottom

instance (s : Surface) (b : Box) : Decidable (s.Holds b) :=
  inferInstanceAs (Decidable (_ ∧ _))

/-- The byte where row `y` starts. -/
def rowStart (s : Surface) (y : Int) : Nat := (y - s.top).toNat * s.stride

/-- The pixel in column `x` of row `y`. -/
def pixel? (s : Surface) (x : Nat) (y : Int) : Option UInt32 :=
  if x < s.width then readTarget? s.format s.bytes (s.rowStart y) x else none

/-- The surface with another pixel in column `x` of row `y`. -/
def setPixel? (s : Surface) (x : Nat) (y : Int) (p : UInt32) : Option Surface :=
  if x < s.width then
    match s with
    | { bytes, stride, width, height, format, top } =>
      (writeTarget? format bytes ((y - top).toNat * stride) x p).map fun bytes =>
        { bytes, stride, width, height, format, top }
  else none

/-- Draws a source pixel in column `x` of row `y` with coverage `m`. A full copy does not look at
what is there. -/
def draw? (s : Surface) (op : Operator) (x : Nat) (y : Int) (src : UInt32) (m : Nat) :
    Option Surface :=
  if op = .srcCopy ∧ m = 255 then s.setPixel? x y src
  else do
    let dst ← s.pixel? x y
    s.setPixel? x y (applyMask (op.combine s.format dst src) dst m)

/-- The `i`-th band of `n` rows. -/
def band (s : Surface) (n i : Nat) : Surface :=
  { s with
    bytes := s.bytes.extract (i * (s.stride * n)) ((i + 1) * (s.stride * n))
    height := min n (s.height - i * n)
    top := s.top + (i * n : Nat) }

/-- How many bands of `n` rows there are. -/
def bandCount (s : Surface) (n : Nat) : Nat := (s.height + n - 1) / n

/-- The surface cut into bands of `n` rows, the last of them with what is left. The rows and the
bytes of a band are sizes that words hold where those of the surface are. -/
def bands (s : Surface) (n : Nat) : List Surface :=
  let n := max n 1
  (List.range (s.bandCount n)).map (s.band n)

/-- The surface with the bytes of bands of `n` rows; bytes behind the last band stay. -/
def withBands (s : Surface) (n : Nat) (bands : List Surface) : Surface :=
  let n := max n 1
  let drawn := bands.foldl (fun bytes b => bytes ++ b.bytes) #[]
  { s with bytes := drawn ++ s.bytes.extract (s.bandCount n * (s.stride * n)) s.bytes.size }

theorem bandBytes_take (s : Surface) (n k : Nat) :
    ((List.range k).map (s.band n)).foldl (fun bytes b => bytes ++ b.bytes) #[] =
      s.bytes.extract 0 (k * (s.stride * n)) := by
  induction k with
  | zero => simp
  | succ k ih =>
    rw [List.range_succ, List.map_append, List.foldl_append, ih]
    simp only [List.map_cons, List.map_nil, List.foldl_cons, List.foldl_nil, band]
    rw [Array.extract_append_extract, Nat.zero_min,
      Nat.max_eq_right (Nat.mul_le_mul_right _ (Nat.le_succ k))]

theorem join_bands (s : Surface) (n : Nat) : s.withBands n (s.bands n) = s := by
  unfold withBands bands
  dsimp only
  rw [bandBytes_take, Array.extract_append_extract]
  cases s
  simp only [Surface.mk.injEq, and_true]
  rw [Nat.zero_min]
  generalize bandCount _ _ * _ = k
  rw [Array.extract_eq_self_of_le (Nat.le_max_right ..)]

end Surface

end Scanline
