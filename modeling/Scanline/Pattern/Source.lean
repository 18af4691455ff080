import Scanline.Error
import Scanline.Numeric.Word
import Scanline.Pixel.Bytes

/-
  Patterns: rows of pixels to take sources from.
  `isSome_pixel?`: a pattern made by `ofBytes?` has every pixel inside its sides.
-/

namespace Scanline

/-- Pixels in rows that start `stride` bytes apart. -/
structure PatternSource where
  bytes : Array UInt8
  stride : Nat
  width : Nat
  height : Nat
  format : PixelFormat

namespace PatternSource

def rowBytes (s : PatternSource) : Nat := s.width * s.format.bytesPerPixel

/-- A pattern over `bytes`, unless the rows do not fit or the format has no pixels. The end of the
last row has to be a size that a word holds. -/
def ofBytes (bytes : Array UInt8) (stride width height : Nat) (format : PixelFormat) :
    Except Halt (Option PatternSource) :=
  let s : PatternSource := ⟨bytes, stride, width, height, format⟩
  if format = .none ∨ stride < s.rowBytes then .ok none
  else
    match size64? (if height ≠ 0 then stride * (height - 1) + s.rowBytes else 0) with
    | none => .error .outOfRange
    | some size => if bytes.size < size then .ok none else .ok (some s)

/-- The pattern over `bytes`, if there is one. -/
def ofBytes? (bytes : Array UInt8) (stride width height : Nat) (format : PixelFormat) :
    Option PatternSource :=
  (ofBytes bytes stride width height format).toOption.join

/-- A pattern over words without padding between the rows. -/
def ofWords? (words : Array UInt32) (width height : Nat) (format : PixelFormat) :
    Option PatternSource :=
  if format.bytesPerPixel = 4 then
    ofBytes? (bytesOfWords words) (width * 4) width height format
  else none

/-- The bytes of the pixels in row `y`. -/
def row (s : PatternSource) (y : Nat) : Array UInt8 :=
  s.bytes.extract (y * s.stride) (y * s.stride + s.rowBytes)

/-- Whether there are no pixels. -/
def isEmpty (s : PatternSource) : Bool := s.width == 0 || s.height == 0

/-- The premultiplied pixel in column `x` of row `y`. -/
def pixel? (s : PatternSource) (x y : Nat) : Option UInt32 :=
  if x < s.width then readSource? s.format s.bytes (y * s.stride) x else none

/-- A pattern has room for its rows. -/
theorem ofBytes?_eq_some {bytes : Array UInt8} {stride width height : Nat} {format : PixelFormat}
    {s : PatternSource} (hs : ofBytes? bytes stride width height format = some s) :
    s = ⟨bytes, stride, width, height, format⟩ ∧ format ≠ .none ∧
      width * format.bytesPerPixel ≤ stride ∧
      (height ≠ 0 → stride * (height - 1) + width * format.bytesPerPixel ≤ bytes.size) := by
  have hok : ofBytes bytes stride width height format = .ok (some s) := by
    unfold ofBytes? at hs
    match hout : ofBytes bytes stride width height format with
    | .error e => rw [hout] at hs; cases hs
    | .ok none => rw [hout] at hs; cases hs
    | .ok (some s') => rw [hout] at hs; cases hs; rfl
  unfold ofBytes rowBytes at hok
  dsimp only at hok
  split at hok
  · cases hok
  · rename_i hrows
    split at hok
    · cases hok
    · rename_i size hsize
      obtain ⟨hsize, -⟩ := size64?_eq_some.mp hsize
      split at hok
      · cases hok
      · rename_i hfit
        cases hok
        refine ⟨rfl, fun h => hrows (.inl h), Nat.le_of_not_lt fun h => hrows (.inr h), fun h => ?_⟩
        rw [if_pos h] at hsize
        exact hsize ▸ Nat.le_of_not_lt hfit

/-- Where there is room for the rows, every pixel inside of the sides is there. -/
theorem isSome_pixel?_of_le {s : PatternSource} (hformat : s.format ≠ .none)
    (hfit : s.height ≠ 0 → s.stride * (s.height - 1) + s.rowBytes ≤ s.bytes.size) {x y : Nat}
    (hx : x < s.width) (hy : y < s.height) : (s.pixel? x y).isSome := by
  obtain ⟨bytes, stride, width, height, format⟩ := s
  replace hfit := hfit (Nat.ne_of_gt (Nat.lt_of_le_of_lt (Nat.zero_le y) hy))
  have hrow : y * stride ≤ stride * (height - 1) := by
    rw [Nat.mul_comm]
    exact Nat.mul_le_mul_left stride (by simp only at hy; omega)
  simp only [rowBytes] at hx hy hfit
  simp only [pixel?, hx, if_true]
  cases format <;>
    simp [PixelFormat.bytesPerPixel, PixelFormat.layout, PixelFormat.premultipliedLayout]
      at hformat hfit
  case a8 =>
    have : y * stride + x < bytes.size := by omega
    simp [readSource?, this]
  all_goals
    simp only [readSource?, Option.isSome_map]
    exact isSome_readWord? (by omega)

theorem isSome_pixel? {bytes : Array UInt8} {stride width height : Nat} {format : PixelFormat}
    {s : PatternSource} (hs : ofBytes? bytes stride width height format = some s) {x y : Nat}
    (hx : x < s.width) (hy : y < s.height) : (s.pixel? x y).isSome := by
  obtain ⟨rfl, hn, -, hfit⟩ := ofBytes?_eq_some hs
  exact isSome_pixel?_of_le hn hfit hx hy

end PatternSource

end Scanline
