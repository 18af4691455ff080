/-
  Pixel formats. Three of them store the pixels of an image; `frgb32` and `zero32` say more about
  a source than its storage does, so that an operator can be replaced by a cheaper one.
  `ofId?_id`: every format is read back from its id.
-/

namespace Scanline

/-- How pixels are stored, and what is known about them. -/
inductive PixelFormat where
  /-- No pixels at all. -/
  | none
  /-- Premultiplied red, green and blue with alpha, 32 bits. -/
  | prgb32
  /-- Red, green and blue in 32 bits; the fourth byte is undefined and counts as 255. -/
  | xrgb32
  /-- Alpha alone, 8 bits. -/
  | a8
  /-- Stored like `prgb32`, with every alpha equal to 255. -/
  | frgb32
  /-- Stored like `prgb32`, with every pixel transparent. -/
  | zero32
  deriving DecidableEq, Repr

/-- What a format promises about its pixels. -/
structure FormatTraits where
  rgb : Bool := false
  alpha : Bool := false
  premultiplied : Bool := false
  byteAligned : Bool := false
  undefinedBits : Bool := false
  deriving DecidableEq, Repr

namespace FormatTraits

/-- The traits as a word, one bit each. -/
def bits (t : FormatTraits) : UInt32 :=
  (if t.rgb then 0x00000001 else 0) ||| (if t.alpha then 0x00000002 else 0)
    ||| (if t.premultiplied then 0x00000100 else 0)
    ||| (if t.byteAligned then 0x00010000 else 0)
    ||| (if t.undefinedBits then 0x00020000 else 0)

/-- Whether `t` has every trait of `u`. -/
def contains (t u : FormatTraits) : Bool := t.bits &&& u.bits == u.bits

end FormatTraits

/-- Where the components of a pixel lie, each list in the order red, green, blue, alpha. -/
structure PixelLayout where
  /-- Bits in a pixel. -/
  depth : Nat
  traits : FormatTraits
  sizes : List Nat
  shifts : List Nat
  deriving DecidableEq, Repr

namespace PixelFormat

/-- All formats; the place of a format is its id. -/
def all : List PixelFormat := [none, prgb32, xrgb32, a8, frgb32, zero32]

def id : PixelFormat → Nat
  | none => 0
  | prgb32 => 1
  | xrgb32 => 2
  | a8 => 3
  | frgb32 => 4
  | zero32 => 5

def ofId? (i : Nat) : Option PixelFormat := all[i]?

/-- The format as users write it. -/
def name : PixelFormat → String
  | none => "NONE"
  | prgb32 => "PRGB32"
  | xrgb32 => "XRGB32"
  | a8 => "A8"
  | frgb32 => "FRGB32"
  | zero32 => "ZERO32"

/-- The format as it stands in the description of a record. -/
def label : PixelFormat → String
  | none => "None"
  | prgb32 => "Prgb32"
  | xrgb32 => "Xrgb32"
  | a8 => "A8"
  | frgb32 => "Frgb32"
  | zero32 => "Zero32"

/-- Four bytes of premultiplied color. -/
def premultipliedLayout : PixelLayout where
  depth := 32
  traits := { rgb := true, alpha := true, premultiplied := true, byteAligned := true }
  sizes := [8, 8, 8, 8]
  shifts := [16, 8, 0, 24]

def layout : PixelFormat → PixelLayout
  | none => { depth := 0, traits := {}, sizes := [0, 0, 0, 0], shifts := [0, 0, 0, 0] }
  | xrgb32 =>
    { depth := 32, traits := { rgb := true, byteAligned := true, undefinedBits := true }
      sizes := [8, 8, 8, 0], shifts := [16, 8, 0, 0] }
  | a8 =>
    { depth := 8, traits := { alpha := true, byteAligned := true }
      sizes := [0, 0, 0, 8], shifts := [0, 0, 0, 0] }
  | prgb32 | frgb32 | zero32 => premultipliedLayout

def bytesPerPixel (f : PixelFormat) : Nat := f.layout.depth / 8

/-- Formats that no image has: they only describe a source. -/
def isInternal : PixelFormat → Bool
  | frgb32 | zero32 => true
  | _ => false

/-- Formats that an image or a destination can have. -/
def isDrawable : PixelFormat → Bool
  | prgb32 | xrgb32 | a8 => true
  | _ => false

/-- What a straight color `argb` says about its format: nothing drawn, opaque, or neither. -/
def ofColor (argb : UInt32) : PixelFormat :=
  if argb = 0 then zero32 else if 0xFF000000 ≤ argb then frgb32 else prgb32

theorem ofId?_id (f : PixelFormat) : ofId? f.id = some f := by cases f <;> rfl

theorem ofId?_eq_some {i : Nat} {f : PixelFormat} (h : ofId? i = some f) : f.id = i := by
  match i with
  | 0 | 1 | 2 | 3 | 4 | 5 => cases h; rfl
  | i + 6 => simp [ofId?, all] at h

end PixelFormat

end Scanline
