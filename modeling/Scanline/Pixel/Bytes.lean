import Scanline.Pixel.Channels
import Scanline.Pixel.Format

/-
  Pixels in memory. A 32-bit pixel takes four bytes, the lowest first. Reading and writing give
  nothing where a byte does not exist.
  `readWord?_writeWord?`: a written word is read back.
-/

namespace Scanline

/-- The word of four bytes, the lowest first. -/
def wordOfBytes (b0 b1 b2 b3 : UInt8) : UInt32 :=
  UInt32.ofNat (b0.toNat + b1.toNat * 0x100 + b2.toNat * 0x10000 + b3.toNat * 0x1000000)

/-- The byte of a word that has the given weight. -/
def byteOfWord (w : UInt32) (weight : Nat) : UInt8 := UInt8.ofNat (w.toNat / weight)

/-- The four bytes of a word, the lowest first. -/
def bytesOfWord (w : UInt32) : List UInt8 :=
  [byteOfWord w 1, byteOfWord w 0x100, byteOfWord w 0x10000, byteOfWord w 0x1000000]

/-- The word that starts at byte `i`. -/
def readWord? (bytes : Array UInt8) (i : Nat) : Option UInt32 := do
  let b0 ← bytes[i]?
  let b1 ← bytes[i + 1]?
  let b2 ← bytes[i + 2]?
  let b3 ← bytes[i + 3]?
  some (wordOfBytes b0 b1 b2 b3)

/-- Writes a word to the four bytes from `i` on. -/
def writeWord? (bytes : Array UInt8) (i : Nat) (w : UInt32) : Option (Array UInt8) :=
  if h : i + 3 < bytes.size then
    some ((((bytes.set i (byteOfWord w 1)).setIfInBounds (i + 1) (byteOfWord w 0x100)).setIfInBounds
      (i + 2) (byteOfWord w 0x10000)).setIfInBounds (i + 3) (byteOfWord w 0x1000000))
  else none

/-- Writes one byte. -/
def writeByte? (bytes : Array UInt8) (i : Nat) (b : UInt8) : Option (Array UInt8) :=
  if h : i < bytes.size then some (bytes.set i b) else none

/-- The bytes of several words in order. -/
def bytesOfWords (words : Array UInt32) : Array UInt8 :=
  words.foldl (fun bytes w => bytesOfWord w |>.foldl Array.push bytes) #[]

/-- The pixel of a source whose row starts at byte `start`. Sources without alpha are opaque, and
an alpha source has its value in every channel. -/
def readSource? (format : PixelFormat) (bytes : Array UInt8) (start x : Nat) : Option UInt32 :=
  match format with
  | .a8 => (bytes[start + x]?).map fun b => (Channels.splat b.toNat).pack
  | .xrgb32 | .frgb32 => (readWord? bytes (start + 4 * x)).map withFullAlpha
  | .prgb32 | .zero32 | .none => readWord? bytes (start + 4 * x)

/-- The pixel of a destination whose row starts at byte `start`. An alpha destination keeps its
value in the alpha channel. -/
def readTarget? (format : PixelFormat) (bytes : Array UInt8) (start x : Nat) : Option UInt32 :=
  match format with
  | .a8 => (bytes[start + x]?).map fun b => ofAlpha b.toNat
  | .xrgb32 => (readWord? bytes (start + 4 * x)).map withFullAlpha
  | _ => readWord? bytes (start + 4 * x)

/-- Stores a pixel in a destination whose row starts at byte `start`. -/
def writeTarget? (format : PixelFormat) (bytes : Array UInt8) (start x : Nat) (p : UInt32) :
    Option (Array UInt8) :=
  match format with
  | .a8 => writeByte? bytes (start + x) (UInt8.ofNat (alphaOf p))
  | .xrgb32 => writeWord? bytes (start + 4 * x) (withFullAlpha p)
  | _ => writeWord? bytes (start + 4 * x) p

theorem wordOfBytes_byteOfWord (w : UInt32) :
    wordOfBytes (byteOfWord w 1) (byteOfWord w 0x100) (byteOfWord w 0x10000)
      (byteOfWord w 0x1000000) = w := by
  have := w.toNat_lt
  apply UInt32.toNat.inj
  simp only [wordOfBytes, byteOfWord, UInt8.toNat_ofNat', UInt32.toNat_ofNat']
  omega

theorem isSome_readWord? {bytes : Array UInt8} {i : Nat} (h : i + 3 < bytes.size) :
    (readWord? bytes i).isSome := by
  have h0 : i < bytes.size := by omega
  have h1 : i + 1 < bytes.size := by omega
  have h2 : i + 2 < bytes.size := by omega
  simp [readWord?, h0, h1, h2, h]

theorem size_writeWord? {bytes out : Array UInt8} {i : Nat} {w : UInt32}
    (h : writeWord? bytes i w = some out) : out.size = bytes.size := by
  unfold writeWord? at h
  split at h
  · cases h; simp
  · cases h

theorem readWord?_writeWord? {bytes out : Array UInt8} {i : Nat} {w : UInt32}
    (h : writeWord? bytes i w = some out) : readWord? out i = some w := by
  unfold writeWord? at h
  split at h
  · rename_i hi
    cases h
    have h0 : i < bytes.size := by omega
    have h1 : i + 1 < bytes.size := by omega
    have h2 : i + 2 < bytes.size := by omega
    simp [readWord?, h0, h1, h2, hi, wordOfBytes_byteOfWord]
  · cases h

end Scanline
