import Scanline.Proofs.Pixel.Stored

/-
  Pixels as they lie in memory. The raw word of a pixel has all of its bytes, the undefined one of
  `xrgb32` included, so pixels with equal raw words have equal bytes (`readRaw?_inj`), which
  need not be so for pixels that are read back as equal. `readTarget?_eq_map`: a pixel is read back
  as the format keeps its raw word.
-/

namespace Scanline

/-- The pixel of a destination as its bytes stand. -/
def readRaw? (f : PixelFormat) (bytes : Array UInt8) (start x : Nat) : Option UInt32 :=
  match f with
  | .a8 => (bytes[start + x]?).map fun b => ofAlpha b.toNat
  | _ => readWord? bytes (start + 4 * x)

theorem PixelFormat.stored_stored (f : PixelFormat) (p : UInt32) :
    f.stored (f.stored p) = f.stored p := by
  cases f with
  | a8 => exact congrArg ofAlpha (alphaOf_ofAlpha (alphaOf_lt p))
  | xrgb32 => exact withFullAlpha_idem p
  | none | prgb32 | frgb32 | zero32 => rfl

theorem readTarget?_eq_map (f : PixelFormat) (bytes : Array UInt8) (start x : Nat) :
    readTarget? f bytes start x = (readRaw? f bytes start x).map f.stored := by
  cases f with
  | a8 =>
    simp only [readTarget?, readRaw?, Option.map_map]
    refine congrArg (Option.map · _) (funext fun b => ?_)
    exact (congrArg ofAlpha (alphaOf_ofAlpha b.toNat_lt)).symm
  | xrgb32 => rfl
  | none | prgb32 | frgb32 | zero32 => exact Option.map_id'.symm

theorem isSome_readRaw? {f : PixelFormat} {bytes : Array UInt8} {start x : Nat}
    (hf : f.isDrawable) (h : start + f.bytesPerPixel * x + f.bytesPerPixel ≤ bytes.size) :
    ∃ w, readRaw? f bytes start x = some w := by
  obtain ⟨d, hd⟩ := isSome_readTarget? hf h
  rw [readTarget?_eq_map] at hd
  obtain ⟨w, hw, -⟩ := Option.map_eq_some_iff.mp hd
  exact ⟨w, hw⟩

/-- The word of a written pixel has no undefined byte left. -/
theorem readRaw?_writeTarget? {f : PixelFormat} {bytes out : Array UInt8} {start x : Nat}
    {p : UInt32} (h : writeTarget? f bytes start x p = some out) :
    readRaw? f out start x = some (f.stored p) := by
  cases f with
  | a8 => exact readTarget?_writeTarget? h
  | xrgb32 => exact readWord?_writeWord? h
  | none | prgb32 | frgb32 | zero32 => exact readWord?_writeWord? h

/-- A raw word only depends on the bytes of the pixel, wherever the row lies. -/
theorem readRaw?_shift {f : PixelFormat} {a b : Array UInt8} {start start' x : Nat}
    (hf : f.isDrawable)
    (h : ∀ j, j < f.bytesPerPixel →
      a[start + f.bytesPerPixel * x + j]? = b[start' + f.bytesPerPixel * x + j]?) :
    readRaw? f a start x = readRaw? f b start' x := by
  cases f with
  | a8 => exact readTarget?_shift hf h
  | prgb32 | xrgb32 => exact readWord?_congr h
  | none | frgb32 | zero32 => cases hf

/-! ## The bytes of a word -/

theorem byteOfWord_wordOfBytes (b0 b1 b2 b3 : UInt8) :
    byteOfWord (wordOfBytes b0 b1 b2 b3) 1 = b0 ∧ byteOfWord (wordOfBytes b0 b1 b2 b3) 0x100 = b1 ∧
      byteOfWord (wordOfBytes b0 b1 b2 b3) 0x10000 = b2 ∧
      byteOfWord (wordOfBytes b0 b1 b2 b3) 0x1000000 = b3 := by
  have h0 := b0.toNat_lt
  have h1 := b1.toNat_lt
  have h2 := b2.toNat_lt
  have h3 := b3.toNat_lt
  simp only [byteOfWord, wordOfBytes, UInt32.toNat_ofNat']
  refine ⟨?_, ?_, ?_, ?_⟩
  all_goals
    apply UInt8.toNat.inj
    rw [UInt8.toNat_ofNat']
    omega

/-- The bytes of a word that was read. -/
theorem getElem?_of_readWord? {bytes : Array UInt8} {i : Nat} {w : UInt32}
    (h : readWord? bytes i = some w) :
    bytes[i]? = some (byteOfWord w 1) ∧ bytes[i + 1]? = some (byteOfWord w 0x100) ∧
      bytes[i + 2]? = some (byteOfWord w 0x10000) ∧
      bytes[i + 3]? = some (byteOfWord w 0x1000000) := by
  obtain ⟨b0, h0, h⟩ := Option.bind_eq_some_iff.mp h
  obtain ⟨b1, h1, h⟩ := Option.bind_eq_some_iff.mp h
  obtain ⟨b2, h2, h⟩ := Option.bind_eq_some_iff.mp h
  obtain ⟨b3, h3, h⟩ := Option.bind_eq_some_iff.mp h
  obtain ⟨e0, e1, e2, e3⟩ := byteOfWord_wordOfBytes b0 b1 b2 b3
  rw [← Option.some.inj h, e0, e1, e2, e3]
  exact ⟨h0, h1, h2, h3⟩

/-- Pixels with the same raw word have the same bytes. -/
theorem readRaw?_inj {f : PixelFormat} {a b : Array UInt8} {start start' x j : Nat} {w : UInt32}
    (hf : f.isDrawable) (ha : readRaw? f a start x = some w) (hb : readRaw? f b start' x = some w)
    (hj : j < f.bytesPerPixel) :
    a[start + f.bytesPerPixel * x + j]? = b[start' + f.bytesPerPixel * x + j]? := by
  have hword {i i' : Nat} (ha : readWord? a i = some w) (hb : readWord? b i' = some w)
      (hj : j < 4) : a[i + j]? = b[i' + j]? := by
    obtain ⟨a0, a1, a2, a3⟩ := getElem?_of_readWord? ha
    obtain ⟨b0, b1, b2, b3⟩ := getElem?_of_readWord? hb
    obtain rfl | rfl | rfl | rfl : j = 0 ∨ j = 1 ∨ j = 2 ∨ j = 3 := by omega
    · exact a0.trans b0.symm
    · exact a1.trans b1.symm
    · exact a2.trans b2.symm
    · exact a3.trans b3.symm
  cases f with
  | a8 =>
    obtain ⟨v, hv, rfl⟩ := Option.map_eq_some_iff.mp ha
    obtain ⟨v', hv', heq⟩ := Option.map_eq_some_iff.mp hb
    have hvalue : v'.toNat = v.toNat := by
      rw [← alphaOf_ofAlpha v.toNat_lt, ← alphaOf_ofAlpha v'.toNat_lt, heq]
    obtain rfl : j = 0 := Nat.lt_one_iff.mp hj
    change a[start + 1 * x + 0]? = b[start' + 1 * x + 0]?
    rw [Nat.one_mul, Nat.add_zero, Nat.add_zero, hv, hv', UInt8.toNat.inj hvalue]
  | prgb32 | xrgb32 => exact hword ha hb hj
  | none | frgb32 | zero32 => cases hf

end Scanline
