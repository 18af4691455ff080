import Scanline.Pixel.Bytes

/-
  What formats say about pixels. A source of a format only gives some pixels (`Yields`), a
  destination only holds some (`Stores`), and a pixel may change when it is stored (`stored`).
  The first two are about one color channel and the alpha at a time.
  `readTarget?_writeTarget?`: a pixel is read back as it is stored.
-/

namespace Scanline

theorem unpack_ofAlpha {a : Nat} (h : a ≤ 255) : unpack (ofAlpha a) = ⟨0, 0, 0, a⟩ := by
  simp only [unpack, ofAlpha, UInt32.toNat_ofNat', Channels.mk.injEq]
  omega

theorem unpack_withFullAlpha (p : UInt32) :
    unpack (withFullAlpha p) = { unpack p with a := 255 } := by
  have hlt := alphaOf_lt p
  have hval : (withFullAlpha p).toNat = p.toNat ||| 0xFF000000 := by
    rw [withFullAlpha, UInt32.toNat_or]
    rfl
  have hhigh : (p.toNat ||| 0xFF000000) / 2 ^ 24 = 255 := by
    rw [Nat.or_div_two_pow]
    have hor : p.toNat / 2 ^ 24 ||| (2 ^ 8 - 1) = 2 ^ 8 - 1 := by
      have := Nat.or_lt_two_pow (show p.toNat / 2 ^ 24 < 2 ^ 8 from hlt)
        (show 2 ^ 8 - 1 < 2 ^ 8 by decide)
      have := @Nat.right_le_or (p.toNat / 2 ^ 24) (2 ^ 8 - 1)
      omega
    exact hor
  have hlow : (p.toNat ||| 0xFF000000) % 2 ^ 24 = p.toNat % 2 ^ 24 := by
    rw [Nat.or_mod_two_pow]
    exact Nat.or_zero _
  simp only [unpack, hval, Channels.mk.injEq]
  omega

namespace PixelFormat

/-- A color channel `c` and an alpha `a` that a source of the format can give. -/
def GivesChannel (f : PixelFormat) (c a : Nat) : Prop :=
  match f with
  | none => False
  | prgb32 => c ≤ a
  | xrgb32 | frgb32 => a = 255
  | a8 => c = a
  | zero32 => c = 0 ∧ a = 0

/-- A color channel `c` and an alpha `a` that a destination of the format can hold. -/
def KeepsChannel (f : PixelFormat) (c a : Nat) : Prop :=
  match f with
  | prgb32 => c ≤ a
  | xrgb32 => a = 255
  | a8 => c = 0
  | none | frgb32 | zero32 => False

instance (f : PixelFormat) (c a : Nat) : Decidable (f.GivesChannel c a) :=
  match f with
  | none => inferInstanceAs (Decidable False)
  | prgb32 => inferInstanceAs (Decidable (c ≤ a))
  | xrgb32 | frgb32 => inferInstanceAs (Decidable (a = 255))
  | a8 => inferInstanceAs (Decidable (c = a))
  | zero32 => inferInstanceAs (Decidable (c = 0 ∧ a = 0))

instance (f : PixelFormat) (c a : Nat) : Decidable (f.KeepsChannel c a) :=
  match f with
  | prgb32 => inferInstanceAs (Decidable (c ≤ a))
  | xrgb32 => inferInstanceAs (Decidable (a = 255))
  | a8 => inferInstanceAs (Decidable (c = 0))
  | none | frgb32 | zero32 => inferInstanceAs (Decidable False)

/-- The pixels that a source of the format can give: premultiplied ones, opaque ones, ones with
the same value in every channel, or none but transparent black. -/
def Yields (f : PixelFormat) (p : UInt32) : Prop :=
  f.GivesChannel (unpack p).b (alphaOf p) ∧ f.GivesChannel (unpack p).g (alphaOf p) ∧
    f.GivesChannel (unpack p).r (alphaOf p)

/-- The pixels that a destination of the format can hold: premultiplied ones, opaque ones, or ones
without color. -/
def Stores (f : PixelFormat) (p : UInt32) : Prop :=
  f.KeepsChannel (unpack p).b (alphaOf p) ∧ f.KeepsChannel (unpack p).g (alphaOf p) ∧
    f.KeepsChannel (unpack p).r (alphaOf p)

instance (f : PixelFormat) (p : UInt32) : Decidable (f.Yields p) :=
  inferInstanceAs (Decidable (_ ∧ _ ∧ _))

instance (f : PixelFormat) (p : UInt32) : Decidable (f.Stores p) :=
  inferInstanceAs (Decidable (_ ∧ _ ∧ _))

/-- A pixel as a destination of the format keeps it. -/
def stored (f : PixelFormat) (p : UInt32) : UInt32 :=
  match f with
  | a8 => ofAlpha (alphaOf p)
  | xrgb32 => withFullAlpha p
  | none | prgb32 | frgb32 | zero32 => p

end PixelFormat

theorem withFullAlpha_idem (p : UInt32) : withFullAlpha (withFullAlpha p) = withFullAlpha p := by
  simp only [withFullAlpha, UInt32.or_assoc, UInt32.or_self]

/-- Nothing is lost of a pixel that the destination holds. -/
theorem PixelFormat.Stores.stored_eq {f : PixelFormat} {p : UInt32} (h : f.Stores p)
    (hf : f = .prgb32 ∨ f = .a8) : f.stored p = p := by
  obtain rfl | rfl := hf
  · rfl
  · obtain ⟨hb, hg, hr⟩ := h
    have hp : unpack p = ⟨0, 0, 0, alphaOf p⟩ :=
      Channels.mk.injEq .. |>.mpr ⟨hb, hg, hr, rfl⟩
    have ha : unpack (ofAlpha (alphaOf p)) = unpack p := by
      rw [hp, unpack_ofAlpha (unpack_le p).2.2.2]
    rw [PixelFormat.stored, ← pack_unpack (ofAlpha _), ha, pack_unpack]

/-- A written pixel is read back as the format keeps it. -/
theorem readTarget?_writeTarget? {f : PixelFormat} {bytes out : Array UInt8} {start x : Nat}
    {p : UInt32} (h : writeTarget? f bytes start x p = some out) :
    readTarget? f out start x = some (f.stored p) := by
  cases f with
  | a8 =>
    have := alphaOf_lt p
    simp only [writeTarget?, writeByte?, Option.dite_none_right_eq_some, Option.some.injEq] at h
    obtain ⟨hi, rfl⟩ := h
    simp [readTarget?, PixelFormat.stored, Nat.mod_eq_of_lt this]
  | xrgb32 =>
    simp only [readTarget?, readWord?_writeWord? h, Option.map_some, withFullAlpha_idem,
      PixelFormat.stored]
  | none | prgb32 | frgb32 | zero32 => exact readWord?_writeWord? h

/-! ## The bytes of a pixel -/

theorem getElem?_writeWord? {bytes out : Array UInt8} {i j : Nat} {w : UInt32}
    (h : writeWord? bytes i w = some out) (hj : j < i ∨ i + 4 ≤ j) : out[j]? = bytes[j]? := by
  simp only [writeWord?, Option.dite_none_right_eq_some, Option.some.injEq] at h
  obtain ⟨hi, rfl⟩ := h
  rw [Array.getElem?_setIfInBounds_ne (by omega), Array.getElem?_setIfInBounds_ne (by omega),
    Array.getElem?_setIfInBounds_ne (by omega), Array.getElem?_set_ne _ (by omega)]

theorem readWord?_congr {a b : Array UInt8} {i k : Nat}
    (h : ∀ j, j < 4 → a[i + j]? = b[k + j]?) : readWord? a i = readWord? b k := by
  have h0 : a[i]? = b[k]? := h 0 (by omega)
  rw [readWord?, readWord?, h0, h 1 (by omega), h 2 (by omega), h 3 (by omega)]

/-- A write leaves the bytes of other pixels alone. -/
theorem getElem?_writeTarget? {f : PixelFormat} {bytes out : Array UInt8} {start x j : Nat}
    {p : UInt32} (hf : f.isDrawable) (h : writeTarget? f bytes start x p = some out)
    (hj : j < start + f.bytesPerPixel * x ∨ start + f.bytesPerPixel * x + f.bytesPerPixel ≤ j) :
    out[j]? = bytes[j]? := by
  cases f with
  | a8 =>
    change j < start + 1 * x ∨ start + 1 * x + 1 ≤ j at hj
    simp only [writeTarget?, writeByte?, Option.dite_none_right_eq_some, Option.some.injEq] at h
    obtain ⟨hi, rfl⟩ := h
    rw [Array.getElem?_set_ne _ (by omega)]
  | prgb32 | xrgb32 => exact getElem?_writeWord? h hj
  | none | frgb32 | zero32 => cases hf

theorem size_writeTarget? {f : PixelFormat} {bytes out : Array UInt8} {start x : Nat} {p : UInt32}
    (h : writeTarget? f bytes start x p = some out) : out.size = bytes.size := by
  cases f with
  | a8 =>
    simp only [writeTarget?, writeByte?, Option.dite_none_right_eq_some, Option.some.injEq] at h
    obtain ⟨hi, rfl⟩ := h
    exact Array.size_set ..
  | none | prgb32 | xrgb32 | frgb32 | zero32 => exact size_writeWord? h

/-- A read only depends on the bytes of the pixel, wherever the row lies. -/
theorem readTarget?_shift {f : PixelFormat} {a b : Array UInt8} {start start' x : Nat}
    (hf : f.isDrawable)
    (h : ∀ j, j < f.bytesPerPixel →
      a[start + f.bytesPerPixel * x + j]? = b[start' + f.bytesPerPixel * x + j]?) :
    readTarget? f a start x = readTarget? f b start' x := by
  cases f with
  | a8 =>
    change ∀ j, j < 1 → a[start + 1 * x + j]? = b[start' + 1 * x + j]? at h
    have h0 := h 0 Nat.one_pos
    rw [Nat.one_mul, Nat.add_zero, Nat.add_zero] at h0
    rw [readTarget?, readTarget?, h0]
  | prgb32 => exact readWord?_congr h
  | xrgb32 => exact congrArg (Option.map withFullAlpha) (readWord?_congr h)
  | none | frgb32 | zero32 => cases hf

theorem readTarget?_congr {f : PixelFormat} {a b : Array UInt8} {start x : Nat}
    (hf : f.isDrawable)
    (h : ∀ j, start + f.bytesPerPixel * x ≤ j →
      j < start + f.bytesPerPixel * x + f.bytesPerPixel → a[j]? = b[j]?) :
    readTarget? f a start x = readTarget? f b start x :=
  readTarget?_shift hf fun j hj => h _ (by omega) (by omega)

/-- A pixel whose bytes exist can be read. -/
theorem isSome_readTarget? {f : PixelFormat} {bytes : Array UInt8} {start x : Nat}
    (hf : f.isDrawable) (h : start + f.bytesPerPixel * x + f.bytesPerPixel ≤ bytes.size) :
    ∃ d, readTarget? f bytes start x = some d := by
  cases f with
  | a8 =>
    change start + 1 * x + 1 ≤ bytes.size at h
    have hi : start + x < bytes.size := by omega
    exact ⟨_, by rw [readTarget?, Array.getElem?_eq_getElem hi]; rfl⟩
  | prgb32 => exact Option.isSome_iff_exists.mp (isSome_readWord? h)
  | xrgb32 =>
    obtain ⟨d, hd⟩ := Option.isSome_iff_exists.mp (isSome_readWord? h)
    exact ⟨_, congrArg (Option.map withFullAlpha) hd⟩
  | none | frgb32 | zero32 => cases hf

/-- Where no pixel can be read none can be written. -/
theorem writeTarget?_eq_none {f : PixelFormat} {bytes : Array UInt8} {start x : Nat} (p : UInt32)
    (h : readTarget? f bytes start x = none) : writeTarget? f bytes start x p = none := by
  have hword {i : Nat} (hi : readWord? bytes i = none) (w : UInt32) :
      writeWord? bytes i w = none := by
    refine dif_neg fun hlt => ?_
    have hsome := isSome_readWord? hlt
    rw [hi] at hsome
    cases hsome
  cases f with
  | a8 =>
    have hi : ¬ start + x < bytes.size := by simpa [readTarget?] using h
    exact dif_neg hi
  | xrgb32 => exact hword (Option.map_eq_none_iff.mp h) _
  | none | prgb32 | frgb32 | zero32 => exact hword h p

/-- A pixel whose bytes exist can be written. -/
theorem isSome_writeTarget? {f : PixelFormat} {bytes : Array UInt8} {start x : Nat} (p : UInt32)
    (hf : f.isDrawable) (h : start + f.bytesPerPixel * x + f.bytesPerPixel ≤ bytes.size) :
    ∃ out, writeTarget? f bytes start x p = some out := by
  cases f with
  | a8 =>
    change start + 1 * x + 1 ≤ bytes.size at h
    exact ⟨_, dif_pos (by omega)⟩
  | prgb32 | xrgb32 => exact ⟨_, dif_pos h⟩
  | none | frgb32 | zero32 => cases hf

/-- What is read is as the format keeps it. -/
theorem stored_of_readTarget? {f : PixelFormat} {bytes : Array UInt8} {start x : Nat} {p : UInt32}
    (h : readTarget? f bytes start x = some p) : f.stored p = p := by
  cases f with
  | a8 =>
    obtain ⟨b, -, rfl⟩ := Option.map_eq_some_iff.mp h
    exact congrArg ofAlpha (alphaOf_ofAlpha b.toNat_lt)
  | xrgb32 =>
    obtain ⟨w, -, rfl⟩ := Option.map_eq_some_iff.mp h
    exact withFullAlpha_idem w
  | none | prgb32 | frgb32 | zero32 => rfl

end Scanline
