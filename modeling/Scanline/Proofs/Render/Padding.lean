import Scanline.Proofs.Render.Layers

/-
  Layers without coverage. A layer of coverage zero changes no pixel that is read back, but it
  stores the pixel again and so sets an undefined byte. Where the layers of two drawings differ by
  zeros alone (`Padded`), the pixels are the same (`Layered.pixel?_eq_of_close`), and so are the
  bytes, undefined ones apart (`Layered.byte_of_close`).
-/

namespace Scanline

/-- Zeros have been inserted into a list of layers. -/
inductive Padded : List Nat → List Nat → Prop
  | nil : Padded [] []
  | cons (m : Nat) {ms ms' : List Nat} (h : Padded ms ms') : Padded (m :: ms) (m :: ms')
  | zero {ms ms' : List Nat} (h : Padded ms ms') : Padded ms (0 :: ms')

namespace Padded

variable {ms ms' ns ns' : List Nat}

theorem refl (ms : List Nat) : Padded ms ms := by
  induction ms with
  | nil => exact .nil
  | cons m ms ih => exact .cons m ih

theorem append (h : Padded ms ms') (h' : Padded ns ns') : Padded (ms ++ ns) (ms' ++ ns') := by
  induction h with
  | nil => exact h'
  | cons m _ ih => exact .cons m ih
  | zero _ ih => exact .zero ih

theorem eq_nil (h : Padded ms []) : ms = [] := by
  cases h
  rfl

variable {op : Operator} {f : PixelFormat} {src : UInt32}

/-- The zeros cannot be seen when the pixel is read back. -/
theorem stored_laid_eq (h : Padded ms ms') (w : UInt32) :
    f.stored (op.laid f src ms' w) = f.stored (op.laid f src ms w) := by
  induction h generalizing w with
  | nil => rfl
  | cons m _ ih => rw [Operator.laid_cons, ih, Operator.laid_cons]
  | zero _ ih =>
    rw [Operator.laid_cons, Operator.drawn_zero, ih, Operator.stored_laid, Operator.stored_laid,
      PixelFormat.stored_stored, PixelFormat.stored_stored]

/-- Words that are not read back differ only where all layers are zeros. -/
theorem laid_eq_or (h : Padded ms ms') (op : Operator) (f : PixelFormat) (src w : UInt32) :
    op.laid f src ms' w = op.laid f src ms w ∨
      op.laid f src ms w = w ∧ op.laid f src ms' w = f.stored w ∧ ms' ≠ ms := by
  by_cases hms' : ms' = []
  · subst hms'
    rw [h.eq_nil]
    exact .inl rfl
  · have hstored := Operator.stored_laid_of_ne_nil op f src hms' w
    by_cases hms : ms = []
    · subst hms
      refine .inr ⟨rfl, ?_, hms'⟩
      rw [← hstored, h.stored_laid_eq]
      rfl
    · left
      rw [← hstored, h.stored_laid_eq, Operator.stored_laid_of_ne_nil op f src hms]

end Padded

/-- Formats without an undefined byte keep raw words as they are. -/
theorem stored_of_readRaw? {f : PixelFormat} {bytes : Array UInt8} {start x : Nat} {w : UInt32}
    (hf : f ≠ .xrgb32) (h : readRaw? f bytes start x = some w) : f.stored w = w := by
  cases f with
  | xrgb32 => exact absurd rfl hf
  | a8 => exact stored_of_readTarget? (f := .a8) h
  | none | prgb32 | frgb32 | zero32 => rfl

/-- Full alpha sets the last byte of a word and no other. -/
theorem byteOfWord_withFullAlpha (w : UInt32) :
    byteOfWord (withFullAlpha w) 1 = byteOfWord w 1 ∧
      byteOfWord (withFullAlpha w) 0x100 = byteOfWord w 0x100 ∧
      byteOfWord (withFullAlpha w) 0x10000 = byteOfWord w 0x10000 ∧
      byteOfWord (withFullAlpha w) 0x1000000 = 255 := by
  have h := unpack_withFullAlpha w
  simp only [unpack, Channels.mk.injEq] at h
  obtain ⟨hb, hg, hr, ha⟩ := h
  refine ⟨?_, ?_, ?_, ?_⟩
  all_goals
    apply UInt8.toNat.inj
    simp only [byteOfWord, UInt8.toNat_ofNat', Nat.div_one]
  · exact hb
  · exact hg
  · exact hr
  · rw [ha]
    rfl

/-! ## Surfaces with close layers -/

/-- Layers are the same but for zeros, and all the same unless `P` holds. -/
def Close (P : Prop) (ms ms' : List Nat) : Prop := Padded ms ms' ∧ (ms' ≠ ms → P)

namespace Close

variable {P : Prop} {ms ms' ns ns' : List Nat}

theorem refl (ms : List Nat) : Close P ms ms := ⟨.refl ms, fun h => absurd rfl h⟩

theorem append (h : Close P ms ms')
    (h' : Close P ns ns') : Close P (ms ++ ns) (ms' ++ ns') := by
  refine ⟨h.1.append h'.1, fun hne => ?_⟩
  by_cases heq : ms' = ms
  · exact h'.2 fun heq' => hne (by rw [heq, heq'])
  · exact h.2 heq

end Close

namespace Surface

variable {op : Operator} {image : Int → Int → UInt32} {layers layers' : Int → Nat → List Nat}
  {s t t' : Surface} {P : Int → Nat → Prop}

/-- A raw word is the same, or it has been stored again as it was. -/
theorem Layered.raw?_eq_or (hv : s.Valid) (h : s.Layered op image layers t)
    (h' : s.Layered op image layers' t')
    (hclose : ∀ y x, Close (P y x) (layers y x) (layers' y x)) {y : Int} {x : Nat}
    (hx : s.Inside y x) : t'.raw? x y = t.raw? x y ∨ P y x ∧
      ∃ w, s.raw? x y = some w ∧ t.raw? x y = some w ∧ t'.raw? x y = some (s.format.stored w) := by
  obtain ⟨w, hw⟩ := hv.exists_raw? hx
  obtain ⟨hpadded, hsame⟩ := hclose y x
  rw [h.raw hx, h'.raw hx, hw, Option.map_some, Option.map_some]
  obtain heq | ⟨hkept, hstored, hne⟩ :=
    hpadded.laid_eq_or op s.format (image y x) w
  · exact .inl (congrArg some heq)
  · exact .inr ⟨hsame hne, w, rfl, congrArg some hkept, congrArg some hstored⟩

/-- Zeros cannot be seen when pixels are read back. -/
theorem Layered.pixel?_eq_of_close (hv : s.Valid) (h : s.Layered op image layers t)
    (h' : s.Layered op image layers' t')
    (hclose : ∀ y x, Close (P y x) (layers y x) (layers' y x)) {y : Int} {x : Nat}
    (hx : s.Inside y x) : t'.pixel? x y = t.pixel? x y := by
  rw [pixel?_eq_map_raw? (h'.shape.width ▸ hx.1), pixel?_eq_map_raw? (h.shape.width ▸ hx.1),
    h'.shape.format, h.shape.format]
  obtain heq | ⟨-, w, -, ht, ht'⟩ := h.raw?_eq_or hv h' hclose hx
  · rw [heq]
  · rw [ht, ht', Option.map_some, Option.map_some, PixelFormat.stored_stored]

/-- Without an undefined byte, and without coverage zero, close layers give the same surface. -/
theorem Layered.eq_of_close (hv : s.Valid) (h : s.Layered op image layers t)
    (h' : s.Layered op image layers' t')
    (hclose : ∀ y x, Close (P y x) (layers y x) (layers' y x))
    (hsafe : s.format ≠ .xrgb32 ∨ ∀ y x, ¬ P y x) : t' = t := by
  refine h.ext hv h' fun y x hx => ?_
  obtain heq | ⟨hP, w, hs, ht, ht'⟩ := h.raw?_eq_or hv h' hclose hx
  · exact heq
  · have hformat := hsafe.resolve_right fun hnone => hnone y x hP
    rw [ht, ht', stored_of_readRaw? hformat hs]

/-- Where close layers give different bytes, an undefined byte has been kept by the first ones and
set by the second ones. -/
theorem Layered.byte_of_close (hv : s.Valid) (h : s.Layered op image layers t)
    (h' : s.Layered op image layers' t')
    (hclose : ∀ y x, Close (P y x) (layers y x) (layers' y x)) {i : Nat}
    (hne : t'.bytes[i]? ≠ t.bytes[i]?) :
    ∃ y x, s.Inside y x ∧ P y x ∧ i = s.rowStart y + 4 * x + 3 ∧
      t.bytes[i]? = s.bytes[i]? ∧ t'.bytes[i]? = some 255 := by
  have hpixel : ∃ y x, s.Inside y x ∧ s.PixelByte y x i ∧ t'.raw? x y ≠ t.raw? x y := by
    by_contra hnone
    refine hne (h.getElem?_eq hv h' fun y x hx hb => by_contra fun hraw => ?_)
    exact hnone ⟨y, x, hx, hb, hraw⟩
  obtain ⟨y, x, hx, ⟨hlo, hhi⟩, hraw⟩ := hpixel
  obtain ⟨hP, w, hs, ht, ht'⟩ := (h.raw?_eq_or hv h' hclose hx).resolve_left hraw
  have hformat : s.format = .xrgb32 := by
    by_contra hformat
    exact hraw (by rw [ht, ht', stored_of_readRaw? hformat hs])
  unfold raw? at hs ht ht'
  rw [h.shape.format, h.shape.rowStart, hformat] at ht
  rw [h'.shape.format, h'.shape.rowStart, hformat] at ht'
  rw [hformat] at hs hlo hhi
  change s.rowStart y + 4 * x ≤ i at hlo
  change i < s.rowStart y + 4 * x + 4 at hhi
  obtain ⟨hs0, hs1, hs2, hs3⟩ := getElem?_of_readWord? hs
  obtain ⟨ht0, ht1, ht2, ht3⟩ := getElem?_of_readWord? ht
  obtain ⟨ht0', ht1', ht2', ht3'⟩ := getElem?_of_readWord? ht'
  obtain ⟨hb0, hb1, hb2, hb3⟩ := byteOfWord_withFullAlpha w
  obtain ⟨j, rfl⟩ := Nat.exists_eq_add_of_le hlo
  obtain rfl | rfl | rfl | rfl : j = 0 ∨ j = 1 ∨ j = 2 ∨ j = 3 := by omega
  · exact absurd (ht0'.trans ((congrArg some hb0).trans ht0.symm)) hne
  · exact absurd (ht1'.trans ((congrArg some hb1).trans ht1.symm)) hne
  · exact absurd (ht2'.trans ((congrArg some hb2).trans ht2.symm)) hne
  · exact ⟨y, x, hx, hP, rfl, ht3.trans hs3.symm, ht3'.trans (congrArg some hb3)⟩

end Surface

end Scanline
