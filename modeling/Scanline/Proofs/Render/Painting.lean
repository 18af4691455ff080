import Scanline.Proofs.Numeric.Words
import Scanline.Proofs.Operator.Channels

/-
  Painting. What a fill does to a surface is said pixel by pixel (`Surface.Painted`): the pixels of
  a domain are drawn from an image with a coverage, and no other byte changes. Paintings of
  disjoint domains compose (`Painted.trans`), and where the coverage is zero nothing needs to be
  done (`Painted.zero`). `draw?_painted`: a single pixel is painted.
-/

namespace Scanline

namespace Surface

/-- The rows of the surface are there, and hold its columns. -/
structure Valid (s : Surface) : Prop where
  drawable : s.format.isDrawable
  row : s.width * s.format.bytesPerPixel ≤ s.stride
  rows : 0 < s.height →
    s.stride * (s.height - 1) + s.width * s.format.bytesPerPixel ≤ s.bytes.size

/-- Two surfaces differ in their pixels alone. -/
structure SameShape (s t : Surface) : Prop where
  stride : t.stride = s.stride
  width : t.width = s.width
  height : t.height = s.height
  format : t.format = s.format
  top : t.top = s.top
  size : t.bytes.size = s.bytes.size

/-- Column `x` of row `y` belongs to the surface. -/
def Inside (s : Surface) (y : Int) (x : Nat) : Prop :=
  x < s.width ∧ s.top ≤ y ∧ y < s.top + s.height

/-- The byte `i` belongs to the pixel in column `x` of row `y`. -/
def PixelByte (s : Surface) (y : Int) (x i : Nat) : Prop :=
  s.rowStart y + s.format.bytesPerPixel * x ≤ i ∧
    i < s.rowStart y + s.format.bytesPerPixel * x + s.format.bytesPerPixel

/-- A surface is made where the bytes have its rows. -/
theorem ofBytes_eq_ok {bytes : Array UInt8} {stride width height : Nat} {format : PixelFormat}
    {s : Surface} (h : ofBytes bytes stride width height format = .ok s) :
    s = { bytes, stride, width, height, format } ∧ s.Valid := by
  unfold ofBytes at h
  dsimp only at h
  split at h
  · cases h
  · rename_i hformat
    split at h
    · cases h
    · rename_i hrow
      split at h
      · cases h
      · rename_i size hsize
        obtain ⟨hsize, -⟩ := size64?_eq_some.mp hsize
        split at h
        · cases h
        · rename_i hfit
          cases h
          refine ⟨rfl, by simpa using hformat, Nat.le_of_not_lt hrow, fun hpos => ?_⟩
          rw [if_pos hpos] at hsize
          exact hsize ▸ Nat.le_of_not_lt hfit

theorem valid_ofBytes {bytes : Array UInt8} {stride width height : Nat} {format : PixelFormat}
    {s : Surface} (h : ofBytes bytes stride width height format = .ok s) : s.Valid :=
  (ofBytes_eq_ok h).2

theorem eq_of_ofBytes {bytes : Array UInt8} {stride width height : Nat} {format : PixelFormat}
    {s : Surface} (h : ofBytes bytes stride width height format = .ok s) :
    s = { bytes, stride, width, height, format } :=
  (ofBytes_eq_ok h).1

namespace SameShape

theorem refl (s : Surface) : s.SameShape s := ⟨rfl, rfl, rfl, rfl, rfl, rfl⟩

theorem symm {s t : Surface} (h : s.SameShape t) : t.SameShape s :=
  ⟨h.stride.symm, h.width.symm, h.height.symm, h.format.symm, h.top.symm, h.size.symm⟩

theorem trans {s t u : Surface} (h : s.SameShape t) (h' : t.SameShape u) : s.SameShape u :=
  ⟨h'.stride.trans h.stride, h'.width.trans h.width, h'.height.trans h.height,
    h'.format.trans h.format, h'.top.trans h.top, h'.size.trans h.size⟩

variable {s t : Surface} (h : s.SameShape t)

include h in
theorem valid (hv : s.Valid) : t.Valid := by
  refine ⟨h.format ▸ hv.drawable, ?_, ?_⟩
  · rw [h.width, h.format, h.stride]
    exact hv.row
  · rw [h.width, h.format, h.stride, h.height, h.size]
    exact hv.rows

include h in
theorem rowStart (y : Int) : t.rowStart y = s.rowStart y := by
  rw [Surface.rowStart, Surface.rowStart, h.top, h.stride]

include h in
theorem inside_iff (y : Int) (x : Nat) : t.Inside y x ↔ s.Inside y x := by
  rw [Inside, Inside, h.width, h.top, h.height]

include h in
theorem pixelByte_iff (y : Int) (x i : Nat) : t.PixelByte y x i ↔ s.PixelByte y x i := by
  rw [PixelByte, PixelByte, h.rowStart, h.format]

end SameShape

/-- The rows of a box that the surface holds are rows of the surface, and no more than a 32-bit
word counts. -/
theorem Holds.rows {s : Surface} {b : Box} (h : s.Holds b) (hb : b.y0 ≤ b.y1) :
    (b.height : Int) = b.y1 - b.y0 ∧ s.top ≤ b.y0 ∧ b.y1 ≤ s.top + s.height := by
  obtain ⟨-, -, htop, hbottom⟩ := h
  have hle := wrap32_natCast_le s.height
  have hmax := (wrap32_mem s.height).2
  unfold bottom at hbottom
  exact ⟨Box.height_eq hb (by omega), htop, by omega⟩

/-- The columns of a box that the surface holds are columns of the surface. -/
theorem Holds.columns {s : Surface} {b : Box} (h : s.Holds b) :
    0 ≤ b.x0 ∧ b.x1 ≤ s.width :=
  ⟨h.1, h.2.1.trans (wrap32_natCast_le s.width)⟩

/-! ## One pixel -/

/-- The bytes of a pixel of the surface exist. -/
theorem Valid.pixel_le {s : Surface} (hv : s.Valid) {y : Int} {x : Nat} (h : s.Inside y x) :
    s.rowStart y + s.format.bytesPerPixel * x + s.format.bytesPerPixel ≤ s.bytes.size := by
  obtain ⟨hx, hy, hy'⟩ := h
  have hrows := hv.rows (by omega)
  have hrow : (y - s.top).toNat * s.stride ≤ (s.height - 1) * s.stride :=
    Nat.mul_le_mul_right _ (by omega)
  have hcol : s.format.bytesPerPixel * (x + 1) ≤ s.format.bytesPerPixel * s.width :=
    Nat.mul_le_mul_left _ hx
  rw [Nat.mul_comm s.stride, Nat.mul_comm s.width] at hrows
  rw [Nat.mul_add, Nat.mul_one] at hcol
  unfold rowStart
  omega

/-- No byte belongs to two pixels. -/
theorem Valid.pixelByte_unique {s : Surface} (hv : s.Valid) {y y' : Int} {x x' i : Nat}
    (hy : s.top ≤ y) (hy' : s.top ≤ y') (hx : x < s.width) (hx' : x' < s.width)
    (h : s.PixelByte y x i) (h' : s.PixelByte y' x' i) : y' = y ∧ x' = x := by
  have hbytes {z : Int} {w : Nat} (hw : w < s.width) (hb : s.PixelByte z w i) :
      ∃ k, k < s.format.bytesPerPixel ∧ w * s.format.bytesPerPixel + k < s.stride ∧
        i = (z - s.top).toNat * s.stride + (w * s.format.bytesPerPixel + k) := by
    have hcol := (Nat.mul_le_mul_right s.format.bytesPerPixel hw).trans hv.row
    rw [Nat.succ_mul] at hcol
    obtain ⟨hlo, hhi⟩ := hb
    rw [rowStart, Nat.mul_comm s.format.bytesPerPixel] at hlo hhi
    exact ⟨i - ((z - s.top).toNat * s.stride + w * s.format.bytesPerPixel), by omega, by omega,
      by omega⟩
  obtain ⟨k, hk, hlt, hi⟩ := hbytes hx h
  obtain ⟨k', hk', hlt', hi'⟩ := hbytes hx' h'
  obtain ⟨hrow, hcol⟩ := row_column_unique hlt' hlt (hi'.symm.trans hi)
  obtain ⟨hx, -⟩ := row_column_unique hk' hk hcol
  exact ⟨by omega, hx⟩

/-- A pixel that keeps its bytes keeps its value. -/
theorem pixel?_congr {s t : Surface} (hv : s.Valid) (h : s.SameShape t) {y : Int} {x : Nat}
    (hb : ∀ i, s.PixelByte y x i → t.bytes[i]? = s.bytes[i]?) : t.pixel? x y = s.pixel? x y := by
  unfold pixel?
  rw [h.width, h.format, h.rowStart]
  split
  · exact readTarget?_congr hv.drawable fun i hi hi' => hb i ⟨hi, hi'⟩
  · rfl

theorem Valid.isSome_pixel? {s : Surface} (hv : s.Valid) {y : Int} {x : Nat}
    (h : s.Inside y x) : ∃ d, s.pixel? x y = some d := by
  obtain ⟨d, hd⟩ := isSome_readTarget? hv.drawable (hv.pixel_le h)
  exact ⟨d, (if_pos h.1).trans hd⟩

/-- A pixel of the surface can be set; it is read back as the format keeps it, and no other byte
changes. -/
theorem Valid.setPixel? {s : Surface} (hv : s.Valid) {y : Int} {x : Nat} (h : s.Inside y x)
    (p : UInt32) : ∃ t, s.setPixel? x y p = some t ∧ s.SameShape t ∧
      t.pixel? x y = some (s.format.stored p) ∧
      ∀ i, ¬ s.PixelByte y x i → t.bytes[i]? = s.bytes[i]? := by
  obtain ⟨out, hout⟩ := isSome_writeTarget? p hv.drawable (hv.pixel_le h)
  refine ⟨{ s with bytes := out }, ?_, ⟨rfl, rfl, rfl, rfl, rfl, size_writeTarget? hout⟩, ?_, ?_⟩
  · rw [Surface.setPixel?, if_pos h.1]
    exact congrArg (Option.map _) hout
  · exact (if_pos h.1).trans (readTarget?_writeTarget? hout)
  · intro i hi
    refine getElem?_writeTarget? hv.drawable hout ?_
    change ¬ (_ ≤ i ∧ i < _) at hi
    exact (not_and_or.mp hi).imp Nat.lt_of_not_le Nat.le_of_not_lt

end Surface

/-! ## Many pixels -/

/-- The pixels of `domain` are drawn from `image` with the coverage `cov`, both by row and column,
and the bytes of all other pixels are kept. -/
structure Surface.Painted (op : Operator) (image : Int → Int → UInt32) (cov : Int → Nat → Nat)
    (domain : Int → Nat → Prop) (s t : Surface) : Prop where
  shape : s.SameShape t
  inside : ∀ {y x}, domain y x → s.Inside y x
  drawn : ∀ {y x}, domain y x → ∀ d, s.pixel? x y = some d →
    t.pixel? x y = some (op.drawn s.format d (image y x) (cov y x))
  kept : ∀ i, (∀ y x, domain y x → ¬ s.PixelByte y x i) → t.bytes[i]? = s.bytes[i]?

namespace Surface.Painted

variable {op : Operator} {image : Int → Int → UInt32} {cov : Int → Nat → Nat}
  {domain domain' : Int → Nat → Prop} {s t u : Surface}

/-- A pixel outside of the domain keeps its value. -/
theorem pixel?_of_not_mem (hv : s.Valid) (h : s.Painted op image cov domain t) {y : Int}
    {x : Nat} (hy : s.top ≤ y) (hd : ¬ domain y x) : t.pixel? x y = s.pixel? x y := by
  by_cases hx : x < s.width
  · refine pixel?_congr hv h.shape fun i hi => h.kept i fun y' x' hd' hi' => hd ?_
    obtain ⟨rfl, rfl⟩ := hv.pixelByte_unique hy (h.inside hd').2.1 hx (h.inside hd').1 hi hi'
    exact hd'
  · rw [pixel?, pixel?, if_neg hx, if_neg (h.shape.width ▸ hx)]

theorem refl (op : Operator) (image : Int → Int → UInt32) (cov : Int → Nat → Nat) (s : Surface) :
    s.Painted op image cov (fun _ _ => False) s :=
  ⟨.refl s, False.elim, False.elim, fun _ _ => rfl⟩

/-- Without coverage nothing has to be done. -/
theorem zero (op : Operator) (image : Int → Int → UInt32)
    (hi : ∀ {y x}, domain y x → s.Inside y x) (hz : ∀ {y x}, domain y x → cov y x = 0) :
    s.Painted op image cov domain s := by
  refine ⟨.refl s, hi, fun {y x} hd d hp => ?_, fun _ _ => rfl⟩
  rw [hz hd, Operator.drawn_zero, hp]
  rw [pixel?, if_pos (hi hd).1] at hp
  rw [stored_of_readTarget? hp]

/-- One painting after another on pixels that the first one leaves alone. -/
theorem trans (hv : s.Valid) (h : s.Painted op image cov domain t)
    (h' : t.Painted op image cov domain' u) (hd : ∀ y x, domain y x → ¬ domain' y x) :
    s.Painted op image cov (fun y x => domain y x ∨ domain' y x) u := by
  have hv' := h.shape.valid hv
  have hin {y x} (hx : domain' y x) : s.Inside y x := (h.shape.inside_iff y x).mp (h'.inside hx)
  refine ⟨h.shape.trans h'.shape, fun hx => hx.elim h.inside hin, ?_, fun i hi => ?_⟩
  · rintro y x (hx | hx) d hp
    · have hy : t.top ≤ y := h.shape.top.trans_le (h.inside hx).2.1
      rw [h'.pixel?_of_not_mem hv' hy (hd y x hx), h.drawn hx d hp]
    · have hy : s.top ≤ y := (hin hx).2.1
      have hp' := (h.pixel?_of_not_mem hv hy fun hx' => hd y x hx' hx).trans hp
      rw [h'.drawn hx d hp', h.shape.format]
  · rw [h'.kept i fun y x hx hb => hi y x (.inr hx) ((h.shape.pixelByte_iff y x i).mp hb),
      h.kept i fun y x hx => hi y x (.inl hx)]

/-- The same painting under another name. -/
theorem congr {cov' : Int → Nat → Nat} (h : s.Painted op image cov domain t)
    (hd : ∀ y x, domain' y x ↔ domain y x) (hc : ∀ y x, domain' y x → cov' y x = cov y x) :
    s.Painted op image cov' domain' t := by
  refine ⟨h.shape, fun hx => h.inside ((hd _ _).mp hx), fun {y x} hx d hp => ?_, fun i hi => ?_⟩
  · rw [hc y x hx, h.drawn ((hd y x).mp hx) d hp]
  · exact h.kept i fun y x hx => hi y x ((hd y x).mpr hx)

end Surface.Painted

/-- The columns `a` to `b` of row `y`. -/
def Surface.strip (y : Int) (a b : Nat) : Int → Nat → Prop := fun y' x => y' = y ∧ a ≤ x ∧ x < b

/-- The columns left of `w` in the rows `y0` to `y1`. -/
def Surface.block (y0 y1 : Int) (w : Nat) : Int → Nat → Prop := fun y x => y0 ≤ y ∧ y < y1 ∧ x < w

namespace Surface

/-- A copy of the source in the surface's format is stored like the source. -/
theorem setPixel?_combine_srcCopy (s : Surface) (x : Nat) (y : Int) (dst src : UInt32) :
    s.setPixel? x y (Operator.srcCopy.combine s.format dst src) = s.setPixel? x y src := by
  unfold Operator.combine
  split
  · rename_i hformat
    have halpha : alphaOf (ofAlpha (alphaOf src)) = alphaOf src := alphaOf_ofAlpha (alphaOf_lt src)
    obtain ⟨bytes, stride, width, height, format, top⟩ := s
    cases hformat
    simp only [setPixel?, writeTarget?, Operator.onAlpha_srcCopy, halpha]
  · rw [Operator.onColor_srcCopy]

/-- A full copy that does not look at what is there draws like any other operator. -/
theorem draw?_eq (s : Surface) (op : Operator) (x : Nat) (y : Int) (src : UInt32) (m : Nat) :
    s.draw? op x y src m = (s.pixel? x y).bind fun dst =>
      s.setPixel? x y (applyMask (op.combine s.format dst src) dst m) := by
  unfold draw?
  split
  · rename_i hcopy
    obtain ⟨rfl, hm⟩ := hcopy
    cases hp : s.pixel? x y with
    | some dst => rw [Option.bind_some, applyMask, if_pos hm, setPixel?_combine_srcCopy]
    | none =>
      unfold pixel? at hp
      unfold setPixel?
      split at hp
      · rename_i hx
        rw [if_pos hx]
        exact Option.map_eq_none_iff.mpr (writeTarget?_eq_none src hp)
      · rename_i hx
        exact if_neg hx
  · rfl

/-- Drawing a source pixel paints one pixel. -/
theorem Valid.draw?_painted {s : Surface} (hv : s.Valid) {y : Int} {x : Nat} (h : s.Inside y x)
    (op : Operator) (image : Int → Int → UInt32) {cov : Int → Nat → Nat} {p : UInt32} {m : Nat}
    (hp : image y x = p) (hm : cov y x = m) :
    ∃ t, s.draw? op x y p m = some t ∧ s.Painted op image cov (strip y x (x + 1)) t := by
  obtain ⟨d, hd⟩ := hv.isSome_pixel? h
  obtain ⟨t, ht, hshape, hpixel, hkept⟩ :=
    hv.setPixel? h (applyMask (op.combine s.format d p) d m)
  have honly {y' x'} (hx : strip y x (x + 1) y' x') : y' = y ∧ x' = x := by
    obtain ⟨rfl, hx⟩ := hx
    exact ⟨rfl, by omega⟩
  refine ⟨t, by rw [draw?_eq, hd]; exact ht, hshape, fun hx => ?_, fun hx d' hd' => ?_, fun i hi => ?_⟩
  · obtain ⟨rfl, rfl⟩ := honly hx
    exact h
  · obtain ⟨rfl, rfl⟩ := honly hx
    obtain rfl := Option.some.inj (hd.symm.trans hd')
    rw [hp, hm, hpixel]
    rfl
  · exact hkept i (hi y x ⟨rfl, le_rfl, Nat.lt_succ_self x⟩)

end Surface

end Scanline
