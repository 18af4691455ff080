import Scanline.Proofs.Pixel.Raw
import Scanline.Proofs.Render.Painting

/-
  Layers. What drawing does to a surface can be said to the last byte by the coverages that are laid
  over each pixel, one after the other (`Surface.Layered`). Drawings one after the other append
  their layers (`Layered.trans`), whether they meet in a pixel or not. A pixel without layers keeps
  its bytes (`Layered.getElem?_of_nil`), and drawings with the same layers give the same surface
  (`Layered.unique`).
-/

namespace Scanline

/-- The raw word of a pixel over which a source has been drawn with each of the coverages. -/
def Operator.laid (op : Operator) (f : PixelFormat) (src : UInt32) (ms : List Nat) (w : UInt32) :
    UInt32 :=
  ms.foldl (fun w m => op.drawn f (f.stored w) src m) w

namespace Operator

variable {op : Operator} {f : PixelFormat} {src : UInt32}

theorem laid_cons (m : Nat) (ms : List Nat) (w : UInt32) :
    op.laid f src (m :: ms) w = op.laid f src ms (op.drawn f (f.stored w) src m) := rfl

theorem laid_append (ms ms' : List Nat) (w : UInt32) :
    op.laid f src (ms ++ ms') w = op.laid f src ms' (op.laid f src ms w) :=
  List.foldl_append

theorem stored_drawn (dst : UInt32) (m : Nat) :
    f.stored (op.drawn f dst src m) = op.drawn f dst src m := by
  rw [drawn, PixelFormat.stored_stored]

/-- Read back, the layers are drawn one after the other over the pixel. -/
theorem stored_laid (ms : List Nat) (w : UInt32) :
    f.stored (op.laid f src ms w) = ms.foldl (op.drawn f · src ·) (f.stored w) := by
  induction ms generalizing w with
  | nil => rfl
  | cons m ms ih =>
    rw [laid_cons, ih, stored_drawn, List.foldl_cons]

/-- A pixel with a layer has no undefined byte left. -/
theorem stored_laid_of_ne_nil (op : Operator) (f : PixelFormat) (src : UInt32) {ms : List Nat}
    (h : ms ≠ []) (w : UInt32) : f.stored (op.laid f src ms w) = op.laid f src ms w := by
  obtain ⟨rest, m, rfl⟩ := List.eq_nil_or_concat ms |>.resolve_left h
  rw [List.concat_eq_append, laid_append]
  exact stored_drawn _ m

end Operator

namespace Surface

/-- The raw word of the pixel in column `x` of row `y`. -/
def raw? (s : Surface) (x : Nat) (y : Int) : Option UInt32 :=
  readRaw? s.format s.bytes (s.rowStart y) x

/-- From `s` to `t` a source has been drawn over each pixel with the coverages of its layers, by row
and column, and the bytes of no pixel are as they were. -/
structure Layered (op : Operator) (image : Int → Int → UInt32) (layers : Int → Nat → List Nat)
    (s t : Surface) : Prop where
  shape : s.SameShape t
  raw : ∀ {y x}, s.Inside y x →
    t.raw? x y = (s.raw? x y).map (op.laid s.format (image y x) (layers y x))
  kept : ∀ i, (∀ y x, s.Inside y x → ¬ s.PixelByte y x i) → t.bytes[i]? = s.bytes[i]?

variable {op : Operator} {image : Int → Int → UInt32} {layers layers' : Int → Nat → List Nat}
  {s t u : Surface} {y : Int} {x i : Nat}

theorem Valid.exists_raw? (hv : s.Valid) (h : s.Inside y x) : ∃ w, s.raw? x y = some w :=
  isSome_readRaw? hv.drawable (hv.pixel_le h)

theorem pixel?_eq_map_raw? (h : x < s.width) :
    s.pixel? x y = (s.raw? x y).map s.format.stored := by
  rw [pixel?, if_pos h, readTarget?_eq_map]
  rfl

/-- A pixel with the same raw word has the same bytes. -/
theorem getElem?_of_raw?_eq (hv : s.Valid) (hshape : s.SameShape t) (h : s.Inside y x)
    (hw : t.raw? x y = s.raw? x y) (hi : s.PixelByte y x i) : t.bytes[i]? = s.bytes[i]? := by
  obtain ⟨w, hs⟩ := hv.exists_raw? h
  have ht := hw.trans hs
  unfold raw? at hs ht
  rw [hshape.format, hshape.rowStart] at ht
  obtain ⟨hlo, hhi⟩ := hi
  have hbyte := readRaw?_inj hv.drawable ht hs (Nat.sub_lt_left_of_lt_add hlo hhi)
  rwa [Nat.add_sub_cancel' hlo] at hbyte

namespace Layered

theorem refl (op : Operator) (image : Int → Int → UInt32) (s : Surface) :
    s.Layered op image (fun _ _ => []) s :=
  ⟨.refl s, fun _ => Option.map_id'.symm, fun _ _ => rfl⟩

theorem trans (h : s.Layered op image layers t) (h' : t.Layered op image layers' u) :
    s.Layered op image (fun y x => layers y x ++ layers' y x) u := by
  refine ⟨h.shape.trans h'.shape, fun {y x} hx => ?_, fun i hi => ?_⟩
  · rw [h'.raw ((h.shape.inside_iff y x).mpr hx), h.raw hx, h.shape.format, Option.map_map]
    refine congrArg (Option.map · _) (funext fun w => ?_)
    exact (Operator.laid_append _ _ w).symm
  · rw [h'.kept i fun y x hx hb => ?_, h.kept i hi]
    exact hi y x ((h.shape.inside_iff y x).mp hx) ((h.shape.pixelByte_iff y x i).mp hb)

/-- The same layers under another name. -/
theorem congr (h : s.Layered op image layers t)
    (hl : ∀ y x, s.Inside y x → layers' y x = layers y x) : s.Layered op image layers' t :=
  ⟨h.shape, fun {y x} hx => by rw [h.raw hx, hl y x hx], h.kept⟩

/-- A pixel is read back as its layers were drawn. -/
theorem pixel?_eq (h : s.Layered op image layers t) (hx : s.Inside y x) :
    t.pixel? x y = (s.pixel? x y).map fun d =>
      (layers y x).foldl (op.drawn s.format · (image y x) ·) d := by
  have hx' : x < t.width := h.shape.width ▸ hx.1
  rw [pixel?_eq_map_raw? hx', pixel?_eq_map_raw? hx.1, h.raw hx, h.shape.format, Option.map_map,
    Option.map_map]
  exact congrArg (Option.map · _) (funext fun w => Operator.stored_laid _ w)

/-- A byte outside of all pixels, or of a pixel without layers, is kept. -/
theorem getElem?_of_nil (hv : s.Valid) (h : s.Layered op image layers t)
    (hi : ∀ y x, s.Inside y x → s.PixelByte y x i → layers y x = []) :
    t.bytes[i]? = s.bytes[i]? := by
  by_cases hpixel : ∃ y x, s.Inside y x ∧ s.PixelByte y x i
  · obtain ⟨y, x, hx, hb⟩ := hpixel
    refine getElem?_of_raw?_eq hv h.shape hx ?_ hb
    rw [h.raw hx, hi y x hx hb]
    exact Option.map_id'
  · exact h.kept i fun y x hx hb => hpixel ⟨y, x, hx, hb⟩

/-- Surfaces drawn from the same one agree in a byte if they have the same raw words. -/
theorem getElem?_eq (hv : s.Valid) (h : s.Layered op image layers t)
    (h' : s.Layered op image layers' u)
    (hi : ∀ y x, s.Inside y x → s.PixelByte y x i → u.raw? x y = t.raw? x y) :
    u.bytes[i]? = t.bytes[i]? := by
  by_cases hpixel : ∃ y x, s.Inside y x ∧ s.PixelByte y x i
  · obtain ⟨y, x, hx, hb⟩ := hpixel
    exact getElem?_of_raw?_eq (h.shape.valid hv) (h.shape.symm.trans h'.shape)
      ((h.shape.inside_iff y x).mpr hx) (hi y x hx hb) ((h.shape.pixelByte_iff y x i).mpr hb)
  · have hout : ∀ y x, s.Inside y x → ¬ s.PixelByte y x i := fun y x hx hb =>
      hpixel ⟨y, x, hx, hb⟩
    exact (h'.kept i hout).trans (h.kept i hout).symm

/-- Drawings that leave the same raw words give the same surface. -/
theorem ext (hv : s.Valid) (h : s.Layered op image layers t) (h' : s.Layered op image layers' u)
    (hw : ∀ y x, s.Inside y x → u.raw? x y = t.raw? x y) : u = t := by
  have hbytes : u.bytes = t.bytes := by
    refine Array.ext_getElem? fun i => ?_
    exact getElem?_eq hv h h' fun y x hx _ => hw y x hx
  obtain ⟨hstride, hwidth, hheight, hformat, htop, -⟩ := h.shape.symm.trans h'.shape
  cases t
  cases u
  rw [Surface.mk.injEq]
  exact ⟨hbytes, hstride, hwidth, hheight, hformat, htop⟩

theorem unique (hv : s.Valid) (h : s.Layered op image layers t)
    (h' : s.Layered op image layers u) : u = t :=
  ext hv h h' fun _ _ hx => (h'.raw hx).trans (h.raw hx).symm

end Layered

/-- One layer over one pixel. -/
def single (y : Int) (x m : Nat) : Int → Nat → List Nat := fun y' x' =>
  if y' = y ∧ x' = x then [m] else []

/-- Drawing a source pixel lays its coverage over one pixel. -/
theorem Valid.draw?_layered (hv : s.Valid) (h : s.Inside y x) (op : Operator)
    (image : Int → Int → UInt32) (m : Nat) :
    ∃ t, s.draw? op x y (image y x) m = some t ∧ s.Layered op image (single y x m) t := by
  obtain ⟨w, hw⟩ := hv.exists_raw? h
  have hd : s.pixel? x y = some (s.format.stored w) := by
    rw [pixel?_eq_map_raw? h.1, hw]
    rfl
  obtain ⟨out, hout⟩ := isSome_writeTarget?
    (applyMask (op.combine s.format (s.format.stored w) (image y x)) (s.format.stored w) m)
    hv.drawable (hv.pixel_le h)
  have hset : s.setPixel? x y
      (applyMask (op.combine s.format (s.format.stored w) (image y x)) (s.format.stored w) m) =
        some { s with bytes := out } := by
    rw [Surface.setPixel?, if_pos h.1]
    exact congrArg (Option.map _) hout
  have hkept : ∀ i, ¬ s.PixelByte y x i → out[i]? = s.bytes[i]? := fun i hi =>
    getElem?_writeTarget? hv.drawable hout
      ((not_and_or.mp hi).imp Nat.lt_of_not_le Nat.le_of_not_lt)
  refine ⟨{ s with bytes := out }, by rw [draw?_eq, hd]; exact hset,
    ⟨rfl, rfl, rfl, rfl, rfl, size_writeTarget? hout⟩, fun {y' x'} hx => ?_, fun i hi => ?_⟩
  · by_cases heq : y' = y ∧ x' = x
    · obtain ⟨rfl, rfl⟩ := heq
      rw [single, if_pos ⟨rfl, rfl⟩, hw]
      exact readRaw?_writeTarget? hout
    · have hraw : readRaw? s.format out (s.rowStart y') x' = s.raw? x' y' :=
        readRaw?_shift hv.drawable fun j hj => hkept _ fun hb => heq <|
          hv.pixelByte_unique h.2.1 hx.2.1 h.1 hx.1 hb ⟨Nat.le_add_right _ _, by omega⟩
      rw [single, if_neg heq]
      exact hraw.trans Option.map_id'.symm
  · exact hkept i (hi y x h)

end Surface

end Scanline
