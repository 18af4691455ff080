import Mathlib.Data.List.Forall2
import Scanline.Proofs.Render.Layers

/-
  Surfaces that are drawn band by band. A band shows the pixels of its rows (`pixel?_band`), and
  where the bands are put together again after drawing, a pixel is that of its band
  (`Redrawn.pixel?`). So what holds of every pixel of every band holds of every pixel of the
  surface, and the other way round (`All.band`, `all_withBands`).
-/

namespace Scanline

namespace Surface

/-- Every pixel of the surface has the property. -/
def All (R : UInt32 → Prop) (s : Surface) : Prop :=
  ∀ y x p, s.Inside y x → s.pixel? x y = some p → R p

variable {R : UInt32 → Prop} {s : Surface} {n i : Nat} {y : Int} {x : Nat}

/-! ## One band -/

/-- A band that is counted has a row. -/
theorem mul_lt_of_lt_bandCount (hn : 0 < n) (hi : i < s.bandCount n) : i * n < s.height := by
  unfold bandCount at hi
  rw [Nat.lt_div_iff_mul_lt hn] at hi
  omega

/-- The bytes of the bands before the last one are all there. -/
theorem Valid.bandBytes_le (hv : s.Valid) (hi : i * n < s.height) :
    i * (s.stride * n) ≤ s.bytes.size := by
  have hrows := hv.rows (by omega)
  have hle : s.stride * (i * n) ≤ s.stride * (s.height - 1) := Nat.mul_le_mul_left _ (by omega)
  rw [Nat.mul_left_comm]
  omega

theorem Valid.band (hv : s.Valid) (hn : 0 < n) (hi : i * n < s.height) : (s.band n i).Valid where
  drawable := hv.drawable
  row := hv.row
  rows _ := by
    change s.stride * (min n (s.height - i * n) - 1) + s.width * s.format.bytesPerPixel ≤
      (s.bytes.extract (i * (s.stride * n)) ((i + 1) * (s.stride * n))).size
    generalize hh : min n (s.height - i * n) = h
    have hrow := hv.row
    have hrows := hv.rows (by omega)
    have hlast : s.stride * (h - 1) + s.stride = s.stride * h := by
      rw [← Nat.mul_succ]
      congr 1
      omega
    have hband : s.stride * h ≤ s.stride * n := Nat.mul_le_mul_left _ (by omega)
    have hbefore : i * (s.stride * n) + s.stride * (h - 1) ≤ s.stride * (s.height - 1) := by
      rw [Nat.mul_left_comm, ← Nat.mul_add]
      exact Nat.mul_le_mul_left _ (by omega)
    rw [Array.size_extract, Nat.succ_mul]
    omega

theorem inside_of_band (h : (s.band n i).Inside y x) :
    s.Inside y x ∧ i * n ≤ (y - s.top).toNat ∧ (y - s.top).toNat < i * n + n := by
  obtain ⟨hx, htop, hbottom⟩ := h
  change s.top + (i * n : Nat) ≤ y at htop
  change y < s.top + (i * n : Nat) + (min n (s.height - i * n) : Nat) at hbottom
  exact ⟨⟨hx, by omega, by omega⟩, by omega, by omega⟩

/-- Every pixel of the surface lies in a band. -/
theorem exists_band (hn : 0 < n) (h : s.Inside y x) :
    ∃ i, i < s.bandCount n ∧ i * n < s.height ∧ (s.band n i).Inside y x := by
  obtain ⟨hx, htop, hbottom⟩ := h
  generalize hr : (y - s.top).toNat = r
  have hrow := Nat.div_add_mod' r n
  have hmod := Nat.mod_lt r hn
  refine ⟨r / n, ?_, by omega, hx, ?_, ?_⟩
  · unfold bandCount
    rw [Nat.lt_div_iff_mul_lt hn]
    omega
  · change s.top + (r / n * n : Nat) ≤ y
    omega
  · change y < s.top + (r / n * n : Nat) + (min n (s.height - r / n * n) : Nat)
    omega

/-- The rows of a band start as far into its bytes as they are behind the band's first row. -/
theorem rowStart_band (h : (s.band n i).top ≤ y) :
    s.rowStart y = i * (s.stride * n) + (s.band n i).rowStart y := by
  have htop : (s.band n i).top = s.top + (i * n : Nat) := rfl
  have hstride : (s.band n i).stride = s.stride := rfl
  rw [rowStart, rowStart, htop, hstride, Nat.mul_left_comm, Nat.mul_comm s.stride, ← Nat.add_mul]
  congr 1
  omega

/-- A band has its part of the bytes. -/
theorem getElem?_band (s : Surface) {n j : Nat} (i : Nat) (hj : j < s.stride * n) :
    (s.band n i).bytes[j]? = s.bytes[i * (s.stride * n) + j]? := by
  change (s.bytes.extract (i * (s.stride * n)) ((i + 1) * (s.stride * n)))[j]? = _
  rw [Array.getElem?_extract, Nat.succ_mul]
  split
  · rfl
  · exact (Array.getElem?_eq_none (by omega)).symm

theorem size_band_le (s : Surface) (n i : Nat) : (s.band n i).bytes.size ≤ s.stride * n := by
  change (s.bytes.extract (i * (s.stride * n)) ((i + 1) * (s.stride * n))).size ≤ _
  rw [Array.size_extract, Nat.succ_mul]
  omega

/-- A band shows the raw words of its rows. -/
theorem raw?_band (hv : (s.band n i).Valid) (h : (s.band n i).Inside y x) :
    (s.band n i).raw? x y = s.raw? x y := by
  have hle := (hv.pixel_le h).trans (s.size_band_le n i)
  unfold raw?
  rw [rowStart_band h.2.1]
  refine readRaw?_shift hv.drawable fun j hj => ?_
  rw [getElem?_band s i (Nat.lt_of_lt_of_le (Nat.add_lt_add_left hj _) hle)]
  congr 1
  simp only [Nat.add_assoc]

/-- A band shows the pixels of its rows. -/
theorem pixel?_band (hv : (s.band n i).Valid) (h : (s.band n i).Inside y x) :
    (s.band n i).pixel? x y = s.pixel? x y := by
  rw [pixel?_eq_map_raw? h.1, raw?_band hv h, pixel?_eq_map_raw? (inside_of_band h).1.1]
  rfl

/-- What holds of the pixels of a surface holds of those of a band. -/
theorem All.band (h : s.All R) (hv : (s.band n i).Valid) : (s.band n i).All R := by
  intro y x p hin hp
  exact h y x p (inside_of_band hin).1 ((pixel?_band hv hin).symm.trans hp)

/-! ## Bands put together -/

/-- Putting bands together leaves the bytes before them alone. -/
theorem getElem?_foldl_bytes_of_lt (bands : List Surface) {bytes : Array UInt8} {k : Nat}
    (hk : k < bytes.size) :
    (bands.foldl (fun bytes b => bytes ++ b.bytes) bytes)[k]? = bytes[k]? := by
  induction bands generalizing bytes with
  | nil => rfl
  | cons b rest ih =>
    have hk' : k < (bytes ++ b.bytes).size := by
      rw [Array.size_append]
      omega
    rw [List.foldl_cons, ih hk', Array.getElem?_append_left hk]

/-- After bands of one size come the bytes of the next one. -/
theorem getElem?_foldl_bytes {bands : List Surface} {size j : Nat} {b : Surface}
    (bytes : Array UInt8) (hsize : ∀ k < i, ∀ c, bands[k]? = some c → c.bytes.size = size)
    (hb : bands[i]? = some b) (hj : j < b.bytes.size) :
    (bands.foldl (fun bytes b => bytes ++ b.bytes) bytes)[bytes.size + (i * size + j)]? =
      b.bytes[j]? := by
  induction bands generalizing bytes i with
  | nil => cases hb
  | cons c rest ih =>
    rw [List.foldl_cons]
    cases i with
    | zero =>
      obtain rfl : c = b := Option.some.inj hb
      rw [Nat.zero_mul, Nat.zero_add, getElem?_foldl_bytes_of_lt, Array.getElem?_append_right]
      · rw [Nat.add_sub_cancel_left]
      · exact Nat.le_add_right _ _
      · rw [Array.size_append]
        omega
    | succ i =>
      have hc : c.bytes.size = size := hsize 0 (Nat.succ_pos i) c rfl
      have hrest := ih (bytes ++ c.bytes) (fun k hk => hsize (k + 1) (Nat.succ_lt_succ hk)) hb
      rw [Array.size_append, hc] at hrest
      rw [Nat.succ_mul, ← hrest]
      congr 1
      omega

theorem size_foldl_bytes (bands : List Surface) (bytes : Array UInt8) :
    (bands.foldl (fun bytes b => bytes ++ b.bytes) bytes).size =
      bytes.size + (bands.map fun b => b.bytes.size).sum := by
  induction bands generalizing bytes with
  | nil => rfl
  | cons b rest ih =>
    rw [List.foldl_cons, ih, Array.size_append, List.map_cons, List.sum_cons, Nat.add_assoc]

/-- Surfaces that have been drawn in the place of the bands. -/
def Redrawn (s : Surface) (n : Nat) (bands : List Surface) : Prop :=
  List.Forall₂ SameShape (s.bands n) bands

variable {bands : List Surface}

theorem getElem_bands (hi : i < (s.bands n).length) : (s.bands n)[i] = s.band (max n 1) i := by
  simp only [Surface.bands, List.getElem_map, List.getElem_range]

theorem sizes_of_sameShape {bands bands' : List Surface} (h : List.Forall₂ SameShape bands bands') :
    (bands'.map fun b => b.bytes.size) = bands.map fun b => b.bytes.size := by
  induction h with
  | nil => rfl
  | cons hb _ ih => rw [List.map_cons, List.map_cons, hb.size, ih]

/-- A surface has its shape again when the bands are put together. -/
theorem Redrawn.sameShape (h : s.Redrawn n bands) : s.SameShape (s.withBands n bands) := by
  refine ⟨rfl, rfl, rfl, rfl, rfl, ?_⟩
  have hjoin : (s.withBands n (s.bands n)).bytes.size = s.bytes.size := by rw [join_bands]
  rw [← hjoin]
  unfold withBands
  dsimp only
  rw [Array.size_append, Array.size_append, size_foldl_bytes, size_foldl_bytes,
    sizes_of_sameShape h]

theorem Redrawn.getElem? (h : s.Redrawn n bands) (hi : i < s.bandCount (max n 1)) :
    ∃ b, bands[i]? = some b ∧ (s.band (max n 1) i).SameShape b := by
  have hcount : (s.bands n).length = s.bandCount (max n 1) := by
    rw [Surface.bands, List.length_map, List.length_range]
  have hlt : i < (s.bands n).length := hcount.symm ▸ hi
  have hlt' : i < bands.length := h.length_eq ▸ hlt
  refine ⟨bands[i], List.getElem?_eq_getElem hlt', ?_⟩
  have hshape := h.get hlt hlt'
  rwa [List.get_eq_getElem, List.get_eq_getElem, getElem_bands] at hshape

/-- The bands before one that is not empty have all of their bytes. -/
theorem Redrawn.size_eq (h : s.Redrawn n bands) (hv : s.Valid) {i k : Nat} {b : Surface}
    (hi : i < s.bandCount (max n 1)) (hrows : i * max n 1 < s.height) (hk : k < i)
    (hb : bands[k]? = some b) : b.bytes.size = s.stride * max n 1 := by
  obtain ⟨b', hb', hshape⟩ := h.getElem? (hk.trans hi)
  obtain rfl := Option.some.inj (hb.symm.trans hb')
  have hk' : (k + 1) * max n 1 ≤ i * max n 1 := Nat.mul_le_mul_right _ hk
  have hle := hv.bandBytes_le (hk'.trans_lt hrows)
  rw [hshape.size]
  change (s.bytes.extract (k * (s.stride * max n 1)) ((k + 1) * (s.stride * max n 1))).size = _
  rw [Array.size_extract, Nat.min_eq_left hle, Nat.succ_mul, Nat.add_sub_cancel_left]

/-- Bands that are put together have their bytes where they were cut out. -/
theorem Redrawn.getElem?_withBands (h : s.Redrawn n bands) (hv : s.Valid) {j : Nat} {b : Surface}
    (hi : i < s.bandCount (max n 1)) (hrows : i * max n 1 < s.height) (hb : bands[i]? = some b)
    (hj : j < s.stride * max n 1) :
    (s.withBands n bands).bytes[i * (s.stride * max n 1) + j]? = b.bytes[j]? := by
  by_cases hlt : j < b.bytes.size
  · have hsize : ∀ k < i, ∀ c, bands[k]? = some c → c.bytes.size = s.stride * max n 1 :=
      fun k hk c hc => h.size_eq hv hi hrows hk hc
    have hbyte := getElem?_foldl_bytes #[] hsize hb hlt
    rw [Array.size_empty, Nat.zero_add] at hbyte
    rw [← hbyte]
    rw [Array.getElem?_eq_getElem hlt] at hbyte
    exact Array.getElem?_append_left (Array.getElem?_eq_some_iff.mp hbyte).1
  · -- the last band may be short, and then nothing comes after it
    obtain ⟨b', hb', hshape⟩ := h.getElem? hi
    obtain rfl := Option.some.inj (hb.symm.trans hb')
    have hband := getElem?_band s i hj
    rw [Array.getElem?_eq_none (hshape.size ▸ Nat.le_of_not_lt hlt)] at hband
    rw [Array.getElem?_eq_none (Nat.le_of_not_lt hlt), Array.getElem?_eq_none]
    rw [h.sameShape.size]
    exact Array.getElem?_eq_none_iff.mp hband.symm

/-- A raw word of bands that are put together is that of its band. -/
theorem Redrawn.raw?_eq (h : s.Redrawn n bands) (hv : s.Valid) {b : Surface}
    (hi : i < s.bandCount (max n 1)) (hrows : i * max n 1 < s.height) (hb : bands[i]? = some b)
    (hin : (s.band (max n 1) i).Inside y x) : (s.withBands n bands).raw? x y = b.raw? x y := by
  obtain ⟨b', hb', hshape⟩ := h.getElem? hi
  obtain rfl := Option.some.inj (hb.symm.trans hb')
  have hle := ((hv.band (by omega) hrows).pixel_le hin).trans (s.size_band_le _ i)
  unfold raw?
  rw [h.sameShape.rowStart, rowStart_band hin.2.1, hshape.rowStart, hshape.format]
  refine readRaw?_shift hv.drawable fun j hj => ?_
  refine Eq.trans (congrArg _ ?_)
    (h.getElem?_withBands hv hi hrows hb (Nat.lt_of_lt_of_le (Nat.add_lt_add_left hj _) hle))
  rw [Nat.add_assoc, Nat.add_assoc]
  exact congrArg _ (Nat.add_assoc _ _ _).symm

/-- A pixel of bands that are put together is the pixel of its band. -/
theorem Redrawn.pixel? (h : s.Redrawn n bands) (hv : s.Valid) (hin : s.Inside y x) :
    ∃ b ∈ bands, b.Inside y x ∧ (s.withBands n bands).pixel? x y = b.pixel? x y := by
  obtain ⟨i, hi, hrows, hband⟩ := exists_band (show 0 < max n 1 by omega) hin
  obtain ⟨b, hb, hshape⟩ := h.getElem? hi
  have hin' := (hshape.inside_iff y x).mpr hband
  refine ⟨b, List.mem_of_getElem? hb, hin', ?_⟩
  rw [pixel?_eq_map_raw? (h.sameShape.width ▸ hin.1), h.raw?_eq hv hi hrows hb hband,
    pixel?_eq_map_raw? hin'.1, h.sameShape.format, hshape.format]
  rfl

/-- What holds of the pixels of all bands holds of the pixels of the surface. -/
theorem all_withBands (hv : s.Valid) (h : s.Redrawn n bands) (hR : ∀ b ∈ bands, b.All R) :
    (s.withBands n bands).All R := by
  intro y x p hin hp
  obtain ⟨b, hb, hin', hpixel⟩ := h.pixel? hv ((h.sameShape.inside_iff y x).mp hin)
  exact hR b hb y x p hin' (hpixel.symm.trans hp)

end Surface

end Scanline
