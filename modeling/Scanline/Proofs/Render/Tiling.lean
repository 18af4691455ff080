import Scanline.Proofs.Render.Bands

/-
  Bands as parts of a surface. The rows of the bands tile the rows of the surface (`tiles_bands`),
  and each band has the bytes of its rows (`getElem?_row_band`). Where every band has been drawn by
  the same layers, so has the surface that they make up (`Redrawn.layered`).
-/

namespace Scanline

namespace Surface

/-- The surfaces have rows each, one after the other, from `lo` to `hi`. -/
def Tiles (lo hi : Int) : List Surface → Prop
  | [] => lo = hi
  | b :: rest => b.top = lo ∧ b.top < b.bottom ∧ Tiles b.bottom hi rest

variable {s : Surface} {n i : Nat} {y : Int}

theorem bottom_eq (h : (s.height : Int) ≤ maxInt32) : s.bottom = s.top + s.height := by
  rw [bottom, wrap32_of_range (by unfold minInt32; omega) h]

theorem bandCount_mul_ge (s : Surface) {n : Nat} (hn : 0 < n) : s.height ≤ s.bandCount n * n := by
  have hdiv := Nat.div_add_mod' (s.height + n - 1) n
  have hmod := Nat.mod_lt (s.height + n - 1) hn
  unfold bandCount
  omega

theorem height_band_le (h : (s.height : Int) ≤ maxInt32) (n i : Nat) :
    ((s.band n i).height : Int) ≤ maxInt32 := by
  change ((min n (s.height - i * n) : Nat) : Int) ≤ maxInt32
  omega

/-- The rows of the bands are all rows of the surface, each of them once. -/
theorem tiles_bands (h : (s.height : Int) ≤ maxInt32) (n : Nat) :
    Tiles s.top s.bottom (s.bands n) := by
  rw [bands, List.range_eq_range']
  have hn : 0 < max n 1 := by omega
  generalize max n 1 = n at hn
  -- the bands that are left tile the rows that are left
  suffices htiles : ∀ m k, k + m = s.bandCount n → Tiles (s.top + (min (k * n) s.height : Nat))
      s.bottom ((List.range' k m).map (s.band n)) by
    simpa using htiles _ 0 (Nat.zero_add _)
  intro m
  induction m with
  | zero =>
    intro k hk
    have hge := s.bandCount_mul_ge hn
    rw [← hk, Nat.add_zero] at hge
    rw [Nat.min_eq_right hge, ← bottom_eq h]
    rfl
  | succ m ih =>
    intro k hk
    have hrows : k * n < s.height := mul_lt_of_lt_bandCount hn (by omega)
    have hbottom : (s.band n k).bottom = s.top + (min ((k + 1) * n) s.height : Nat) := by
      rw [bottom_eq (height_band_le h n k), Nat.succ_mul]
      change s.top + (k * n : Nat) + (min n (s.height - k * n) : Nat) = _
      omega
    rw [Nat.min_eq_left hrows.le, List.range'_succ, List.map_cons]
    refine ⟨rfl, ?_, ?_⟩
    · rw [hbottom, Nat.succ_mul]
      change s.top + (k * n : Nat) < _
      omega
    · rw [hbottom]
      exact ih (k + 1) (by omega)

/-- A band has the bytes of its rows. -/
theorem getElem?_row_band {j : Nat} (hj : j < s.stride) (hlo : (s.band n i).top ≤ y)
    (hhi : y < (s.band n i).top + (s.band n i).height) :
    (s.band n i).bytes[(s.band n i).rowStart y + j]? = s.bytes[s.rowStart y + j]? := by
  have hrow : (y - (s.band n i).top).toNat + 1 ≤ n := by
    change y < (s.band n i).top + (min n (s.height - i * n) : Nat) at hhi
    omega
  have hlt : (s.band n i).rowStart y + j < s.stride * n := by
    refine Nat.lt_of_lt_of_le (Nat.add_lt_add_left hj _) ?_
    change (y - (s.band n i).top).toNat * s.stride + s.stride ≤ s.stride * n
    rw [← Nat.succ_mul, Nat.mul_comm s.stride]
    exact Nat.mul_le_mul_right _ hrow
  rw [getElem?_band s i hlt, rowStart_band hlo, Nat.add_assoc]

/-! ## Layers of bands -/

variable {bands : List Surface} {op : Operator} {image : Int → Int → UInt32}
  {layers : Int → Nat → List Nat}

/-- Bands that are put together leave the bytes behind them alone. -/
theorem Redrawn.getElem?_of_ge (h : s.Redrawn n bands) {k : Nat}
    (hk : s.bandCount (max n 1) * (s.stride * max n 1) ≤ k) :
    (s.withBands n bands).bytes[k]? = s.bytes[k]? := by
  have hsize : (bands.foldl (fun bytes b => bytes ++ b.bytes) #[]).size =
      ((s.bands n).foldl (fun bytes b => bytes ++ b.bytes) #[]).size := by
    rw [size_foldl_bytes, size_foldl_bytes, sizes_of_sameShape h]
  have hle : ((s.bands n).foldl (fun bytes b => bytes ++ b.bytes) #[]).size ≤ k := by
    rw [Surface.bands, bandBytes_take, Array.size_extract]
    omega
  have hjoin : ((s.bands n).foldl (fun bytes b => bytes ++ b.bytes) #[] ++
      s.bytes.extract (s.bandCount (max n 1) * (s.stride * max n 1)) s.bytes.size)[k]? =
        s.bytes[k]? := congrArg (fun s => s.bytes[k]?) (s.join_bands n)
  rw [Array.getElem?_append_right hle, ← hsize] at hjoin
  exact (Array.getElem?_append_right (hsize.trans_le hle)).trans hjoin

/-- A byte of a pixel of a band is a byte of the same pixel of the surface. -/
theorem pixelByte_of_band {x j : Nat} (hin : (s.band n i).Inside y x)
    (h : (s.band n i).PixelByte y x j) : s.PixelByte y x (i * (s.stride * n) + j) := by
  unfold PixelByte at *
  rw [rowStart_band hin.2.1]
  change _ + s.format.bytesPerPixel * x ≤ j ∧ j < _ + s.format.bytesPerPixel * x + _ at h
  change (s.band n i).rowStart y + s.format.bytesPerPixel * x ≤ j ∧
    j < (s.band n i).rowStart y + s.format.bytesPerPixel * x + s.format.bytesPerPixel at h
  omega

/-- Where every band has been drawn with the layers, so has the surface that they make up. -/
theorem Redrawn.layered (h : s.Redrawn n bands) (hv : s.Valid)
    (hl : ∀ i b, i < s.bandCount (max n 1) → bands[i]? = some b →
      (s.band (max n 1) i).Layered op image layers b) :
    s.Layered op image layers (s.withBands n bands) := by
  have hn : 0 < max n 1 := by omega
  refine ⟨h.sameShape, fun {y x} hin => ?_, fun k hk => ?_⟩
  · obtain ⟨i, hi, hrows, hband⟩ := exists_band hn hin
    obtain ⟨b, hb, -⟩ := h.getElem? hi
    rw [h.raw?_eq hv hi hrows hb hband, (hl i b hi hb).raw hband,
      raw?_band (hv.band hn hrows) hband]
    rfl
  · by_cases hlt : k < s.bandCount (max n 1) * (s.stride * max n 1)
    · obtain ⟨i, j, hi, hj, rfl⟩ : ∃ i j, i < s.bandCount (max n 1) ∧ j < s.stride * max n 1 ∧
          k = i * (s.stride * max n 1) + j := by
        have hpos : 0 < s.stride * max n 1 := Nat.pos_of_mul_pos_left (Nat.zero_lt_of_lt hlt)
        exact ⟨_, _, (Nat.div_lt_iff_lt_mul hpos).mpr hlt, Nat.mod_lt k hpos,
          (Nat.div_add_mod' k _).symm⟩
      obtain ⟨b, hb, -⟩ := h.getElem? hi
      rw [h.getElem?_withBands hv hi (mul_lt_of_lt_bandCount hn hi) hb hj, (hl i b hi hb).kept,
        getElem?_band s i hj]
      exact fun y x hin hbyte => hk y x (inside_of_band hin).1 (pixelByte_of_band hin hbyte)
    · exact h.getElem?_of_ge (Nat.le_of_not_lt hlt)

/-! ## One band at a time -/

/-- The number of the band that has row `y`. -/
def bandOf (s : Surface) (n : Nat) (y : Int) : Nat := (y - s.top).toNat / max n 1

theorem bandOf_eq {x : Nat} (h : (s.band (max n 1) i).Inside y x) : s.bandOf n y = i := by
  obtain ⟨-, hlo, hhi⟩ := inside_of_band h
  rw [← Nat.succ_mul] at hhi
  exact Nat.div_eq_of_lt_le hlo hhi

theorem length_bands (s : Surface) (n : Nat) : (s.bands n).length = s.bandCount (max n 1) := by
  rw [bands, List.length_map, List.length_range]

/-- The layers of the rows that bands of the given numbers have. -/
def inBands (s : Surface) (n : Nat) (numbers : List Nat) (layers : Int → Nat → List Nat) :
    Int → Nat → List Nat := fun y x => if s.bandOf n y ∈ numbers then layers y x else []

/-- The surface with another surface in the place of its `i`-th band. -/
def withBand (s : Surface) (n i : Nat) (b : Surface) : Surface :=
  s.withBands n ((s.bands n).set i b)

theorem redrawn_set {b : Surface} (hb : (s.band (max n 1) i).SameShape b) :
    s.Redrawn n ((s.bands n).set i b) := by
  refine List.forall₂_iff_get.mpr ⟨(List.length_set).symm, fun k hk hk' => ?_⟩
  rw [List.get_eq_getElem, List.get_eq_getElem, List.getElem_set]
  split
  · rename_i heq
    subst heq
    rwa [getElem_bands]
  · exact .refl _

/-- A band that has been drawn with the layers is drawn with those of its rows in the surface. -/
theorem withBand_layered (hv : s.Valid) (hi : i < s.bandCount (max n 1)) {b : Surface}
    (hl : (s.band (max n 1) i).Layered op image layers b) :
    s.Layered op image (s.inBands n [i] layers) (s.withBand n i b) := by
  refine (redrawn_set hl.shape).layered hv fun k c hk hc => ?_
  rw [List.getElem?_set, length_bands, if_pos hi] at hc
  split at hc
  · rename_i heq
    subst heq
    obtain rfl := Option.some.inj hc
    refine hl.congr fun y x hin => if_pos ?_
    exact List.mem_singleton.mpr (bandOf_eq hin)
  · rename_i hne
    rw [List.getElem?_eq_getElem (s.length_bands n ▸ hk), getElem_bands] at hc
    obtain rfl := Option.some.inj hc
    refine (Layered.refl op image _).congr fun y x hin => if_neg fun hmem => hne ?_
    rw [← List.mem_singleton.mp hmem, bandOf_eq hin]

end Surface

end Scanline
