import Scanline.Proofs.Analytic.Consumption
import Scanline.Proofs.Canvas.Drawing
import Scanline.Proofs.Numeric.Truncation

/-
  What a canvas makes of the arguments of a fill. The sides of an image that has word sides hold
  every box that is cut to them (`holds_clampTo`), every rectangle (`holds_ofRect?`), and the rows
  of an analytic fill that are left find their buffers (`complete_dropRows`).
-/

namespace Scanline

/-- The sides of the image are unsigned 32-bit words, and a signed 64-bit word counts its bytes. -/
structure Image.Sized (i : Image) : Prop where
  width : i.width < 0x100000000
  height : i.height < 0x100000000
  bytes : (i.bytes.size : Int) ≤ maxInt64

theorem Image.Sized.size_lt {i : Image} (h : i.Sized) : i.bytes.size < 0x10000000000000000 := by
  have := h.bytes
  unfold maxInt64 at this
  omega

/-- The image holds the box of its own sides, however long they are. -/
theorem Image.holds_self (i : Image) : i.surface.Holds ⟨0, 0, wrap32 i.width, wrap32 i.height⟩ := by
  dsimp only [Surface.Holds, Surface.bottom, Image.surface]
  rw [Int.zero_add]
  exact ⟨le_rfl, le_rfl, le_rfl, le_rfl⟩

namespace Image.HasWordSides

variable {i : Image} {b : Box}

/-- The image holds what has no negative corner and ends where its sides do. -/
theorem holds (h : i.HasWordSides) (hx0 : 0 ≤ b.x0) (hx1 : b.x1 ≤ i.width) (hy0 : 0 ≤ b.y0)
    (hy1 : b.y1 ≤ i.height) : i.surface.Holds b := by
  obtain ⟨hwidth, hheight⟩ := h
  have hmin : minInt32 ≤ 0 := by decide
  have hw : wrap32 i.width = i.width := wrap32_of_range (hmin.trans (Int.natCast_nonneg _)) hwidth
  have hh : wrap32 i.height = i.height :=
    wrap32_of_range (hmin.trans (Int.natCast_nonneg _)) hheight
  refine ⟨hx0, hx1.trans_eq hw.symm, hy0, ?_⟩
  change b.y1 ≤ 0 + wrap32 i.height
  omega

theorem holds_clampTo (h : i.HasWordSides) (b : Box) :
    i.surface.Holds (b.clampTo i.width i.height) := by
  have hmax : (0 : Int) ≤ maxInt32 := by decide
  have hw : (0 : Int) ≤ min (i.width : Int) maxInt32 := le_min (Int.natCast_nonneg _) hmax
  have hh : (0 : Int) ≤ min (i.height : Int) maxInt32 := le_min (Int.natCast_nonneg _) hmax
  exact h.holds (clampInt_mem hw _).1 ((clampInt_mem hw _).2.trans (min_le_left _ _))
    (clampInt_mem hh _).1 ((clampInt_mem hh _).2.trans (min_le_left _ _))

end Image.HasWordSides

/-! ## Boxes and rectangles -/

theorem AlignedBox.bounds_of_ofBounds? {alpha : Nat} {bounds : Box} {b : AlignedBox}
    (h : ofBounds? alpha bounds = some b) : b.bounds = bounds := by
  unfold ofBounds? at h
  split at h
  · cases h
  · obtain rfl := Option.some.inj h
    rfl

theorem MaskFill.bounds_of_ofCommands? {alpha : Nat} {bounds : Box} {commands : List MaskCommand}
    {m : MaskFill} (h : ofCommands? alpha bounds commands = some m) : m.bounds = bounds := by
  unfold ofCommands? at h
  split at h
  · cases h
  · obtain rfl := Option.some.inj h
    rfl

theorem Image.HasWordSides.holds_ofRect? {i : Image} (h : i.HasWordSides) {alpha : Nat}
    {x0 y0 x1 y1 : Float} {b : FractionalBox}
    (hb : FractionalBox.ofRect? alpha ⟨x0, y0, smallerDouble x1 (Float.ofNat i.width),
      smallerDouble y1 (Float.ofNat i.height)⟩ = some b) : i.surface.Holds b.bounds := by
  obtain ⟨hx0, -⟩ := FractionalBox.columns_of_ofFixed? hb
  obtain ⟨hy0, hx1, hy1⟩ := FractionalBox.bounds_of_ofFixed? hb
  have hright := truncateToInt32_smallerDouble_le x1 h.1
  have hlower := truncateToInt32_smallerDouble_le y1 h.2
  dsimp only at hx1 hy1
  exact h.holds hx0 (by omega) hy0 (by omega)

/-! ## Rows of an analytic fill -/

/-- Where a box has something within the sides, its part there starts no earlier and ends no
later. -/
theorem Box.clampTo_within {b : Box} {w h : Nat} (hb : (b.clampTo w h).isEmpty = false) :
    (b.clampTo w h).y0 < (b.clampTo w h).y1 ∧ b.y0 ≤ (b.clampTo w h).y0 ∧
      (b.clampTo w h).y1 ≤ b.y1 ∧ (b.clampTo w h).x1 ≤ b.x1 := by
  simp only [isEmpty, Bool.or_eq_false_iff, decide_eq_false_iff_not, not_le] at hb
  obtain ⟨hx, hy⟩ := hb
  refine ⟨hy, ?_⟩
  unfold clampTo clampInt maxInt32 at *
  dsimp only at *
  split_ifs at * <;> omega

/-- The rows of the fill from row `b.y0` on are among those that its buffers hold. -/
theorem AnalyticFill.Complete.dropped {f : AnalyticFill} (hf : f.Complete)
    (hrows : (f.bounds.height : Int) = f.bounds.y1 - f.bounds.y0) {b : Box} (hlt : b.y0 < b.y1)
    (hy0 : f.bounds.y0 ≤ b.y0) (hy1 : b.y1 ≤ f.bounds.y1) {k : Nat}
    (hk : (b.y0 - f.bounds.y0).toNat = k) :
    0 < b.height ∧ k * f.bitStride + b.height * f.bitStride ≤ f.bits.size ∧
      k * f.cellStride + (b.height - 1) * f.cellStride + rightEnd f.bounds + 1 ≤ f.cells.size := by
  have hheight : (b.height : Int) = b.y1 - b.y0 := by
    have : (f.bounds.height : Int) < 4294967296 := by
      unfold Box.height
      omega
    unfold Box.height
    omega
  obtain ⟨n, hn⟩ : ∃ n, b.height = n + 1 := ⟨b.height - 1, by omega⟩
  obtain ⟨hcells, hbits⟩ := hf.row_le (show k + n < f.bounds.height by omega)
  rw [hn, Nat.add_sub_cancel, ← Nat.add_mul, ← Nat.add_mul]
  exact ⟨Nat.succ_pos n, hbits, hcells⟩

namespace Canvas

variable {f : AnalyticFill} {w h : Nat}

theorem reaches_clampTo (hf : f.Complete)
    (hrows : (f.bounds.height : Int) = f.bounds.y1 - f.bounds.y0)
    (hb : (f.bounds.clampTo w h).isEmpty = false) : reaches f (f.bounds.clampTo w h) = true := by
  obtain ⟨hlt, hy0, hy1, -⟩ := Box.clampTo_within hb
  obtain ⟨-, hbits, hcells⟩ := hf.dropped hrows hlt hy0 hy1 rfl
  unfold reaches
  simp only [Bool.and_eq_true, decide_eq_true_eq]
  omega

/-- The rows that are left of a fill find their buffers. -/
theorem complete_dropRows (hf : f.Complete)
    (hrows : (f.bounds.height : Int) = f.bounds.y1 - f.bounds.y0)
    (hb : (f.bounds.clampTo w h).isEmpty = false) (alpha : Nat) :
    (dropRows f (f.bounds.clampTo w h) alpha).Complete := by
  obtain ⟨hlt, hy0, hy1, hx1⟩ := Box.clampTo_within hb
  generalize f.bounds.clampTo w h = b at *
  generalize hk : (b.y0 - f.bounds.y0).toNat = k
  obtain ⟨hpos, hbits, hcells⟩ := hf.dropped hrows hlt hy0 hy1 hk
  obtain ⟨-, hwords, hstride, -, -⟩ := hf
  have hright : AnalyticFill.rightEnd b ≤ AnalyticFill.rightEnd f.bounds := Int.toNat_le_toNat hx1
  refine ⟨hlt, hright.trans hwords, (Nat.succ_le_succ hright).trans hstride, ?_, ?_⟩
  · change f.bitStride * b.height ≤ (f.bits.extract (_ * f.bitStride) f.bits.size).size
    rw [Array.size_extract, Nat.min_self, hk, Nat.mul_comm]
    omega
  · change f.cellStride * (b.height - 1) + AnalyticFill.rightEnd b + 1 ≤
      (f.cells.extract (_ * f.cellStride) f.cells.size).size
    rw [Array.size_extract, Nat.min_self, hk, Nat.mul_comm]
    omega

/-- What becomes of the canvas and how filling ends, whatever is given back of the buffers. Nothing
is drawn without coverage or bounds, the buffers may be too short, or else the rows that are left
are drawn with the style. -/
theorem fillAnalytic_cases {c : Canvas} {P : Canvas → Result → Prop}
    (hnone : mul255 f.alpha c.alpha = 0 ∨
      (f.bounds.clampTo c.image.width c.image.height).isEmpty = true → P c (.ok ()))
    (hshort : (f.bounds.clampTo c.image.width c.image.height).isEmpty = false →
      reaches f (f.bounds.clampTo c.image.width c.image.height) = false →
        P c (.error (.refused .analyticBuffers)))
    (hdrawn : mul255 f.alpha c.alpha ≠ 0 →
      (f.bounds.clampTo c.image.width c.image.height).isEmpty = false →
        let rows := dropRows f (f.bounds.clampTo c.image.width c.image.height)
          (mul255 f.alpha c.alpha)
        P (c.renderStyle (.analytic rows)).1 (c.renderStyle (.analytic rows)).2.2) :
    P (c.fillAnalytic f).1 (c.fillAnalytic f).2.2 := by
  unfold fillAnalytic
  extract_lets alpha bounds
  split
  · exact hnone ‹_›
  · rename_i hrendered
    obtain ⟨halpha, hbounds⟩ := not_or.mp hrendered
    have hbounds : bounds.isEmpty = false := Bool.eq_false_of_not_eq_true hbounds
    split
    · exact hshort hbounds (by simpa using ‹(!reaches f bounds) = true›)
    · have hrows := hdrawn halpha hbounds
      dsimp only at hrows
      change P (c.renderStyle (.analytic (dropRows f bounds alpha))).1 _ at hrows
      split
      rename_i c' left result hrender
      rw [hrender] at hrows
      split
      · split <;> exact hrows
      · exact hrows

/-- The box that is cleared has the sides of the image. -/
theorem clearFill?_eq_some {c : Canvas} {fill : Fill} (h : c.clearFill? = some fill) :
    ∃ b, AlignedBox.ofBounds? 255 ⟨0, 0, wrap32 c.image.width, wrap32 c.image.height⟩ = some b ∧
      Fill.alignedBox b = fill := by
  rw [clearFill?] at h
  exact Option.map_eq_some_iff.mp h

/-- Clearing draws a transparent box, if the image has any pixels. -/
theorem clear_cases {c : Canvas} {P : Canvas × Result → Prop}
    (hnone : c.clearFill? = none → P (c, .ok ()))
    (hsome : ∀ fill, c.clearFill? = some fill →
      P ((c.render .clear ⟨.solid 0, some .solid⟩ fill).1,
        (c.render .clear ⟨.solid 0, some .solid⟩ fill).2.2)) : P c.clear := by
  -- opened as a function: of an applied one the kernel would compute the words of the sides
  generalize hclear : Canvas.clear = f
  delta Canvas.clear at hclear
  subst hclear
  beta_reduce
  split
  · rename_i h
    exact hnone h
  · rename_i fill h
    exact hsome fill h

end Canvas

end Scanline
