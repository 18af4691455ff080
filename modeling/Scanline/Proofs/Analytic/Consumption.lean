import Scanline.Proofs.Analytic.Rows
import Scanline.Proofs.Canvas.Lookup
import Scanline.Proofs.Numeric.Words

/-
  What a canvas leaves in the buffers of an analytic fill. Wherever drawing is refused, cut short
  or not begun the buffers are set to zero, and drawing uses them up (`draw?_blank`). One way out
  is not covered: a fill that lies inside the image and comes down to nothing because of the source
  or the operator is given back as it was (`blank_fillAnalytic_iff`).
-/

namespace Scanline

namespace AnalyticFill

/-- Nothing is left in the buffers. -/
def Blank (f : AnalyticFill) : Prop :=
  (∀ (i : Nat) w, f.bits[i]? = some w → w = 0) ∧ ∀ (i : Nat) v, f.cells[i]? = some v → v = 0

/-- All cells that are not zero lie in marked groups of the rows, up to the cell after the last
column, and behind the rows no bit is set. -/
structure Tidy (f : AnalyticFill) : Prop where
  cells : ∀ (i : Nat) v, f.cells[i]? = some v → v ≠ 0 →
    ∃ r x, r < f.bounds.height ∧ x ≤ rightEnd f.bounds ∧ i = r * f.cellStride + x ∧
      f.Marked r (x / cellsPerBit)
  bits : ∀ (i : Nat) w, f.bounds.height * f.bitStride ≤ i → f.bits[i]? = some w → w = 0

theorem blank_emptied (f : AnalyticFill) : f.emptied.Blank := by
  refine ⟨fun i w hw => ?_, fun i v hv => ?_⟩
  · rw [emptied, Array.getElem?_map, Option.map_eq_some_iff] at hw
    exact hw.choose_spec.2.symm
  · rw [emptied, Array.getElem?_map, Option.map_eq_some_iff] at hv
    exact hv.choose_spec.2.symm

theorem Tidy.rowSparse {f : AnalyticFill} (h : f.Tidy) (hf : f.Complete) (r : Nat) :
    f.RowSparse r := by
  intro x hx
  have hcount : x < (f.line r).cellCount := by
    by_contra hcount
    exact hx (if_neg hcount)
  have hstride : x < f.cellStride := hcount.trans_le (Nat.min_le_left _ _)
  have hsize : r * f.cellStride + x < f.cells.size := by
    simp only [line] at hcount
    omega
  have hcell := Line.cell_of_getElem? hcount (Array.getElem?_eq_getElem hsize)
  obtain ⟨r', x', -, hx', hi, hmarked⟩ :=
    h.cells _ _ (Array.getElem?_eq_getElem hsize) fun hzero => hx (hcell.trans hzero)
  obtain ⟨rfl, rfl⟩ := row_column_unique hstride (by have := hf.2.2.1; omega) hi
  exact .inl hmarked

/-- When all rows have been used up nothing is left. -/
theorem UsedUp.blank {f f' : AnalyticFill} (h : UsedUp f f.bounds.height f') (ht : f.Tidy) :
    f'.Blank := by
  refine ⟨fun i w hw => ?_, fun i v hv => ?_⟩
  · by_cases hi : i < f.bounds.height * f.bitStride
    · rw [h.bitsZero i hi] at hw
      exact (Option.some.inj hw).symm
    · rw [h.bitsKept i (Nat.le_of_not_lt hi)] at hw
      exact ht.bits i w (Nat.le_of_not_lt hi) hw
  · by_contra hne
    obtain hold | hzero := h.cellsOld i
    · obtain ⟨r, x, hr, hx, rfl, -⟩ := ht.cells i v (hold ▸ hv) hne
      rw [h.cellsZero r x hr hx] at hv
      exact hne (Option.some.inj hv).symm
    · rw [hzero] at hv
      exact hne (Option.some.inj hv).symm

/-- Drawing uses up the buffers of a fill, whatever is drawn. -/
theorem draw?_blank {f f' : AnalyticFill} {s t : Stroke} (hf : f.Complete) (ht : f.Tidy)
    (hrows : (f.bounds.height : Int) = f.bounds.y1 - f.bounds.y0)
    (h : f.draw? s = some (f', t)) : f'.Blank := by
  rw [draw?, drawWith?, ← hrows, Int.toNat_natCast] at h
  have hused := (UsedUp.refl f).drawRows? hf (by omega) (fun r _ _ => ht.rowSparse hf r) h
  rw [Nat.zero_add] at hused
  exact hused.blank ht

end AnalyticFill

/-- A box that is its own part inside of an image has no more rows than a 32-bit word counts. -/
theorem Box.height_of_clampTo {b : Box} {w h : Nat} (hb : b.clampTo w h = b) (hy : b.y0 ≤ b.y1) :
    (b.height : Int) = b.y1 - b.y0 := by
  have hmax : (0 : Int) ≤ min (h : Int) maxInt32 := by
    unfold maxInt32
    omega
  have hy0 : 0 ≤ b.y0 := by
    rw [← hb]
    exact (clampInt_mem hmax b.y0).1
  have hy1 : b.y1 ≤ maxInt32 := by
    rw [← hb]
    exact (clampInt_mem hmax b.y1).2.trans (min_le_right _ _)
  exact Box.height_eq hy (by omega)

namespace Canvas
open AnalyticFill

/-- A fill that is not cut keeps its buffers. -/
theorem dropRows_bounds (f : AnalyticFill) (alpha : Nat) :
    dropRows f f.bounds alpha = { f with alpha } := by
  simp [dropRows]

/-- The fill is given to the pipelines whole: it has coverage and lies inside of the image. -/
structure TakesWhole (c : Canvas) (f : AnalyticFill) : Prop where
  alpha : mul255 f.alpha c.alpha ≠ 0
  bounds : f.bounds.clampTo c.image.width c.image.height = f.bounds
  nonempty : f.bounds.isEmpty = false

/-- A fill without coverage, or one that is cut, is emptied. -/
theorem fillAnalytic_of_not_whole {c : Canvas} {f : AnalyticFill} (h : ¬ c.TakesWhole f) :
    (c.fillAnalytic f).2.1 = f.emptied := by
  unfold fillAnalytic
  dsimp only
  split
  · rfl
  · rename_i hnone
    rw [not_or] at hnone
    split
    · rfl
    · have hbounds : ¬ f.bounds.clampTo c.image.width c.image.height = f.bounds := fun hb =>
        h ⟨hnone.1, hb, by simpa [hb] using hnone.2⟩
      simp only [if_neg hbounds]
      split <;> rfl

/-- A fill that is given to the pipelines whole keeps what they leave, and is emptied after an
error. -/
theorem fillAnalytic_of_whole {c : Canvas} {f : AnalyticFill} (h : c.TakesWhole f) :
    (c.fillAnalytic f).2.1 =
      match (c.renderStyle (.analytic { f with alpha := mul255 f.alpha c.alpha })).2 with
      | (.analytic left, .ok ()) => { f with bits := left.bits, cells := left.cells }
      | _ => f.emptied := by
  have hreaches : reaches f f.bounds = true := by simp [reaches]
  unfold fillAnalytic
  dsimp only
  rw [h.bounds, if_neg (by simp [h.alpha, h.nonempty]), if_neg (by simp [hreaches]),
    dropRows_bounds]
  generalize c.renderStyle _ = out
  obtain ⟨c', left, result⟩ := out
  cases left <;> cases result <;> simp only [if_true]

/-- A fill that is drawn by fill functions that stand ready leaves nothing in its buffers, but for
one that lies inside of the image and comes down to nothing because the source is pending or the
operator changes nothing. -/
theorem blank_fillAnalytic_iff {alpha : Nat} {bounds : Box} {rule : FillRule}
    {bits : Array UInt64} {bitStride : Nat} {cells : Array UInt32} {cellStride : Nat}
    {f : AnalyticFill}
    (hf : ofBuffers? alpha bounds rule bits bitStride cells cellStride = some f) (ht : f.Tidy)
    {c : Canvas} (hc : c.DrawsStatically) :
    (c.fillAnalytic f).2.1.Blank ↔ f.Blank ∨ ¬ (c.TakesWhole f ∧ c.Idle) := by
  have hcomplete := complete_of_ofBuffers? hf
  by_cases hwhole : c.TakesWhole f
  · rw [fillAnalytic_of_whole hwhole]
    rcases hc.renderStyle_cases (.analytic { f with alpha := mul255 f.alpha c.alpha }) fun _ => rfl
      with ⟨hidle, hrender⟩ | ⟨hidle, ⟨s, left, t, hdraw, hrender⟩ | ⟨e, hrender⟩⟩
    · rw [hrender]
      exact ⟨.inl, fun h => h.elim id fun h => absurd ⟨hwhole, hidle⟩ h⟩
    · rw [hrender]
      obtain ⟨⟨left, t⟩, hleft, hpair⟩ := Option.map_eq_some_iff.mp hdraw
      cases hpair
      have hrows := Box.height_of_clampTo hwhole.bounds hcomplete.1.le
      have hcomplete' : Complete { f with alpha := mul255 f.alpha c.alpha } := hcomplete
      have htidy : Tidy { f with alpha := mul255 f.alpha c.alpha } := ⟨ht.cells, ht.bits⟩
      have hblank := draw?_blank hcomplete' htidy hrows hleft
      exact iff_of_true hblank (.inr fun h => hidle h.2)
    · refine iff_of_true ?_ (.inr fun h => hidle h.2)
      generalize (c.renderStyle _).2 = out at hrender
      obtain ⟨left, result⟩ := out
      obtain rfl : result = .error e := hrender
      cases left <;> exact blank_emptied f
  · rw [fillAnalytic_of_not_whole hwhole]
    exact iff_of_true (blank_emptied f) (.inr fun h => hwhole h.1)

/-- A canvas that keeps the destination leaves the edges of a fill where they are. -/
theorem not_blank_fillAnalytic_dstCopy :
    ¬ (fillAnalytic
        { image := ⟨4, 1, .prgb32, Array.replicate 16 0⟩, provider := {}, op := .dstCopy }
        ⟨⟨0, 0, 4, 1⟩, 255, .nonZero, #[1], 1, #[0, 0x20000, 0, 0xFFFE0000, 0], 5⟩).2.1.Blank := by
  have hf : ofBuffers? 255 ⟨0, 0, 4, 1⟩ .nonZero #[1] 1 #[0, 0x20000, 0, 0xFFFE0000, 0] 5 =
      some ⟨⟨0, 0, 4, 1⟩, 255, .nonZero, #[1], 1, #[0, 0x20000, 0, 0xFFFE0000, 0], 5⟩ := by decide
  have ht : Tidy ⟨⟨0, 0, 4, 1⟩, 255, .nonZero, #[1], 1, #[0, 0x20000, 0, 0xFFFE0000, 0], 5⟩ := by
    refine ⟨fun i v hv hne => ?_, fun i w hi hw => ?_⟩
    · obtain ⟨hi, -⟩ := Array.getElem?_eq_some_iff.mp hv
      obtain rfl | hi4 : i = 4 ∨ i < 4 := by simp only [List.size_toArray, List.length] at hi; omega
      · exact absurd (Option.some.inj hv).symm hne
      · refine ⟨0, i, by decide, hi4.le, (Nat.zero_add i).symm, ?_⟩
        rw [show i / cellsPerBit = 0 from Nat.div_eq_of_lt hi4]
        exact ⟨by decide, 1, rfl, rfl⟩
    · obtain ⟨hi', -⟩ := Array.getElem?_eq_some_iff.mp hw
      exact absurd hi' (Nat.not_lt.mpr hi)
  rw [blank_fillAnalytic_iff hf ht (drawsStatically_of_own rfl PipelineCache.faithful_empty)]
  rintro (hblank | hnot)
  · exact absurd (hblank.1 0 1 rfl) (by decide)
  · exact hnot ⟨⟨by decide, by decide, by decide⟩, _, rfl, .inr rfl⟩

end Canvas

end Scanline
