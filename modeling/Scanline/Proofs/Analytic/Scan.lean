import Scanline.Proofs.Analytic.Coverage
import Scanline.Proofs.Analytic.Rows

/-
  Analytic fills as plain scans. Looking only at marked groups is a way of saving time:
  `draw?_eq_prefix_scan` says that a fill whose rows close draws every pixel with the coverage of
  the cells added up from the left, and leaves neither bits nor cells behind.
-/

namespace Scanline

namespace AnalyticFill
open Cursor Surface Stroke

/-- A row without open ends: its cells add up to zero, and they are where its bits say. -/
structure RowClosed (f : AnalyticFill) (r : Nat) : Prop where
  sum : (f.line r).sum f.cells (f.line r).cellCount = 0
  sparse : f.RowSparse r

/-- The coverage of column `x` in row `r` when all cells up to it are added up. -/
def prefixCoverage (f : AnalyticFill) (r x : Nat) : Nat :=
  f.rule.coverage f.alpha (coverBias + (f.line r).sum f.cells (x + 1))

/-- What drawing a fill on a surface relies on: the surface holds its rows, and the cursor reaches
their columns and every column that a bit names, as a 32-bit word. -/
structure Scene (f : AnalyticFill) (R : Region) (c₀ : Cursor) (image : Int → Int → UInt32)
    (surface : Surface) : Prop where
  yields : Yields R c₀ image
  valid : surface.Valid
  word : (rightEnd f.bounds : Int) ≤ maxInt32
  place : ∀ r x : Nat, r < f.bounds.height → x ≤ rightEnd f.bounds → R.Place (f.bounds.y0 + r) x
  start : ∀ r g : Nat, r < f.bounds.height → f.Marked r g →
    R.Place (f.bounds.y0 + r) (wrap32 (g * cellsPerBit : Nat))
  inside : ∀ r x, r < f.bounds.height → x < rightEnd f.bounds →
    surface.Inside (f.bounds.y0 + r) x

variable {f₀ f : AnalyticFill} {R : Region} {c₀ : Cursor} {image : Int → Int → UInt32}
  {cov : Int → Nat → Nat} {r : Nat} {s : Stroke}

theorem Scene.of_shape {s t : Surface} (h : f.Scene R c₀ image s) (hst : s.SameShape t) :
    f.Scene R c₀ image t :=
  ⟨h.yields, hst.valid h.valid, h.word, h.place, h.start,
    fun r x hr hx => (hst.inside_iff _ x).mpr (h.inside r x hr hx)⟩

/-- The right end of bounds that a surface holds is counted by a word. -/
theorem rightEnd_le_of_holds {surface : Surface} {b : Box} (h : surface.Holds b) :
    (rightEnd b : Int) ≤ maxInt32 := by
  have hx := h.2.1.trans (wrap32_mem surface.width).2
  unfold maxInt32 at *
  unfold rightEnd
  omega

/-- The coverages of a fill by row and column. -/
def coverages (f : AnalyticFill) (y : Int) (x : Nat) : Nat :=
  f.prefixCoverage (y - f.bounds.y0).toNat x

/-- A row that closes is drawn with the coverage of its summed cells. -/
theorem UsedUp.drawRow?_draws (h : UsedUp f₀ r f) (hf : f₀.Complete) (hr : r < f₀.bounds.height)
    (hrow : f₀.RowClosed r) (hS : f₀.Scene R c₀ image s.surface)
    (hs : ∃ at?, Reaches R c₀ s.cursor (f₀.bounds.y0 + r) at?) :
    ∃ f' t, f.drawRow? brush s r = some (f', t.nextRow) ∧
      Draws R c₀ image f₀.coverages (f₀.bounds.y0 + r) 0 (rightEnd f₀.bounds) s t := by
  have hf' := h.complete hf
  have hr' : r < f.bounds.height := h.bounds ▸ hr
  have hholds := hf'.holds_line hr'
  rw [h.line_eq] at hholds
  have hbits := (hf'.row_le hr').2
  have hscene : (f₀.line r).Scene f.cells R c₀ image f₀.coverages s.surface := by
    refine ⟨hS.yields, hS.valid, fun x hx => hS.place r x hr hx,
      fun x hx => hS.inside r x hr hx, fun x _ => ?_⟩
    rw [h.sum_eq, coverages, show (f₀.line r).y - f₀.bounds.y0 = r from add_sub_cancel_left _ _]
    rfl
  have hstart : ∀ g : Nat, f.Marked r g →
      R.Place (f₀.line r).y (wrap32 (g * cellsPerBit : Nat)) := fun g hg =>
    hS.start r g hr ((h.marked_iff g).mp hg)
  have hclosed := hrow.sum
  rw [← h.sum_eq] at hclosed
  obtain ⟨t, cells, hline, hdraws⟩ := drawRuns?_draws hholds (h.sparse hrow.sparse) hclosed
    (runsOf_runs hbits) hscene hs hstart hS.word
  have hcells := (hf'.row_le hr').1
  refine ⟨{ f with bits := clearWords f.bits (r * f.bitStride) f.bitStride, cells }, t, ?_, hdraws⟩
  rw [drawRow?_eq, if_neg (by omega), h.line_eq, hline]
  rfl

/-- Rows that close are drawn with the coverages of their summed cells. -/
theorem UsedUp.drawRows?_painted (h : UsedUp f₀ r f) (hf : f₀.Complete) (n : Nat)
    (hn : r + n ≤ f₀.bounds.height) (hrows : ∀ r', r ≤ r' → r' < r + n → f₀.RowClosed r')
    (hS : f₀.Scene R c₀ image s.surface)
    (hs : 0 < n → ∃ at?, Reaches R c₀ s.cursor (f₀.bounds.y0 + r) at?) :
    ∃ f' t, f.drawRows? brush s r n = some (f', t) ∧
      s.surface.Painted s.op image f₀.coverages
        (block (f₀.bounds.y0 + r) (f₀.bounds.y0 + r + n) (rightEnd f₀.bounds)) t.surface := by
  induction n generalizing f s r with
  | zero =>
    refine ⟨f, s, rfl, (Painted.refl s.op image _ s.surface).congr ?_ fun _ _ _ => rfl⟩
    exact fun y x => ⟨fun hx => by obtain ⟨_, _, _⟩ := hx; omega, False.elim⟩
  | succ n ih =>
    have hrow := hrows r le_rfl (by omega)
    obtain ⟨f', t, hdraw, hdraws⟩ := h.drawRow?_draws hf (by omega) hrow hS (hs (by omega))
    have h' := h.drawRow? hf (by omega) hrow.sparse hdraw
    have hS' : f₀.Scene R c₀ image t.nextRow.surface := hS.of_shape hdraws.painted.shape
    obtain ⟨f'', u, hdraw', hpainted⟩ := ih h' (by omega)
      (fun r' hr hr' => hrows r' (by omega) (by omega)) hS' fun hn' => by
        obtain ⟨at?, hat⟩ := hdraws.cursor
        have hplace := hS.place (r + 1) 0 (by omega) (Nat.zero_le _)
        rw [Nat.cast_succ, ← Int.add_assoc] at hplace ⊢
        exact ⟨none, hat.nextRow (R.row_of_place hplace)⟩
    refine ⟨f'', u, ?_, ?_⟩
    · rw [AnalyticFill.drawRows?, hdraw]
      exact hdraw'
    · have hop : t.nextRow.op = s.op := hdraws.op
      rw [hop] at hpainted
      refine (hdraws.painted.trans hS.valid hpainted fun y x hx hx' => ?_).congr ?_
        fun _ _ _ => rfl
      · obtain ⟨rfl, -⟩ := hx
        obtain ⟨hy, -⟩ := hx'
        omega
      · intro y x
        unfold block strip
        omega

/-- A fill whose rows close is drawn as if the cells of every row were added up from the left: each
pixel is combined with the source by the coverage of the cells up to it. The bits of the rows are
zero afterwards, and so are the cells up to the end of each row. -/
theorem draw?_eq_prefix_scan {alpha : Nat} {bounds : Box} {rule : FillRule} {bits : Array UInt64}
    {bitStride : Nat} {cells : Array UInt32} {cellStride : Nat} {f : AnalyticFill}
    (hf : ofBuffers? alpha bounds rule bits bitStride cells cellStride = some f) (op : Operator)
    {surface : Surface} (hv : surface.Valid) (hin : surface.Holds bounds) {R : Region}
    {c₀ : Cursor} {image : Int → Int → UInt32} (hc : Yields R c₀ image)
    (hplace : ∀ y x, bounds.y0 ≤ y → y < bounds.y1 → 0 ≤ x → x ≤ rightEnd bounds → R.Place y x)
    (hstart : ∀ r g : Nat, r < bounds.height → f.Marked r g →
      R.Place (bounds.y0 + r) (wrap32 (g * cellsPerBit : Nat)))
    (hrows : ∀ r, r < bounds.height → f.RowClosed r) :
    ∃ f' t, f.draw? ⟨op, surface, c₀⟩ = some (f', t) ∧
      (∀ r x : Nat, r < bounds.height → x < rightEnd bounds →
        ∃ d, surface.pixel? x (bounds.y0 + r) = some d ∧
          t.surface.pixel? x (bounds.y0 + r) =
            some (op.drawn surface.format d (image (bounds.y0 + r) x) (f.prefixCoverage r x))) ∧
      (∀ r i, r < bounds.height → i < bitStride → f'.bits[r * bitStride + i]? = some 0) ∧
      ∀ r x, r < bounds.height → x ≤ rightEnd bounds → f'.cells[r * cellStride + x]? = some 0 := by
  have hcomplete := complete_of_ofBuffers? hf
  obtain ⟨hbounds, hbitStride, hcellStride⟩ := fields_of_ofBuffers? hf
  subst hbounds hbitStride hcellStride
  have hlt := hcomplete.1
  obtain ⟨hheight, htop, hbottom⟩ := hin.rows hlt.le
  have hcolumns := hin.columns
  have hword : (rightEnd f.bounds : Int) ≤ maxInt32 := rightEnd_le_of_holds hin
  have hS : f.Scene R c₀ image surface := by
    refine ⟨hc, hv, hword, fun r x hr hx => ?_, hstart, fun r x hr hx => ?_⟩
    · exact hplace _ x (by omega) (by omega) (by omega) (by exact_mod_cast hx)
    · unfold rightEnd at hx
      exact ⟨by omega, by omega, by omega⟩
  have hrow : R.Row (f.bounds.y0 + (0 : Nat)) := R.row_of_place (hS.place 0 0 (by omega) (by omega))
  have hbegin : Reaches R c₀ (c₀.startRow f.bounds.y0) (f.bounds.y0 + (0 : Nat)) none := by
    have hfirst : Reaches R c₀ (c₀.startRow (f.bounds.y0 + (0 : Nat))) (f.bounds.y0 + (0 : Nat))
        none := .startRow hrow
    rwa [Nat.cast_zero, Int.add_zero] at hfirst ⊢
  obtain ⟨f', t, hdraw, hpainted⟩ := (UsedUp.refl f).drawRows?_painted
    (s := (Stroke.startRow ⟨op, surface, c₀⟩ f.bounds.y0)) hcomplete f.bounds.height (by omega)
    (fun r _ hr => hrows r (by omega)) hS fun _ => ⟨none, hbegin⟩
  have hused := (UsedUp.refl f).drawRows? hcomplete (by omega)
    (fun r _ hr => (hrows r (by omega)).sparse) hdraw
  rw [Nat.zero_add] at hused
  refine ⟨f', t, ?_, fun r x hr hx => ?_, fun r i hr hi => hused.bitsZero _ ?_,
    fun r x hr hx => hused.cellsZero r x hr hx⟩
  · rw [draw?, drawWith?, ← hheight, Int.toNat_natCast]
    exact hdraw
  · obtain ⟨d, hd⟩ := hv.isSome_pixel? (hS.inside r x hr hx)
    refine ⟨d, hd, (hpainted.drawn ⟨by omega, by omega, hx⟩ d hd).trans ?_⟩
    rw [coverages, add_sub_cancel_left]
    rfl
  · have := Nat.mul_le_mul_right f.bitStride (Nat.succ_le_of_lt hr)
    rw [Nat.succ_mul] at this
    omega

/-- A winding that begins in column 1 and ends in column 3 covers column 2. -/
theorem draw?_eq_prefix_scan_two_edges :
    ∃ f t, AnalyticFill.draw?
        ⟨⟨0, 0, 4, 1⟩, 255, .nonZero, #[1], 1, #[0, 0x20000, 0, 0xFFFE0000, 0], 5⟩
        ⟨.srcOver, ⟨Array.replicate 16 0, 16, 4, 1, .prgb32, 0⟩, .solid 0xFF112233⟩ = some (f, t) ∧
      t.surface.pixel? 2 0 = some 0xFF112233 := by
  have hf : ofBuffers? 255 ⟨0, 0, 4, 1⟩ .nonZero #[1] 1 #[0, 0x20000, 0, 0xFFFE0000, 0] 5 =
      some ⟨⟨0, 0, 4, 1⟩, 255, .nonZero, #[1], 1, #[0, 0x20000, 0, 0xFFFE0000, 0], 5⟩ := by decide
  have hv : Surface.Valid ⟨Array.replicate 16 0, 16, 4, 1, .prgb32, 0⟩ :=
    ⟨rfl, by decide, fun _ => by decide⟩
  have hclosed : RowClosed
      ⟨⟨0, 0, 4, 1⟩, 255, .nonZero, #[1], 1, #[0, 0x20000, 0, 0xFFFE0000, 0], 5⟩ 0 := by
    refine ⟨by decide, fun x hx => .inl ⟨?_, 1, ?_, ?_⟩⟩
    all_goals
      have hx4 : x < 4 := by
        by_contra hx4
        obtain rfl | hx5 : x = 4 ∨ 5 ≤ x := by omega
        · exact hx rfl
        · exact hx (if_neg (Nat.not_lt.mpr hx5))
      rw [show x / cellsPerBit = 0 from Nat.div_eq_of_lt hx4]
      decide
  obtain ⟨f, t, hdraw, hpixel, -, -⟩ := draw?_eq_prefix_scan hf .srcOver hv (by decide)
    (yields_solid ⟨fun _ => True, fun _ _ => True, fun _ => trivial⟩ 0xFF112233)
    (fun _ _ _ _ _ _ => trivial) (fun _ _ _ _ => trivial) fun r hr => by
      obtain rfl : r = 0 := Nat.lt_one_iff.mp hr
      exact hclosed
  obtain ⟨d, hd, hd'⟩ := hpixel 0 2 (by decide) (by decide)
  refine ⟨f, t, hdraw, hd'.trans ?_⟩
  obtain rfl : 0 = d := Option.some.inj (by rw [← hd]; decide)
  decide

end AnalyticFill

end Scanline
