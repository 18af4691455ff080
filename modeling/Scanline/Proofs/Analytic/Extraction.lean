import Scanline.Proofs.Analytic.Scan

/-
  Rows of analytic fills by themselves. A row that is found elsewhere, in buffers that were cut, is
  the same row (`AnalyticFill.SameRow`): the strides take it there, and it has the same marks and
  the same sums of cells. `Complete.row?_eq`: every row of a fill can be made into a fill alone.
  `Complete.draw?_painted`: with a solid source a fill of rows that close paints its rows.
-/

namespace Scanline

namespace AnalyticFill
open Cursor Surface

/-! ## The same row -/

/-- Row `k` of `g` has the words and the cells of row `r` of `f`. -/
structure SameRow (f : AnalyticFill) (r : Nat) (g : AnalyticFill) (k : Nat) : Prop where
  bitStride : g.bitStride = f.bitStride
  cellCount : (g.line k).cellCount = (f.line r).cellCount
  bits : ∀ i, i < f.bitStride → g.bits[k * g.bitStride + i]? = f.bits[r * f.bitStride + i]?
  cells : ∀ x, x < (f.line r).cellCount →
    g.cells[(g.line k).cellStart + x]? = f.cells[(f.line r).cellStart + x]?

variable {f g : AnalyticFill} {r k : Nat}

namespace SameRow

variable (h : f.SameRow r g k)

include h in
theorem cell_eq (x : Nat) : (g.line k).cell g.cells x = (f.line r).cell f.cells x := by
  unfold Line.cell
  rw [h.cellCount]
  split
  · rename_i hx
    rw [Array.getD_eq_getD_getElem?, Array.getD_eq_getD_getElem?, h.cells x hx]
  · rfl

include h in
theorem sum_eq (n : Nat) : (g.line k).sum g.cells n = (f.line r).sum f.cells n := by
  induction n with
  | zero => rfl
  | succ n ih => rw [Line.sum, Line.sum, ih, h.cell_eq]

include h in
theorem marked_iff (i : Nat) : g.Marked k i ↔ f.Marked r i := by
  unfold Marked
  rw [h.bitStride]
  refine and_congr_right fun hi => ?_
  have hword := h.bits _ hi
  rw [h.bitStride] at hword
  rw [hword]

include h in
/-- A row that closes does so wherever it is found. -/
theorem rowClosed (hr : f.RowClosed r) : g.RowClosed k := by
  refine ⟨?_, fun x hx => ?_⟩
  · rw [h.sum_eq, h.cellCount, hr.sum]
  · rw [h.cell_eq] at hx
    rw [h.marked_iff, h.marked_iff]
    exact hr.sparse x hx

end SameRow

/-- Row `k` behind the first `s` rows of buffers that were cut behind it. -/
theorem sameRow_extract (f : AnalyticFill) (s k : Nat) (bounds : Box) (alpha : Nat)
    {bitEnd cellEnd : Nat} (hbits : min ((s + k + 1) * f.bitStride) f.bits.size ≤ bitEnd)
    (hcells : min ((s + k + 1) * f.cellStride) f.cells.size ≤ cellEnd) :
    f.SameRow (s + k)
      { f with
        bounds, alpha
        bits := f.bits.extract (s * f.bitStride) bitEnd
        cells := f.cells.extract (s * f.cellStride) cellEnd } k := by
  rw [Nat.succ_mul, Nat.add_mul] at hbits hcells
  refine ⟨rfl, ?_, fun i hi => ?_, fun x hx => ?_⟩
  · dsimp only [line]
    rw [Array.size_extract, Nat.add_mul]
    omega
  · dsimp only
    rw [Array.getElem?_extract, Nat.add_mul, Nat.add_assoc]
    split
    · rfl
    · exact (Array.getElem?_eq_none (by omega)).symm
  · dsimp only [line] at hx ⊢
    rw [Array.getElem?_extract, Nat.add_mul, Nat.add_assoc]
    rw [Nat.add_mul] at hx
    exact if_pos (by omega)

/-! ## Well-formed rows -/

/-- A row that closes and has no cells left of the bounds, nor left of the first column. -/
structure RowWellFormed (f : AnalyticFill) (r : Nat) : Prop extends f.RowClosed r where
  within : ∀ x : Nat, (f.line r).cell f.cells x ≠ 0 → max f.bounds.x0 0 ≤ x

namespace RowWellFormed

variable (h : f.RowWellFormed r)

include h in
/-- Left of the bounds nothing is covered. -/
theorem sum_eq_zero {n : Nat} (hn : (n : Int) ≤ max f.bounds.x0 0) :
    (f.line r).sum f.cells n = 0 := by
  refine Line.sum_eq_of_zero (Nat.zero_le n) fun x _ hx => by_contra fun hcell => ?_
  have := h.within x hcell
  omega

include h in
/-- A row that is found in another fill with the same left end is well formed there. -/
theorem of_sameRow (hrow : f.SameRow r g k) (hx : max g.bounds.x0 0 = max f.bounds.x0 0) :
    g.RowWellFormed k where
  toRowClosed := hrow.rowClosed h.toRowClosed
  within x hcell := by
    rw [hrow.cell_eq] at hcell
    exact hx ▸ h.within x hcell

end RowWellFormed

/-- The fill has its buffers, its rows are as many as a word can count, it ends where words do or
before, it has a column at least, and its rows are well formed. -/
structure WellFormed (f : AnalyticFill) : Prop where
  complete : f.Complete
  height : (f.bounds.height : Int) = f.bounds.y1 - f.bounds.y0
  right : f.bounds.x1 ≤ maxInt32
  lower : f.bounds.y1 ≤ maxInt32
  columns : f.bounds.x0 < f.bounds.x1
  rows : ∀ r, r < f.bounds.height → f.RowWellFormed r

/-! ## A row alone -/

/-- Row `r` of a fill alone, as the first row of an image. -/
def row? (f : AnalyticFill) (r : Nat) : Option AnalyticFill :=
  ofBuffers? f.alpha ⟨max f.bounds.x0 0, 0, f.bounds.x1, 1⟩ f.rule
    (f.bits.extract (r * f.bitStride) ((r + 1) * f.bitStride)) f.bitStride
    (f.cells.extract (r * f.cellStride) ((r + 1) * f.cellStride)) f.cellStride

/-- The fill `g` is row `r` of `f` alone. -/
structure IsRow (f : AnalyticFill) (r : Nat) (g : AnalyticFill) : Prop where
  bounds : g.bounds = ⟨max f.bounds.x0 0, 0, f.bounds.x1, 1⟩
  alpha : g.alpha = f.alpha
  rule : g.rule = f.rule
  row : f.SameRow r g 0

/-- Every row of a fill whose sizes can be counted can be filled alone. -/
theorem Complete.row?_eq (hf : f.Complete) (hcounted : Counted f.bounds f.bitStride f.cellStride)
    (halpha : f.alpha ≤ 255) (hr : r < f.bounds.height) :
    ∃ g, f.row? r = some g ∧ g.Complete ∧ f.IsRow r g := by
  obtain ⟨hcells, hbits⟩ := hf.row_le hr
  obtain ⟨-, hwords, hstride, -, -⟩ := hf
  rw [Nat.succ_mul] at hbits
  have hcounted' : Counted ⟨max f.bounds.x0 0, 0, f.bounds.x1, 1⟩ f.bitStride f.cellStride := by
    obtain ⟨-, hcolumns, -, hcount⟩ := hcounted
    refine ⟨show (1 : Int) - 0 ≤ maxInt32 by decide, hcolumns, ?_, ?_⟩
    · change f.bitStride * 1 < _
      unfold cellsPerWord at hcolumns
      omega
    · change f.cellStride * 0 + rightEnd f.bounds + 1 < _
      omega
  have hfits : Fits ⟨max f.bounds.x0 0, 0, f.bounds.x1, 1⟩
      (f.bits.extract (r * f.bitStride) ((r + 1) * f.bitStride)) f.bitStride
      (f.cells.extract (r * f.cellStride) ((r + 1) * f.cellStride)) f.cellStride := by
    refine ⟨Int.one_pos, hwords, hstride, ?_, ?_⟩
    · change f.bitStride * 1 ≤ _
      rw [Array.size_extract, Nat.succ_mul]
      omega
    · change f.cellStride * 0 + rightEnd f.bounds + 1 ≤ _
      rw [Array.size_extract, Nat.succ_mul]
      omega
  refine ⟨_, ofBuffers?_eq_some_iff.mpr ⟨hfits, hcounted', rfl⟩, hfits, rfl,
    Nat.min_eq_left halpha, rfl, ?_⟩
  exact sameRow_extract f r 0 _ _ (Nat.min_le_left _ _) (Nat.min_le_left _ _)

/-- A well-formed row is a well-formed fill, if it has a column in an image. -/
theorem IsRow.wellFormed (h : f.IsRow r g) (hf : f.WellFormed) (hg : g.Complete)
    (hr : r < f.bounds.height) (hx1 : 0 < f.bounds.x1) : g.WellFormed := by
  refine ⟨hg, by rw [h.bounds]; rfl, by rw [h.bounds]; exact hf.right, ?_, ?_, fun k hk => ?_⟩
  · rw [h.bounds]
    exact show (1 : Int) ≤ maxInt32 by decide
  · rw [h.bounds]
    exact max_lt hf.columns hx1
  obtain rfl : k = 0 := by
    rw [h.bounds] at hk
    exact Nat.lt_one_iff.mp hk
  refine (hf.rows r hr).of_sameRow h.row ?_
  rw [h.bounds]
  exact max_eq_left (le_max_right _ _)

/-! ## Solid sources -/

/-- With a solid source a fill of rows that close paints them with the coverages of their summed
cells. -/
theorem Complete.draw?_painted (hf : f.Complete) (hrows : ∀ r, r < f.bounds.height → f.RowClosed r)
    (op : Operator) {surface : Surface} (hv : surface.Valid) (hin : surface.Holds f.bounds)
    (p : UInt32) :
    ∃ f' t, f.draw? ⟨op, surface, .solid p⟩ = some (f', t) ∧
      surface.Painted op (fun _ _ => p) f.coverages
        (block f.bounds.y0 f.bounds.y1 (rightEnd f.bounds)) t.surface := by
  have hlt := hf.1
  obtain ⟨hheight, htop, hbottom⟩ := hin.rows hlt.le
  have hcolumns := hin.columns
  have hS : f.Scene ⟨fun _ => True, fun _ _ => True, fun _ => trivial⟩ (.solid p) (fun _ _ => p)
      surface := by
    refine ⟨yields_solid _ p, hv, rightEnd_le_of_holds hin, fun _ _ _ _ => trivial,
      fun _ _ _ _ => trivial, fun r x hr hx => ?_⟩
    unfold rightEnd at hx
    exact ⟨by omega, by omega, by omega⟩
  obtain ⟨f', t, hdraw, hpainted⟩ := (UsedUp.refl f).drawRows?_painted
    (s := ⟨op, surface, .solid p⟩) hf f.bounds.height (by omega)
    (fun r _ hr => hrows r (by omega)) hS fun _ => ⟨none, .startRow trivial⟩
  refine ⟨f', t, ?_, hpainted.congr (fun y x => ?_) fun _ _ _ => rfl⟩
  · rw [draw?, drawWith?, ← hheight, Int.toNat_natCast]
    exact hdraw
  · unfold block
    omega

end AnalyticFill

end Scanline
