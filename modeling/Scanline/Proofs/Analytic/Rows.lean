import Scanline.Proofs.Analytic.Cells

/-
  How a fill uses up its buffers row by row. `UsedUp` compares the buffers after some rows with the
  ones the fill began with: the bits of these rows are zero, so are their cells as far as the rows
  go, and later rows are untouched. `UsedUp.drawRow?` is the step and `UsedUp.drawRows?` the run.
-/

namespace Scanline

namespace AnalyticFill

/-- The buffers of the fill hold its rows. -/
def Complete (f : AnalyticFill) : Prop := Fits f.bounds f.bits f.bitStride f.cells f.cellStride

/-- The cells of a row are zero but for the groups that its bits mark and the first cell after
each of them. -/
def RowSparse (f : AnalyticFill) (r : Nat) : Prop := (f.line r).Sparse f.cells (f.Marked r)

/-- A fill is made where its buffers are large enough and their sizes can be counted. -/
theorem ofBuffers?_eq_some_iff {alpha : Nat} {bounds : Box} {rule : FillRule} {bits : Array UInt64}
    {bitStride : Nat} {cells : Array UInt32} {cellStride : Nat} {f : AnalyticFill} :
    ofBuffers? alpha bounds rule bits bitStride cells cellStride = some f ↔
      Fits bounds bits bitStride cells cellStride ∧ Counted bounds bitStride cellStride ∧
        f = ⟨bounds, min alpha 255, rule, bits, bitStride, cells, cellStride⟩ := by
  have hsome {r : Except Halt AnalyticFill} : r.toOption = some f ↔ r = .ok f := by
    cases r <;> simp [Except.toOption]
  simp only [ofBuffers?, hsome, ofBuffers, except_bind_eq_ok, orOutOfRange_eq_ok,
    word32?_eq_some, size64?_eq_some, require_eq_ok, Except.ok.injEq]
  constructor
  · rintro ⟨_, ⟨-, -, hrows⟩, _, hy, _, ⟨rfl, hcolumns⟩, _, hx, _, hstride, _, ⟨rfl, hwords⟩, _,
      hbits, _, ⟨rfl, hcount⟩, _, hcells, rfl⟩
    exact ⟨⟨hy, hx, hstride, hbits, hcells⟩, ⟨hrows, hcolumns, hwords, hcount⟩, rfl⟩
  · rintro ⟨⟨hy, hx, hstride, hbits, hcells⟩, ⟨hrows, hcolumns, hwords, hcount⟩, rfl⟩
    exact ⟨_, ⟨rfl, by unfold minInt32; omega, hrows⟩, (), hy, _, ⟨rfl, hcolumns⟩, (), hx, (),
      hstride, _, ⟨rfl, hwords⟩, (), hbits, _, ⟨rfl, hcount⟩, (), hcells, rfl⟩

theorem complete_of_ofBuffers? {alpha : Nat} {bounds : Box} {rule : FillRule} {bits : Array UInt64}
    {bitStride : Nat} {cells : Array UInt32} {cellStride : Nat} {f : AnalyticFill}
    (h : ofBuffers? alpha bounds rule bits bitStride cells cellStride = some f) : f.Complete := by
  obtain ⟨hfits, -, rfl⟩ := ofBuffers?_eq_some_iff.mp h
  exact hfits

theorem fields_of_ofBuffers? {alpha : Nat} {bounds : Box} {rule : FillRule} {bits : Array UInt64}
    {bitStride : Nat} {cells : Array UInt32} {cellStride : Nat} {f : AnalyticFill}
    (h : ofBuffers? alpha bounds rule bits bitStride cells cellStride = some f) :
    bounds = f.bounds ∧ bitStride = f.bitStride ∧ cellStride = f.cellStride := by
  obtain ⟨-, -, rfl⟩ := ofBuffers?_eq_some_iff.mp h
  exact ⟨rfl, rfl, rfl⟩

/-- The row after the last one starts where the rows of cells end, or behind. -/
theorem Complete.row_le {f : AnalyticFill} (hf : f.Complete) {r : Nat} (hr : r < f.bounds.height) :
    r * f.cellStride + rightEnd f.bounds + 1 ≤ f.cells.size ∧
      (r + 1) * f.bitStride ≤ f.bits.size := by
  obtain ⟨-, -, -, hbits, hcells⟩ := hf
  have hr' : r * f.cellStride ≤ f.cellStride * (f.bounds.height - 1) := by
    rw [Nat.mul_comm]
    exact Nat.mul_le_mul_left _ (by omega)
  have hr'' : (r + 1) * f.bitStride ≤ f.bitStride * f.bounds.height := by
    rw [Nat.mul_comm]
    exact Nat.mul_le_mul_left _ hr
  omega

theorem Complete.holds_line {f : AnalyticFill} (hf : f.Complete) {r : Nat}
    (hr : r < f.bounds.height) : (f.line r).Holds f.cells := by
  have hrow := (hf.row_le hr).1
  have hstride := hf.2.2.1
  constructor <;> simp only [line] <;> omega

/-! ## Buffers after some rows -/

/-- The fill `f` after the first `r` rows of `f₀` have been drawn. -/
structure UsedUp (f₀ : AnalyticFill) (r : Nat) (f : AnalyticFill) : Prop where
  bounds : f.bounds = f₀.bounds
  alpha : f.alpha = f₀.alpha
  rule : f.rule = f₀.rule
  bitStride : f.bitStride = f₀.bitStride
  cellStride : f.cellStride = f₀.cellStride
  bitSize : f.bits.size = f₀.bits.size
  cellSize : f.cells.size = f₀.cells.size
  bitsZero : ∀ i, i < r * f₀.bitStride → f.bits[i]? = some 0
  bitsKept : ∀ i, r * f₀.bitStride ≤ i → f.bits[i]? = f₀.bits[i]?
  cellsZero : ∀ r' x, r' < r → x ≤ rightEnd f₀.bounds → f.cells[r' * f₀.cellStride + x]? = some 0
  cellsKept : ∀ i, r * f₀.cellStride ≤ i → f.cells[i]? = f₀.cells[i]?
  cellsOld : ∀ i : Nat, f.cells[i]? = f₀.cells[i]? ∨ f.cells[i]? = some 0

namespace UsedUp

theorem refl (f : AnalyticFill) : UsedUp f 0 f where
  bounds := rfl
  alpha := rfl
  rule := rfl
  bitStride := rfl
  cellStride := rfl
  bitSize := rfl
  cellSize := rfl
  bitsZero i hi := by omega
  bitsKept _ _ := rfl
  cellsZero _ _ hr := absurd hr (Nat.not_lt_zero _)
  cellsKept _ _ := rfl
  cellsOld _ := .inl rfl

variable {f₀ f f' : AnalyticFill} {r : Nat} (h : UsedUp f₀ r f)

include h in
theorem line_eq (r' : Nat) : f.line r' = f₀.line r' := by
  simp only [line, h.bounds, h.bitStride, h.cellStride, h.cellSize, h.rule, h.alpha]

include h in
theorem complete (hf : f₀.Complete) : f.Complete := by
  unfold Complete Fits at *
  rw [h.bounds, h.bitStride, h.cellStride, h.bitSize, h.cellSize]
  exact hf

include h in
theorem marked_iff (g : Nat) : f.Marked r g ↔ f₀.Marked r g := by
  rw [Marked, Marked, h.bitStride, h.bitsKept _ (Nat.le_add_right _ _)]

include h in
/-- The next row has its cells. -/
theorem cell_eq (x : Nat) : (f₀.line r).cell f.cells x = (f₀.line r).cell f₀.cells x := by
  unfold Line.cell
  rw [Array.getD_eq_getD_getElem?, Array.getD_eq_getD_getElem?,
    h.cellsKept _ (show r * f₀.cellStride ≤ (f₀.line r).cellStart + x from Nat.le_add_right _ _)]

include h in
theorem sum_eq (n : Nat) : (f₀.line r).sum f.cells n = (f₀.line r).sum f₀.cells n := by
  induction n with
  | zero => rfl
  | succ n ih => rw [Line.sum, Line.sum, ih, h.cell_eq]

include h in
theorem sparse (hs : f₀.RowSparse r) : (f₀.line r).Sparse f.cells (f.Marked r) := by
  intro x hx
  rw [h.cell_eq] at hx
  simpa only [h.marked_iff] using hs x hx

include h in
/-- One row more. -/
theorem step (hf : f₀.Complete) (hr : r < f₀.bounds.height) {cells : Array UInt32}
    (hused : (f₀.line r).Used f.cells cells) :
    UsedUp f₀ (r + 1)
      { f with bits := clearWords f.bits (r * f.bitStride) f.bitStride, cells } := by
  have hbits := (hf.row_le hr).2
  have hrow : (f₀.line r).cellCount ≤ f₀.cellStride := Nat.min_le_left _ _
  have hcellStart : (f₀.line r).cellStart = r * f₀.cellStride := rfl
  have hnext : (r + 1) * f₀.cellStride = r * f₀.cellStride + f₀.cellStride := Nat.succ_mul _ _
  have hnext' : (r + 1) * f₀.bitStride = r * f₀.bitStride + f₀.bitStride := Nat.succ_mul _ _
  have hbit := getElem?_clearWords f.bits (r * f₀.bitStride) f₀.bitStride
  rw [h.bitSize] at hbit
  refine ⟨h.bounds, h.alpha, h.rule, h.bitStride, h.cellStride, ?_, hused.size.trans h.cellSize,
    fun i hi => ?_, fun i hi => ?_, fun r' x hr' hx => ?_, fun i hi => ?_, fun i => ?_⟩
  · exact (size_clearWords _ _ _).trans h.bitSize
  · show (clearWords f.bits (r * f.bitStride) f.bitStride)[i]? = some 0
    rw [h.bitStride, hbit]
    split_ifs with hrange
    · rfl
    · exact h.bitsZero i (by omega)
  · show (clearWords f.bits (r * f.bitStride) f.bitStride)[i]? = _
    rw [h.bitStride, hbit, if_neg (by omega), h.bitsKept i (by omega)]
  · by_cases hlast : r' = r
    · exact hlast ▸ hused.zero x hx
    · have hbefore : (r' + 1) * f₀.cellStride ≤ r * f₀.cellStride :=
        Nat.mul_le_mul_right _ (by omega)
      have hcol := hf.2.2.1
      rw [Nat.succ_mul] at hbefore
      exact (hused.kept _ (by omega)).trans (h.cellsZero r' x (by omega) hx)
  · exact (hused.kept i (by omega)).trans (h.cellsKept i (by omega))
  · by_cases hout : i < (f₀.line r).cellStart ∨ (f₀.line r).cellStart + (f₀.line r).cellCount ≤ i
    · rw [hused.kept i hout]
      exact h.cellsOld i
    · obtain ⟨x, rfl⟩ := Nat.exists_eq_add_of_le (Nat.le_of_not_lt fun hlt => hout (.inl hlt))
      by_cases hx : x ≤ (f₀.line r).stop
      · exact .inr (hused.zero x hx)
      · exact (hused.behind x (by omega) (by omega)).imp_left fun hk =>
          hk.trans (h.cellsKept _ (by omega))

end UsedUp

/-! ## Drawing rows -/

/-- Drawing a row uses it up. -/
theorem UsedUp.drawRow? {f₀ f f' : AnalyticFill} {r : Nat} {σ : Type} {b : Brush σ} {s t : σ}
    (h : UsedUp f₀ r f) (hf : f₀.Complete) (hr : r < f₀.bounds.height) (hs : f₀.RowSparse r)
    (hd : AnalyticFill.drawRow? b f s r = some (f', t)) : UsedUp f₀ (r + 1) f' := by
  have hr' : r < f.bounds.height := h.bounds ▸ hr
  have hf' := h.complete hf
  rw [drawRow?_eq] at hd
  split_ifs at hd
  rw [h.line_eq] at hd
  obtain ⟨⟨stroke, cells⟩, hline, hd⟩ := Option.map_eq_some_iff.mp hd
  obtain ⟨rfl, -⟩ := Prod.mk.inj hd
  have hholds := hf'.holds_line hr'
  rw [h.line_eq] at hholds
  exact h.step hf hr (drawRuns?_used hholds (h.sparse hs) (runsOf_runs (hf'.row_le hr').2) hline)

/-- Drawing rows uses them up. -/
theorem UsedUp.drawRows? {f₀ f f' : AnalyticFill} {r n : Nat} {σ : Type} {b : Brush σ} {s t : σ}
    (h : UsedUp f₀ r f) (hf : f₀.Complete) (hn : r + n ≤ f₀.bounds.height)
    (hs : ∀ r', r ≤ r' → r' < r + n → f₀.RowSparse r')
    (hd : AnalyticFill.drawRows? b f s r n = some (f', t)) : UsedUp f₀ (r + n) f' := by
  induction n generalizing f s r with
  | zero =>
    obtain ⟨rfl, -⟩ := Prod.mk.inj (Option.some.inj hd)
    exact h
  | succ n ih =>
    simp only [AnalyticFill.drawRows?, Option.bind_eq_bind, Option.bind_eq_some_iff] at hd
    obtain ⟨⟨f₁, s₁⟩, hrow, hd⟩ := hd
    have h₁ := h.drawRow? hf (by omega) (hs r le_rfl (by omega)) hrow
    have h₂ := ih h₁ (by omega) (fun r' hr hr' => hs r' (by omega) (by omega)) hd
    rwa [show r + 1 + n = r + (n + 1) by omega] at h₂

end AnalyticFill

end Scanline
