import Scanline.Proofs.Analytic.Rows
import Scanline.Proofs.Render.Invariants

/-
  Invariants of strokes that draw analytic fills. A sweep reads the cells up to the one after the
  last column of its row, which the buffers hold, and touches columns from its first marked group
  on (`Sweep.runs?_kept`, `drawRuns?_kept`). Drawing a row leaves the bits of later rows as they are
  (`Remains`), so every row is drawn by the bits that the fill began with.
-/

namespace Scanline

namespace AnalyticFill
open Stroke

/-- The pixels that the fill may touch: in each row from a marked group on. -/
def Touches (f : AnalyticFill) (y : Int) (x m : Nat) : Prop :=
  (f.bounds.y0 ≤ y ∧ y < f.bounds.y1) ∧ x < rightEnd f.bounds ∧
    (∃ g, f.Marked (y - f.bounds.y0).toNat g ∧ g * cellsPerBit ≤ x) ∧
    ∃ cover, m = f.rule.coverage f.alpha cover

variable {halts : Prop} {width : Nat} {touches : Int → Nat → Nat → Prop} {I : Stroke → Prop}
  {l : Line} {lo : Nat}

/-- The row may touch its columns from `lo` on, with whatever coverage it comes to. -/
def Line.Allows (l : Line) (touches : Int → Nat → Nat → Prop) (lo : Nat) : Prop :=
  ∀ x cover, lo ≤ x → x < l.stop → touches l.y x (l.rule.coverage l.alpha cover)

namespace Sweep

/-- The stroke has the property, and the buffer still has room for the cells of a row. -/
structure Ready (I : Stroke → Prop) (size : Nat) (s : Sweep Stroke) : Prop where
  stroke : I s.stroke
  size_eq : s.cells.size = size

variable {s : Sweep Stroke} {x : Nat} {cells : Array UInt32}

theorem Ready.take? (hc : ¬ halts → l.Holds cells) (h : Ready I cells.size s) (hx : x ≤ l.stop) :
    Lands halts (Ready I cells.size) (s.take? l x) := by
  have hcount (hhalts : ¬ halts) : x < l.cellCount ∧ l.cellStart + x < s.cells.size := by
    have hholds := hc hhalts
    have hlt : x < l.cellCount := hx.trans_lt hholds.stop_lt
    have := hholds.le_size
    have := h.size_eq
    omega
  unfold Sweep.take?
  split
  · cases hcell : s.cells[l.cellStart + x]? with
    | none =>
      refine by_contra fun hhalts => ?_
      rw [Array.getElem?_eq_getElem (hcount hhalts).2] at hcell
      cases hcell
    | some cell => exact ⟨h.stroke, (Array.size_setIfInBounds ..).trans h.size_eq⟩
  · rename_i hlt
    exact by_contra fun hhalts => hlt (hcount hhalts).1

/-- Drawing up to the end of the row takes no cell but the ones of the row. -/
theorem Ready.pixels?_kept (hc : ¬ halts → l.Holds cells) (hI : Kept halts width touches I)
    (hl : l.Allows touches lo) (n : Nat) (h : Ready I cells.size s) (hlo : lo ≤ x)
    (hn : x + n ≤ l.stop) : Lands halts (Ready I cells.size) (s.pixels? brush l x n) := by
  induction n generalizing s x with
  | zero => exact h
  | succ n ih =>
    have htouch := hl x s.cover hlo (by omega)
    refine (hI.dab? s.stroke l.y x _ h.stroke htouch).bind fun stroke hstroke => ?_
    have hready : Ready I cells.size { s with stroke } := ⟨hstroke, h.size_eq⟩
    exact (hready.take? hc (by omega)).bind fun s hs => ih hs (by omega) (by omega)

/-- The gap behind a run touches its own columns. -/
theorem Ready.gap?_kept (hI : Kept halts width touches I) (hl : l.Allows touches lo)
    (h : Ready I cells.size s) (hlo : lo ≤ x) {runStart : Nat} (hx : runStart ≤ l.stop) :
    Lands halts (Ready I cells.size) (s.gap? brush l x runStart) := by
  unfold gap?
  split
  · refine (hI.span? h.stroke fun z hz hz' => ?_).bind fun stroke hstroke => ⟨hstroke, h.size_eq⟩
    exact hl z s.cover (by omega) (by omega)
  · exact h

/-- The runs of a row, the first one of them begun, touch columns of the row alone. -/
theorem Ready.runs?_kept (hc : ¬ halts → l.Holds cells) (hI : Kept halts width touches I)
    (hl : l.Allows touches lo) {last : Nat} {rest : List (Nat × Nat)} (h : Ready I cells.size s)
    (hlo : lo ≤ x) (hx : x ≤ l.stop) :
    Lands halts (Ready I cells.size) (s.runs? brush l x last rest) := by
  have hrun {s : Sweep Stroke} {last : Nat} {x : Nat} (hs : Ready I cells.size s) (hlo : lo ≤ x)
      (hx : x ≤ l.stop) :
      Lands halts (Ready I cells.size)
        (s.pixels? brush l x (min (last * cellsPerBit) l.stop - x)) :=
    hs.pixels?_kept hc hI hl _ hlo (by omega)
  induction rest generalizing s x last with
  | nil => exact (h.take? hc hx).bind fun s hs => hrun hs hlo hx
  | cons run rest ih =>
    obtain ⟨a, b⟩ := run
    refine (h.take? hc hx).bind fun s hs => (hrun hs hlo hx).bind fun s hs => ?_
    dsimp only
    split_ifs with hend
    · exact hs
    · refine (hs.gap?_kept hI hl (by omega) (Nat.min_le_right _ _)).bind fun s hs => ?_
      exact ih hs (by omega) (by omega)

end Sweep

/-! ## Rows -/

/-- A row touches its columns from its first marked group on. -/
theorem drawRuns?_kept (hI : Kept halts width touches I) {stroke : Stroke} {cells : Array UInt32}
    {runs : List (Nat × Nat)} (hs : I stroke)
    (hc : ¬ halts → l.Holds cells)
    (ht : ∀ a b rest, runs = (a, b) :: rest → l.Allows touches (a * cellsPerBit)) :
    Lands halts (fun out => I out.1 ∧ out.2.size = cells.size)
      (drawRuns? brush l stroke cells runs) := by
  cases runs with
  | nil => exact ⟨hs, rfl⟩
  | cons run rest =>
    obtain ⟨a, b⟩ := run
    refine (hI.start? stroke _ hs).bind fun started hstarted => ?_
    split_ifs with hend hcount
    · exact ⟨hstarted, Array.size_setIfInBounds ..⟩
    · exact ⟨hstarted, rfl⟩
    · have hbegin : Sweep.Ready I cells.size ⟨started, cells, coverBias⟩ := ⟨hstarted, rfl⟩
      have hruns : Lands halts (Sweep.Ready I cells.size)
          (Sweep.runs? brush l ⟨started, cells, coverBias⟩ (a * cellsPerBit) b rest) :=
        hbegin.runs?_kept hc hI (ht a b rest rfl) le_rfl (Nat.le_of_not_le hend)
      exact hruns.bind fun s hs => ⟨hs.stroke, hs.size_eq⟩

/-- The fill `f` has the rows of `f₀` from the `r`-th on as they were. -/
structure Remains (f₀ : AnalyticFill) (r : Nat) (f : AnalyticFill) : Prop where
  bounds : f.bounds = f₀.bounds
  alpha : f.alpha = f₀.alpha
  rule : f.rule = f₀.rule
  bitStride : f.bitStride = f₀.bitStride
  cellStride : f.cellStride = f₀.cellStride
  bitSize : f.bits.size = f₀.bits.size
  cellSize : f.cells.size = f₀.cells.size
  bits : ∀ i, r * f₀.bitStride ≤ i → f.bits[i]? = f₀.bits[i]?

namespace Remains

variable {f₀ f : AnalyticFill} {r : Nat} {s : Stroke}

theorem refl (f : AnalyticFill) : Remains f 0 f :=
  ⟨rfl, rfl, rfl, rfl, rfl, rfl, rfl, fun _ _ => rfl⟩

theorem complete (h : Remains f₀ r f) (hf : f₀.Complete) : f.Complete := by
  unfold Complete Fits at *
  rw [h.bounds, h.bitStride, h.cellStride, h.bitSize, h.cellSize]
  exact hf

theorem marked_iff (h : Remains f₀ r f) (g : Nat) : f.Marked r g ↔ f₀.Marked r g := by
  rw [Marked, Marked, h.bitStride, h.bits _ (Nat.le_add_right _ _)]

/-- A row sets its own bits to zero. -/
theorem step (h : Remains f₀ r f) {cells : Array UInt32} (hcells : cells.size = f.cells.size) :
    Remains f₀ (r + 1)
      { f with bits := clearWords f.bits (r * f.bitStride) f.bitStride, cells } := by
  refine ⟨h.bounds, h.alpha, h.rule, h.bitStride, h.cellStride,
    (size_clearWords ..).trans h.bitSize, hcells.trans h.cellSize, fun i hi => ?_⟩
  rw [Nat.succ_mul] at hi
  rw [getElem?_clearWords, h.bitStride, if_neg (by omega), h.bits i (by omega)]

/-- The row `r` of the fill is drawn within its buffers, or drawing may go missing. -/
theorem drawRow?_kept (h : Remains f₀ r f) (hf : ¬ halts → f₀.Complete)
    (hrow : (f₀.bounds.height : Int) = f₀.bounds.y1 - f₀.bounds.y0) (hr : r < f₀.bounds.height)
    (hI : Kept halts width f₀.Touches I) (hs : I s) :
    Lands halts (fun out => Remains f₀ (r + 1) out.1 ∧ I out.2) (drawRow? brush f s r) := by
  have hr' : r < f.bounds.height := h.bounds ▸ hr
  rw [drawRow?_eq]
  split
  · rename_i hshort
    refine by_contra fun hhalts => ?_
    have := (h.complete (hf hhalts)).row_le hr'
    omega
  · rename_i hlong
    have hline : Lands halts (fun out => I out.1 ∧ out.2.size = f.cells.size)
        (drawRuns? brush (f.line r) s f.cells (runs (f.rowWords r))) := by
      refine drawRuns?_kept hI hs (fun hhalts => (h.complete (hf hhalts)).holds_line hr') ?_
      intro a b rest hruns x cover hx hx'
      have hrunsOf := runsOf_runs (f := f) (r := r) (by omega)
      rw [hruns] at hrunsOf
      obtain ⟨-, hab, -, hmarked, -⟩ := hrunsOf
      have hmark := (h.marked_iff a).mp (hmarked a le_rfl hab)
      have hy : (f.line r).y = f₀.bounds.y0 + r := by rw [line, h.bounds]
      have hstop : (f.line r).stop = rightEnd f₀.bounds := by rw [line, h.bounds]
      rw [hstop] at hx'
      rw [hy]
      refine ⟨by omega, hx', ⟨a, ?_, hx⟩, cover, ?_⟩
      · rwa [add_sub_cancel_left]
      · rw [line, h.rule, h.alpha]
    exact hline.map fun out hout => ⟨h.step hout.2, hI.nextRow out.1 hout.1⟩

theorem drawRows?_kept (h : Remains f₀ r f) (hf : ¬ halts → f₀.Complete)
    (hrow : (f₀.bounds.height : Int) = f₀.bounds.y1 - f₀.bounds.y0) (n : Nat)
    (hn : r + n ≤ f₀.bounds.height) (hI : Kept halts width f₀.Touches I) (hs : I s) :
    Lands halts (fun out => I out.2) (drawRows? brush f s r n) := by
  induction n generalizing f s r with
  | zero => exact hs
  | succ n ih =>
    refine (h.drawRow?_kept hf hrow (by omega) hI hs).bind fun out hout => ?_
    exact ih hout.1 (by omega) hout.2

end Remains

/-- A fill that has all of its buffers draws, and any other one keeps what it draws. -/
theorem draw?_kept {f : AnalyticFill} (hf : ¬ halts → f.Complete)
    (hrow : (f.bounds.height : Int) = f.bounds.y1 - f.bounds.y0) {s : Stroke}
    (hI : Kept halts width f.Touches I) (hs : I s) :
    Lands halts (fun out => I out.2) (f.draw? s) :=
  (Remains.refl f).drawRows?_kept hf hrow _ (by omega) hI (hI.startRow s _ hs)

end AnalyticFill

end Scanline
