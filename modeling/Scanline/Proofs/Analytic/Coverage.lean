import Scanline.Proofs.Analytic.Cells
import Scanline.Proofs.Render.Strokes

/-
  The coverage of analytic fills. A row that closes, with its cells where its bits say, is drawn as
  if every cell were added up from the left: the pixel of a column is covered by the sum of the
  cells up to it (`drawRuns?_draws`).
-/

namespace Scanline

namespace AnalyticFill
open Cursor Surface Stroke

/-- Without winding nothing is covered. -/
theorem coverage_coverBias (rule : FillRule) (alpha : Nat) : rule.coverage alpha coverBias = 0 := by
  have h : rule.winding coverBias = 0 := by cases rule <;> decide
  rw [FillRule.coverage, h, Nat.zero_mul, Nat.zero_div]

/-- Everything that drawing a row relies on: a cursor and a surface that reach the columns of the
row, and coverages that are the ones of the summed cells. -/
structure Line.Scene (l : Line) (cells : Array UInt32) (R : Region) (c₀ : Cursor)
    (image : Int → Int → UInt32) (cov : Int → Nat → Nat) (surface : Surface) : Prop where
  yields : Yields R c₀ image
  valid : surface.Valid
  place : ∀ x : Nat, x ≤ l.stop → R.Place l.y x
  inside : ∀ x, x < l.stop → surface.Inside l.y x
  cov : ∀ x, x < l.stop →
    cov l.y x = l.rule.coverage l.alpha (coverBias + l.sum cells (x + 1))

variable {l : Line} {cells : Array UInt32} {marked : Nat → Prop} {R : Region} {c₀ : Cursor}
  {image : Int → Int → UInt32} {cov : Int → Nat → Nat}

theorem Line.Scene.of_shape {s t : Surface} (h : l.Scene cells R c₀ image cov s)
    (hst : s.SameShape t) : l.Scene cells R c₀ image cov t :=
  ⟨h.yields, hst.valid h.valid, h.place, fun x hx => (hst.inside_iff l.y x).mpr (h.inside x hx),
    h.cov⟩

/-- Where the cells have ended the coverage is that of their sum. -/
theorem Line.Scene.cov_eq {surface : Surface} (h : l.Scene cells R c₀ image cov surface)
    {m z : Nat} (hm : m ≤ z + 1) (hz : z < l.stop)
    (hzero : ∀ x, m ≤ x → x < z + 1 → l.cell cells x = 0) :
    cov l.y z = l.rule.coverage l.alpha (coverBias + l.sum cells m) := by
  rw [h.cov z hz, Line.sum_eq_of_zero hm hzero]

/-- Nothing is covered where no cell follows in a row that closes. -/
theorem Line.Scene.cov_eq_zero {surface : Surface} (h : l.Scene cells R c₀ image cov surface)
    (hl : l.Holds cells) (hclosed : l.sum cells l.cellCount = 0) {z : Nat} (hz : z < l.stop)
    (hzero : ∀ x, z < x → x < l.cellCount → l.cell cells x = 0) : cov l.y z = 0 := by
  have := hl.stop_lt
  have hsum := Line.sum_eq_of_zero (m := z + 1) (n := l.cellCount) (by omega) hzero
  rw [h.cov z hz, ← hsum, hclosed]
  exact coverage_coverBias l.rule l.alpha

namespace Sweep

variable {s : Sweep Stroke} {x : Nat}

/-- Drawing `n` pixels of a row sweeps their columns. -/
theorem Before.pixels?_sweeps (hl : l.Holds cells) (n : Nat) (h : Before l cells (x + 1) s)
    (hS : l.Scene cells R c₀ image cov s.stroke.surface)
    (hs : Reaches R c₀ s.stroke.cursor l.y (some (x : Int))) (hn : x + n ≤ l.stop) :
    ∃ t, s.pixels? brush l x n = some t ∧
      Sweeps R c₀ image cov l.y x (x + n) s.stroke t.stroke := by
  have hstop := hl.stop_lt
  induction n generalizing s x with
  | zero => exact ⟨s, rfl, .refl hs⟩
  | succ n ih =>
    have hm : cov l.y x = s.coverage l := by
      rw [hS.cov x (by omega), coverage, h.cover]
    obtain ⟨stroke, hstroke, hsweep⟩ :=
      dab?_sweeps hS.yields hS.valid hs (hS.place x (by omega)) (hS.inside x (by omega)) hm
    obtain ⟨s', hs', hs'', h'⟩ := (h.stroke stroke).take? hl (by omega)
    subst hs''
    obtain ⟨t, ht, hsweep'⟩ := ih h' (hS.of_shape hsweep.painted.shape) hsweep.cursor (by omega)
    rw [show x + 1 + n = x + (n + 1) by omega] at hsweep'
    refine ⟨t, ?_, hsweep.trans hS.valid (by omega) (by omega) hsweep'⟩
    simp only [pixels?, brush_dab?, hstroke, Option.bind_eq_bind, Option.bind_some, hs']
    exact ht

/-- Taking the cell of the next column and drawing up to column `e` sweeps the columns between. -/
theorem Before.run_sweeps (hl : l.Holds cells) (h : Before l cells x s)
    (hS : l.Scene cells R c₀ image cov s.stroke.surface)
    (hs : Reaches R c₀ s.stroke.cursor l.y (some (x : Int))) {e : Nat} (hx : x ≤ e)
    (he : e ≤ l.stop) :
    ∃ s' t, s.take? l x = some s' ∧ s'.pixels? brush l x (e - x) = some t ∧
      Before l cells (e + 1) t ∧ Sweeps R c₀ image cov l.y x e s.stroke t.stroke := by
  have hstop := hl.stop_lt
  obtain ⟨n, rfl⟩ := Nat.exists_eq_add_of_le hx
  obtain ⟨s', hs', hstroke, h'⟩ := h.take? hl (by omega)
  rw [← hstroke] at hs hS ⊢
  obtain ⟨t, ht, hsweep⟩ := h'.pixels?_sweeps hl n hS hs he
  rw [Nat.add_sub_cancel_left]
  exact ⟨s', t, hs', ht, h'.pixels?_some hl n ht, hsweep⟩

/-- Columns without cells are swept with the coverage that stands. -/
theorem Before.gap_sweeps (hl : l.Holds cells) (h : Before l cells (x + 1) s)
    (hS : l.Scene cells R c₀ image cov s.stroke.surface)
    (hs : Reaches R c₀ s.stroke.cursor l.y (some (x : Int))) {e : Nat} (hx : x < e)
    (he : e ≤ l.stop) (hzero : ∀ z, x + 1 ≤ z → z < e → l.cell cells z = 0) :
    ∃ t, s.gap? brush l x e = some t ∧ Before l cells e t ∧
      Sweeps R c₀ image cov l.y x e s.stroke t.stroke := by
  have hstop := hl.stop_lt
  have hcov : ∀ z, x ≤ z → z < e → cov l.y z = s.coverage l := by
    intro z hz hz'
    rw [hS.cov_eq (m := x + 1) (by omega) (by omega) fun w hw hw' => hzero w hw (by omega),
      coverage, h.cover]
  obtain ⟨stroke, hstroke, hsweep⟩ := span?_sweeps hS.yields hS.valid hx.le hs
    (fun z _ hz => hS.place z (by omega)) (fun z _ hz => hS.inside z (by omega)) hcov
  refine ⟨{ s with stroke }, ?_, (h.extend hl hx (by omega) hzero).stroke stroke, hsweep⟩
  simp only [gap?, if_pos hx, brush_span?, hstroke, Option.bind_eq_bind, Option.bind_some]

/-- The runs of a row, the first one of them begun, draw the rest of the row. -/
theorem Before.runs?_draws (hl : l.Holds cells) (hsparse : l.Sparse cells marked)
    (hclosed : l.sum cells l.cellCount = 0) {last : Nat} {rest : List (Nat × Nat)}
    (hlast : ¬ marked last) (hrest : RunsOf marked (last + 1) rest)
    (hx : x ≤ min (last * cellsPerBit) l.stop) (h : Before l cells x s)
    (hS : l.Scene cells R c₀ image cov s.stroke.surface)
    (hs : Reaches R c₀ s.stroke.cursor l.y (some (x : Int))) :
    ∃ t, s.runs? brush l x last rest = some t ∧
      Draws R c₀ image cov l.y x l.stop s.stroke t.stroke := by
  induction rest generalizing s x last with
  | nil =>
    obtain ⟨s₁, t, hs₁, ht, -, hsweep⟩ := h.run_sweeps hl hS hs hx (Nat.min_le_right _ _)
    have hS' := hS.of_shape hsweep.painted.shape
    -- behind the last run the row has closed
    have hrow : Draws R c₀ image cov l.y (min (last * cellsPerBit) l.stop) l.stop t.stroke
        t.stroke := by
      refine draws_zero ⟨_, hsweep.cursor⟩ (fun z _ hz => hS'.inside z hz) fun z hz hz' => ?_
      refine hS'.cov_eq_zero hl hclosed hz' fun w hw _ => ?_
      exact hsparse.cell_eq_zero_of_gt hlast hrest (by omega)
    refine ⟨t, ?_, hsweep.trans_draws hS.valid hx (Nat.min_le_right _ _) hrow⟩
    simp only [runs?, hs₁, Option.bind_eq_bind, Option.bind_some]
    exact ht
  | cons run rest ih =>
    obtain ⟨a, b⟩ := run
    obtain ⟨hle, hab, hgap, -, hb, hrest⟩ := hrest
    obtain ⟨s₁, s₂, hs₁, hs₂, h₂, hsweep⟩ := h.run_sweeps hl hS hs hx (Nat.min_le_right _ _)
    have hS₂ := hS.of_shape hsweep.painted.shape
    simp only [runs?, hs₁, hs₂, Option.bind_eq_bind, Option.bind_some]
    rw [Nat.max_eq_right hx]
    split_ifs with hend
    · rw [show min (last * cellsPerBit) l.stop = l.stop by omega] at hsweep
      exact ⟨s₂, rfl, hsweep.draws⟩
    · have hla : last * cellsPerBit < a * cellsPerBit := Nat.mul_lt_mul_of_pos_right hle (by decide)
      have hab' : a * cellsPerBit ≤ b * cellsPerBit := Nat.mul_le_mul_right _ hab.le
      have hmin : min (last * cellsPerBit) l.stop = last * cellsPerBit := by omega
      rw [hmin] at h₂ hsweep hx ⊢
      -- in the gap no cell changes what the run has left
      obtain ⟨s₃, hs₃, h₃, hspan⟩ := h₂.gap_sweeps hl hS₂ hsweep.cursor
        (e := min (a * cellsPerBit) l.stop) (by omega) (Nat.min_le_right _ _)
        fun z hz hz' => hsparse.cell_eq_zero_of_gap hlast hgap hz (by omega)
      obtain ⟨t, ht, hdraws⟩ := ih hb hrest (by omega) h₃ (hS₂.of_shape hspan.painted.shape)
        hspan.cursor
      rw [hs₃, Nat.max_eq_right (by omega)]
      refine ⟨t, ht, hsweep.trans_draws hS.valid hx (by omega) ?_⟩
      exact hspan.trans_draws hS₂.valid (by omega) (by omega) hdraws

end Sweep

/-- A row that closes is drawn with the sums of its cells. -/
theorem drawRuns?_draws {runs : List (Nat × Nat)} {stroke : Stroke} (hl : l.Holds cells)
    (hsparse : l.Sparse cells marked) (hclosed : l.sum cells l.cellCount = 0)
    (hruns : RunsOf marked 0 runs) (hS : l.Scene cells R c₀ image cov stroke.surface)
    (hs : ∃ at?, Reaches R c₀ stroke.cursor l.y at?)
    (hstart : ∀ g : Nat, marked g → R.Place l.y (wrap32 (g * cellsPerBit : Nat)))
    (hword : (l.stop : Int) ≤ maxInt32) :
    ∃ t cells', drawRuns? brush l stroke cells runs = some (t, cells') ∧
      Draws R c₀ image cov l.y 0 l.stop stroke t := by
  cases runs with
  | nil =>
    refine ⟨stroke, cells, rfl, draws_zero hs (fun z _ hz => hS.inside z hz) fun z _ hz => ?_⟩
    refine hS.cov_eq_zero hl hclosed hz fun w _ _ => ?_
    exact hsparse.cell_eq_zero_of_unmarked (fun g => hruns g (Nat.zero_le g)) w
  | cons run rest =>
    obtain ⟨a, b⟩ := run
    obtain ⟨-, hab, hbefore, hrun, hb, hrest⟩ := hruns
    obtain ⟨at?, hs⟩ := hs
    obtain ⟨cursor, hstarted, hreach⟩ := start?_eq hS.yields hs (hstart a (hrun a le_rfl hab))
    have hzero : ∀ z, 0 ≤ z → z < a * cellsPerBit → l.cell cells z = 0 := fun z _ hz =>
      hsparse.cell_eq_zero_of_lt (fun g hg => hbefore g (Nat.zero_le g) hg) hz
    -- nothing is covered in front of the first run
    have hcov : ∀ z, 0 ≤ z → z < min (a * cellsPerBit) l.stop → cov l.y z = 0 := by
      intro z _ hz
      rw [hS.cov_eq (Nat.zero_le _) (by omega) fun w _ hw => hzero w (Nat.zero_le w) (by omega)]
      exact coverage_coverBias l.rule l.alpha
    have hfront : Draws R c₀ image cov l.y 0 (min (a * cellsPerBit) l.stop) stroke
        { stroke with cursor } :=
      draws_zero ⟨_, hreach⟩ (fun z _ hz => hS.inside z (by omega)) hcov
    simp only [drawRuns?, brush_start?, hstarted, Option.bind_eq_bind, Option.bind_some]
    split_ifs with hend hcount
    · rw [Nat.min_eq_right hend] at hfront
      exact ⟨_, _, rfl, hfront⟩
    · rw [Nat.min_eq_right hend] at hfront
      exact ⟨_, _, rfl, hfront⟩
    · rw [Nat.min_eq_left (Nat.le_of_not_le hend)] at hfront
      have hword : wrap32 (a * cellsPerBit : Nat) = (a * cellsPerBit : Nat) :=
        wrap32_of_range (by unfold minInt32; omega) (by omega)
      rw [hword] at hreach
      have hstop := hl.stop_lt
      have hab' : a * cellsPerBit ≤ b * cellsPerBit := Nat.mul_le_mul_right _ hab.le
      have hbegin : Sweep.Before l cells 0 ⟨{ stroke with cursor }, cells, coverBias⟩ :=
        ⟨.refl l cells, rfl⟩
      have hbefore := hbegin.extend hl (Nat.zero_le (a * cellsPerBit)) (by omega) hzero
      obtain ⟨t, ht, hdraws⟩ := hbefore.runs?_draws hl hsparse hclosed hb hrest (by omega) hS hreach
      have hsweep : Sweeps R c₀ image cov l.y 0 (a * cellsPerBit) stroke { stroke with cursor } :=
        ⟨rfl, hfront.painted, hreach⟩
      refine ⟨t.stroke, t.cells, by rw [ht]; rfl, ?_⟩
      exact hsweep.trans_draws hS.valid (Nat.zero_le _) (by omega) hdraws

end AnalyticFill

end Scanline
