import Mathlib.Tactic.Linarith
import Scanline.Proofs.Analytic.Runs

/-
  How a sweep uses up the cells of a row. Before the sweep takes the cell of a column, the cells of
  all columns to the left are zero and have been added up (`Sweep.Before`); a run keeps that, and so
  does the gap behind it where no group is marked. `drawLine?_used`: when a row is done its
  cells are zero up to and with the one after its last column.
-/

namespace Scanline

namespace AnalyticFill

/-! ## Cells and their sums -/

/-- The cell of column `x`; there is nothing behind the last one. -/
def Line.cell (l : Line) (cells : Array UInt32) (x : Nat) : UInt32 :=
  if x < l.cellCount then cells.getD (l.cellStart + x) 0 else 0

/-- The sum of the first `n` cells of the row. -/
def Line.sum (l : Line) (cells : Array UInt32) : Nat → UInt32
  | 0 => 0
  | n + 1 => l.sum cells n + l.cell cells n

/-- Every cell that is not zero lies in a marked group or is the first one after it. -/
def Line.Sparse (l : Line) (cells : Array UInt32) (marked : Nat → Prop) : Prop :=
  ∀ x, l.cell cells x ≠ 0 →
    marked (x / cellsPerBit) ∨ x % cellsPerBit = 0 ∧ 0 < x ∧ marked (x / cellsPerBit - 1)

/-- The cells of the row are there, with one more than the row has columns. -/
structure Line.Holds (l : Line) (cells : Array UInt32) : Prop where
  stop_lt : l.stop < l.cellCount
  le_size : l.cellStart + l.cellCount ≤ cells.size

namespace Line

variable {l : Line} {cells : Array UInt32} {marked : Nat → Prop}

theorem cell_of_getElem? {x : Nat} {v : UInt32} (hx : x < l.cellCount)
    (h : cells[l.cellStart + x]? = some v) : l.cell cells x = v := by
  rw [cell, if_pos hx, Array.getD_eq_getD_getElem?, h, Option.getD_some]

theorem Holds.getElem? (hl : l.Holds cells) {x : Nat} (hx : x < l.cellCount) :
    cells[l.cellStart + x]? = some (l.cell cells x) := by
  have hi : l.cellStart + x < cells.size := by
    have := hl.le_size
    omega
  rw [cell_of_getElem? hx (Array.getElem?_eq_getElem hi), Array.getElem?_eq_getElem hi]

theorem sum_eq_of_zero {m n : Nat} (hmn : m ≤ n) (h : ∀ x, m ≤ x → x < n → l.cell cells x = 0) :
    l.sum cells n = l.sum cells m := by
  induction n with
  | zero => rw [Nat.le_zero.mp hmn]
  | succ n ih =>
    by_cases hm : m = n + 1
    · rw [hm]
    · rw [sum, h n (by omega) (Nat.lt_succ_self n), ih (by omega) fun x hx hxn => h x hx (by omega)]
      exact UInt32.add_zero _

/-- In front of the first run the cells are zero. -/
theorem Sparse.cell_eq_zero_of_lt (hs : l.Sparse cells marked) {a : Nat}
    (h : ∀ g, g < a → ¬ marked g) {x : Nat} (hx : x < a * cellsPerBit) : l.cell cells x = 0 := by
  by_contra hne
  unfold cellsPerBit at hx
  rcases hs x hne with hm | ⟨-, -, hm⟩ <;> unfold cellsPerBit at hm
  · exact h (x / 4) (by omega) hm
  · exact h (x / 4 - 1) (by omega) hm

/-- Without runs all cells are zero. -/
theorem Sparse.cell_eq_zero_of_unmarked (hs : l.Sparse cells marked) (h : ∀ g, ¬ marked g)
    (x : Nat) : l.cell cells x = 0 := by
  refine hs.cell_eq_zero_of_lt (a := x + 1) (fun g _ => h g) ?_
  unfold cellsPerBit
  omega

/-- Between two runs the cells are zero, but for the first one. -/
theorem Sparse.cell_eq_zero_of_gap (hs : l.Sparse cells marked) {a b : Nat} (hb : ¬ marked b)
    (h : ∀ g, b + 1 ≤ g → g < a → ¬ marked g) {x : Nat} (hlo : b * cellsPerBit < x)
    (hhi : x < a * cellsPerBit) : l.cell cells x = 0 := by
  have hgap {g : Nat} (hg : b ≤ g) (hga : g < a) : ¬ marked g := by
    by_cases hgb : g = b
    · exact hgb ▸ hb
    · exact h g (by omega) hga
  by_contra hne
  unfold cellsPerBit at hlo hhi
  rcases hs x hne with hm | ⟨hmod, -, hm⟩ <;> unfold cellsPerBit at hm
  · exact hgap (by omega) (by omega) hm
  · unfold cellsPerBit at hmod
    exact hgap (by omega) (by omega) hm

/-- Behind the last run the cells are zero, but for the first one. -/
theorem Sparse.cell_eq_zero_of_gt (hs : l.Sparse cells marked) {b : Nat} (hb : ¬ marked b)
    (h : ∀ g, b + 1 ≤ g → ¬ marked g) {x : Nat} (hx : b * cellsPerBit < x) :
    l.cell cells x = 0 := by
  refine hs.cell_eq_zero_of_gap (a := x + 1) hb (fun g hg _ => h g hg) hx ?_
  unfold cellsPerBit
  omega

end Line

/-! ## Cells that are used up -/

/-- The first `n` cells of the row are zero and all others are as they were. -/
structure Line.Cleared (l : Line) (n : Nat) (cells cells' : Array UInt32) : Prop where
  size : cells'.size = cells.size
  zero : ∀ x, x < n → cells'[l.cellStart + x]? = some 0
  kept : ∀ i, i < l.cellStart ∨ l.cellStart + n ≤ i → cells'[i]? = cells[i]?

namespace Line

variable {l : Line} {cells cells' : Array UInt32}

theorem Cleared.refl (l : Line) (cells : Array UInt32) : l.Cleared 0 cells cells :=
  ⟨rfl, fun _ hx => absurd hx (Nat.not_lt_zero _), fun _ _ => rfl⟩

/-- Cells that are zero anyway count as cleared. -/
theorem Cleared.extend (hl : l.Holds cells) {m n : Nat} (h : l.Cleared m cells cells')
    (hmn : m ≤ n) (hn : n ≤ l.cellCount) (hz : ∀ x, m ≤ x → x < n → l.cell cells x = 0) :
    l.Cleared n cells cells' := by
  refine ⟨h.size, fun x hx => ?_, fun i hi => h.kept i (by omega)⟩
  by_cases hxm : x < m
  · exact h.zero x hxm
  · rw [h.kept _ (by omega), hl.getElem? (by omega), hz x (by omega) hx]

/-- Clearing one cell more. -/
theorem Cleared.step {n : Nat} (h : l.Cleared n cells cells')
    (hn : l.cellStart + n < cells.size) :
    l.Cleared (n + 1) cells (cells'.setIfInBounds (l.cellStart + n) 0) := by
  have hn' : l.cellStart + n < cells'.size := h.size ▸ hn
  refine ⟨by rw [Array.size_setIfInBounds, h.size], fun x hx => ?_, fun i hi => ?_⟩
  · by_cases hxn : x = n
    · rw [hxn, Array.getElem?_setIfInBounds_self_of_lt hn']
    · rw [Array.getElem?_setIfInBounds_ne (by omega), h.zero x (by omega)]
  · rw [Array.getElem?_setIfInBounds_ne (by omega), h.kept i (by omega)]

end Line

/-! ## Sweeps -/

namespace Sweep

variable {σ : Type}

/-- The sweep has used up the cells left of column `x`. -/
structure Before (l : Line) (cells : Array UInt32) (x : Nat) (s : Sweep σ) : Prop where
  cleared : l.Cleared x cells s.cells
  cover : s.cover = coverBias + l.sum cells x

variable {b : Brush σ} {l : Line} {cells : Array UInt32} {marked : Nat → Prop} {s t : Sweep σ}
  {x : Nat}

theorem Before.extend (hl : l.Holds cells) {n : Nat} (h : Before l cells x s) (hxn : x ≤ n)
    (hn : n ≤ l.cellCount) (hz : ∀ z, x ≤ z → z < n → l.cell cells z = 0) : Before l cells n s :=
  ⟨h.cleared.extend hl hxn hn hz, by rw [h.cover, Line.sum_eq_of_zero hxn hz]⟩

theorem Before.stroke (h : Before l cells x s) (stroke : σ) :
    Before l cells x { s with stroke } := ⟨h.cleared, h.cover⟩

/-- The cell of a column within the row can be taken. -/
theorem Before.take? (hl : l.Holds cells) (h : Before l cells x s) (hx : x < l.cellCount) :
    ∃ t, s.take? l x = some t ∧ t.stroke = s.stroke ∧ Before l cells (x + 1) t := by
  have hcell : s.cells[l.cellStart + x]? = some (l.cell cells x) := by
    rw [h.cleared.kept _ (.inr le_rfl), hl.getElem? hx]
  refine ⟨⟨s.stroke, s.cells.setIfInBounds (l.cellStart + x) 0, s.cover + l.cell cells x⟩, ?_, rfl,
    ?_, ?_⟩
  · rw [Sweep.take?, if_pos hx, hcell]
    rfl
  · have := hl.le_size
    exact h.cleared.step (by omega)
  · rw [h.cover, Line.sum, UInt32.add_assoc]

theorem Before.take?_some (hl : l.Holds cells) (h : Before l cells x s)
    (ht : s.take? l x = some t) : Before l cells (x + 1) t := by
  have hx : x < l.cellCount := by
    by_contra hx
    rw [Sweep.take?, if_neg hx] at ht
    cases ht
  obtain ⟨t', ht', -, hb⟩ := h.take? hl hx
  rw [ht] at ht'
  cases ht'
  exact hb

/-- Drawing `n` pixels takes the cell after each of them. -/
theorem Before.pixels?_some (hl : l.Holds cells) (n : Nat) (h : Before l cells (x + 1) s)
    (ht : s.pixels? b l x n = some t) : Before l cells (x + n + 1) t := by
  induction n generalizing s x with
  | zero =>
    cases ht
    exact h
  | succ n ih =>
    simp only [pixels?, Option.bind_eq_bind, Option.bind_eq_some_iff] at ht
    obtain ⟨stroke, -, s', hs', ht⟩ := ht
    have := ih ((h.stroke stroke).take?_some hl hs') ht
    rwa [show x + 1 + n + 1 = x + (n + 1) + 1 by omega] at this

/-- Drawing a gap takes no cells. -/
theorem Before.gap?_some {y e : Nat} (h : Before l cells x s) (ht : s.gap? b l y e = some t) :
    Before l cells x t := by
  unfold gap? at ht
  split at ht
  · obtain ⟨stroke, -, ht⟩ := Option.bind_eq_some_iff.mp ht
    cases ht
    exact h.stroke stroke
  · cases ht
    exact h

/-- The runs of a row, the first one of them begun, use up its cells. -/
theorem Before.runs?_cleared (hl : l.Holds cells) (hsparse : l.Sparse cells marked)
    {last : Nat} {rest : List (Nat × Nat)} (hlast : ¬ marked last)
    (hrest : RunsOf marked (last + 1) rest) (hx : x ≤ min (last * cellsPerBit) l.stop)
    (h : Before l cells x s) (ht : s.runs? b l x last rest = some t) :
    l.Cleared (l.stop + 1) cells t.cells := by
  have hstop := hl.stop_lt
  induction rest generalizing s x last with
  | nil =>
    simp only [runs?, Option.bind_eq_bind, Option.bind_eq_some_iff] at ht
    obtain ⟨s₁, hs₁, ht⟩ := ht
    have h₁ := (h.take?_some hl hs₁).pixels?_some hl _ ht
    refine h₁.cleared.extend hl (by omega) hstop fun z hz hz' => ?_
    exact hsparse.cell_eq_zero_of_gt hlast hrest (by omega)
  | cons run rest ih =>
    obtain ⟨a, a'⟩ := run
    obtain ⟨hle, hab, hgap, -, ha', hrest⟩ := hrest
    simp only [runs?, Option.bind_eq_bind, Option.bind_eq_some_iff] at ht
    obtain ⟨s₁, hs₁, s₂, hs₂, ht⟩ := ht
    have h₂ := (h.take?_some hl hs₁).pixels?_some hl _ hs₂
    rw [show x + (min (last * cellsPerBit) l.stop - x) = min (last * cellsPerBit) l.stop by omega]
      at h₂
    split_ifs at ht with hend
    · obtain rfl := Option.some.inj ht
      rw [show min (last * cellsPerBit) l.stop = l.stop by omega] at h₂
      exact h₂.cleared
    · simp only [Option.bind_eq_some_iff] at ht
      obtain ⟨s₃, hs₃, ht⟩ := ht
      have hla : last * cellsPerBit + 1 ≤ a * cellsPerBit :=
        Nat.mul_lt_mul_of_pos_right hle (by decide)
      have hab' : a * cellsPerBit ≤ a' * cellsPerBit := Nat.mul_le_mul_right _ hab.le
      refine ih ha' hrest ?_ ((h₂.extend hl ?_ ?_ fun z hz hz' => ?_).gap?_some hs₃) ht
      · omega
      · omega
      · omega
      · exact hsparse.cell_eq_zero_of_gap hlast hgap (by omega) (by omega)

end Sweep

/-! ## Rows -/

/-- The row has been drawn: its cells up to and with the one after the last column are zero, and no
other cell holds anything new. -/
structure Line.Used (l : Line) (cells cells' : Array UInt32) : Prop where
  size : cells'.size = cells.size
  zero : ∀ x, x ≤ l.stop → cells'[l.cellStart + x]? = some 0
  kept : ∀ i, i < l.cellStart ∨ l.cellStart + l.cellCount ≤ i → cells'[i]? = cells[i]?
  behind : ∀ x, l.stop < x → x < l.cellCount →
    cells'[l.cellStart + x]? = cells[l.cellStart + x]? ∨ cells'[l.cellStart + x]? = some 0

theorem Line.Cleared.used {l : Line} {cells cells' : Array UInt32} (hl : l.Holds cells)
    (h : l.Cleared (l.stop + 1) cells cells') : l.Used cells cells' := by
  have := hl.stop_lt
  refine ⟨h.size, fun x hx => h.zero x (by omega), fun i hi => h.kept i (by omega), ?_⟩
  exact fun x hx _ => .inl (h.kept _ (by omega))

/-- A cell behind the row may be set to zero as well. -/
theorem Line.Cleared.used_step {l : Line} {cells cells' : Array UInt32} {x : Nat}
    (hl : l.Holds cells) (h : l.Cleared x cells cells') (hx : l.stop ≤ x) (hx' : x < l.cellCount) :
    l.Used cells (cells'.setIfInBounds (l.cellStart + x) 0) := by
  have hsize := hl.le_size
  have hcleared := h.step (by have := h.size; omega)
  refine ⟨hcleared.size, fun z hz => hcleared.zero z (by omega),
    fun i hi => hcleared.kept i (by omega), fun z hz _ => ?_⟩
  by_cases hzx : z ≤ x
  · exact .inr (hcleared.zero z (by omega))
  · exact .inl (hcleared.kept _ (by omega))

/-- A row that has been drawn has used up its cells. -/
theorem drawRuns?_used {σ : Type} {b : Brush σ} {l : Line} {cells cells' : Array UInt32}
    {marked : Nat → Prop} {stroke stroke' : σ} {runs : List (Nat × Nat)} (hl : l.Holds cells)
    (hsparse : l.Sparse cells marked) (hruns : RunsOf marked 0 runs)
    (h : drawRuns? b l stroke cells runs = some (stroke', cells')) : l.Used cells cells' := by
  have hstop := hl.stop_lt
  cases runs with
  | nil =>
    cases h
    refine ((Line.Cleared.refl l cells).extend hl (Nat.zero_le _) hstop fun z _ _ => ?_).used hl
    exact hsparse.cell_eq_zero_of_unmarked (fun g => hruns g (Nat.zero_le g)) z
  | cons run rest =>
    obtain ⟨a, a'⟩ := run
    obtain ⟨-, hab, hbefore, -, ha', hrest⟩ := hruns
    have hzero : ∀ z, 0 ≤ z → z < a * cellsPerBit → l.cell cells z = 0 := fun z _ hz =>
      hsparse.cell_eq_zero_of_lt (fun g hg => hbefore g (Nat.zero_le g) hg) hz
    simp only [drawRuns?, Option.bind_eq_bind, Option.bind_eq_some_iff] at h
    obtain ⟨started, -, h⟩ := h
    split_ifs at h with hend hcount
    · -- the row ends in front of its first run, whose first cell is set to zero all the same
      obtain ⟨-, rfl⟩ := Prod.mk.inj (Option.some.inj h)
      exact ((Line.Cleared.refl l cells).extend hl (Nat.zero_le _) hcount.le hzero).used_step hl
        hend hcount
    · obtain ⟨-, rfl⟩ := Prod.mk.inj (Option.some.inj h)
      have hcleared := (Line.Cleared.refl l cells).extend hl (Nat.zero_le (l.stop + 1)) hstop
        fun z hz hz' => hzero z hz (by omega)
      exact hcleared.used hl
    · simp only [Option.bind_eq_some_iff] at h
      obtain ⟨s, hs, h⟩ := h
      obtain ⟨-, rfl⟩ := Prod.mk.inj (Option.some.inj h)
      have hbegin : Sweep.Before l cells 0 ⟨started, cells, coverBias⟩ := ⟨.refl l cells, rfl⟩
      have hab' : a * cellsPerBit ≤ a' * cellsPerBit := Nat.mul_le_mul_right _ hab.le
      have hbefore := hbegin.extend hl (Nat.zero_le (a * cellsPerBit)) (by omega) hzero
      exact (hbefore.runs?_cleared hl hsparse ha' hrest (by omega) hs).used hl

end AnalyticFill

end Scanline
