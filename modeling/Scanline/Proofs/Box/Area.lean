import Scanline.Proofs.Box.Clipping

/-
  The coverage of boxes with edges between pixels is exact. Along each axis an edge to edge stretch
  touches some cells of a grid: a part of the first one, a part of the last one, and the whole of
  those between (`overlap_eq`). The tiers that the constructor makes are all of one kind, for a row
  of which some part is covered (`ofFixed?_eq`), and in a row of this kind every column has the
  product of both overlaps and the alpha, rounded down (`coverage_rowTier`). A row whose inner
  columns get nothing has nothing anywhere (`area_eq_zero_of_inner`), so that no coverage is lost
  with the rows and the boxes that the constructor leaves out (`coverageAt_of_ofFixed?`,
  `area_eq_zero_of_ofFixed?`).
-/

namespace Scanline

namespace FractionalBox

/-! ## Cells along an axis -/

/-- How much of the stretch from `a` to `b`, in steps of 1/256, lies in cell `p`. -/
def overlap (a b p : Int) : Nat := (min b (256 * p + 256) - max a (256 * p)).toNat

def firstCell (a : Int) : Nat := a.toNat / 256

/-- The cell after the last one. -/
def endCell (b : Int) : Nat := (b.toNat + 255) / 256

/-- How far a stretch that ends at `b` reaches into its last cell. -/
def lastPart (b : Int) : Nat := (b.toNat - 1) % 256 + 1

/-- How much the stretch from `a` to `b` covers of its first cell, which may be its last one. -/
def firstPart (a b : Int) : Nat :=
  (if endCell b - firstCell a = 1 then lastPart b else 256) - a.toNat % 256

variable {a b p : Int}

theorem firstCell_lt (ha : 0 ≤ a) (hab : a < b) : firstCell a < endCell b := by
  unfold firstCell endCell
  omega

theorem endCell_le (hb : 0 ≤ b) : (endCell b : Int) ≤ b := by
  unfold endCell
  omega

theorem overlap_eq (ha : 0 ≤ a) (hab : a < b) (hp : firstCell a ≤ p) (hp' : p < endCell b) :
    overlap a b p =
      if p = firstCell a then firstPart a b else if p + 1 = endCell b then lastPart b else 256 := by
  unfold overlap firstPart lastPart
  unfold firstCell endCell at *
  split_ifs <;> omega

theorem overlap_eq_zero (ha : 0 ≤ a) (hab : a < b) (hp : ¬ (firstCell a ≤ p ∧ p < endCell b)) :
    overlap a b p = 0 := by
  unfold overlap
  unfold firstCell endCell at hp
  omega

theorem overlap_le (a b p : Int) : overlap a b p ≤ 256 := by
  unfold overlap
  omega

theorem overlap_le_firstPart (ha : 0 ≤ a) (hab : a < b) (hw : endCell b - firstCell a = 1)
    (p : Int) : overlap a b p ≤ firstPart a b := by
  by_cases hp : firstCell a ≤ p ∧ p < endCell b
  · rw [overlap_eq ha hab hp.1 hp.2, if_pos (by omega)]
  · rw [overlap_eq_zero ha hab hp]
    exact Nat.zero_le _

theorem firstPart_le_lastPart (h : endCell b - firstCell a = 1) : firstPart a b ≤ lastPart b := by
  unfold firstPart
  rw [if_pos h]
  exact Nat.sub_le _ _

theorem firstPart_le (a b : Int) : firstPart a b ≤ 256 := by
  unfold firstPart lastPart
  split_ifs <;> omega

theorem lastPart_le (b : Int) : lastPart b ≤ 256 := by
  unfold lastPart
  omega

/-! ## Rows -/

/-- The tier of a row in columns `x0` to `x1`, of which `m` is the covered part times the alpha. -/
def rowTier (x0 x1 : Int) (m : Nat) : CoverageTier :=
  if endCell x1 - firstCell x0 = 1 then .uniform (firstPart x0 x1 * m / 65536)
  else wideTier (firstPart x0 x1) (lastPart x1) m 256

variable {x0 y0 x1 y1 px py : Int} {alpha m : Nat}

theorem rows_rowTier (x0 x1 : Int) (m : Nat) : (rowTier x0 x1 m).rows = 1 := by
  unfold rowTier
  split <;> rfl

/-- In each of its columns the tier has the covered part of the pixel times the alpha. -/
theorem coverage_rowTier (h0 : 0 ≤ x0) (hx : x0 < x1) (hp : firstCell x0 ≤ px)
    (hp' : px < endCell x1) (m : Nat) :
    (rowTier x0 x1 m).coverage (px - firstCell x0).toNat (endCell x1 - firstCell x0) =
      overlap x0 x1 px * m / 65536 := by
  rw [overlap_eq h0 hx hp hp']
  unfold rowTier CoverageTier.coverage
  by_cases hw : endCell x1 - firstCell x0 = 1
  · have hcell : px = firstCell x0 := by omega
    rw [if_pos hw, if_pos hcell, if_pos (by omega)]
    rfl
  · rw [if_neg hw]
    by_cases hfirst : px = firstCell x0
    · rw [if_pos hfirst, if_pos (by omega)]
      rfl
    · rw [if_neg hfirst, if_neg (by omega)]
      by_cases hlast : px + 1 = endCell x1
      · rw [if_pos hlast, if_pos (by omega)]
        rfl
      · rw [if_neg hlast, if_neg (by omega)]
        exact (Nat.mul_div_mul_left m 256 (by decide)).symm

/-- The inner columns have as much as any. -/
theorem part_le_inner (h0 : 0 ≤ x0) (hx : x0 < x1) (px : Int) (m : Nat) :
    overlap x0 x1 px * m / 65536 ≤ (rowTier x0 x1 m).inner := by
  unfold rowTier
  by_cases hw : endCell x1 - firstCell x0 = 1
  · rw [if_pos hw]
    exact Nat.div_le_div_right (Nat.mul_le_mul_right m (overlap_le_firstPart h0 hx hw px))
  · rw [if_neg hw]
    calc overlap x0 x1 px * m / 65536
        ≤ 256 * m / (256 * 256) :=
          Nat.div_le_div_right (Nat.mul_le_mul_right m (overlap_le x0 x1 px))
      _ = m / 256 := Nat.mul_div_mul_left m 256 (by decide)

/-- With a smaller part of the row covered, the inner columns have no more. -/
theorem inner_rowTier_mono {m' : Nat} (x0 x1 : Int) (h : m ≤ m') :
    (rowTier x0 x1 m).inner ≤ (rowTier x0 x1 m').inner := by
  unfold rowTier
  split
  · exact Nat.div_le_div_right (Nat.mul_le_mul_left _ h)
  · exact Nat.div_le_div_right h

/-- The coverage of a pixel: its part inside of the box times the alpha, rounded down. -/
def area (alpha : Nat) (x0 y0 x1 y1 px py : Int) : Nat :=
  overlap x0 x1 px * overlap y0 y1 py * min alpha 255 / 65536

/-- A row whose inner columns have nothing has nothing anywhere. -/
theorem area_eq_zero_of_inner (h0 : 0 ≤ x0) (hx : x0 < x1)
    (hinner : (rowTier x0 x1 (overlap y0 y1 py * min alpha 255)).inner = 0) (px : Int) :
    area alpha x0 y0 x1 y1 px py = 0 := by
  have hle := part_le_inner h0 hx px (overlap y0 y1 py * min alpha 255)
  rw [hinner, ← Nat.mul_assoc] at hle
  exact Nat.le_zero.mp hle

/-- Outside of the cells that the box touches there is no area. -/
theorem area_eq_zero_of_outside (hx0 : 0 ≤ x0) (hx : x0 < x1) (hy0 : 0 ≤ y0) (hy : y0 < y1)
    (h : ¬ ((firstCell x0 ≤ px ∧ px < endCell x1) ∧ (firstCell y0 ≤ py ∧ py < endCell y1))) :
    area alpha x0 y0 x1 y1 px py = 0 := by
  unfold area
  obtain h | h := not_and_or.mp h
  · rw [overlap_eq_zero hx0 hx h, Nat.zero_mul, Nat.zero_mul]
  · rw [overlap_eq_zero hy0 hy h, Nat.mul_zero, Nat.zero_mul]

/-! ## Tiers -/

/-- The tier of a row that is whole, in a row of several columns. -/
theorem wideTier_one (fl fr m : Nat) : wideTier fl fr m 1 = wideTier fl fr (256 * m) 256 := by
  have hscale (f : Nat) : f * m / (256 * 1) = f * (256 * m) / (256 * 256) := by
    rw [Nat.mul_left_comm, Nat.mul_div_mul_left _ _ (by decide)]
  unfold wideTier
  rw [hscale, hscale, Nat.mul_div_cancel_left m (by decide), Nat.div_one]

/-- The pixels that the box touches. -/
def touched (x0 y0 x1 y1 : Int) : Box := ⟨firstCell x0, firstCell y0, endCell x1, endCell y1⟩

/-- A box of one row is left out as a whole or not at all. -/
theorem shrink_oneRow {b : Box} {top bottom : CoverageTier} (hh : b.y1 - b.y0 = 1)
    (hle : top.inner ≤ bottom.inner) :
    (if (shrink b top bottom).y1 ≤ (shrink b top bottom).y0 then none
      else some (⟨shrink b top bottom, [top]⟩ : FractionalBox)) =
      if top.inner = 0 then none else some ⟨b, [top]⟩ := by
  unfold shrink
  dsimp only
  by_cases htop : top.inner = 0
  · rw [if_pos htop, if_pos htop]
    exact if_pos (by split_ifs <;> omega)
  · rw [if_neg htop, if_neg htop, if_neg (show bottom.inner ≠ 0 by omega)]
    exact if_neg (by omega)

/-- The constructor makes the tiers of the top row, of the whole rows and of the bottom row. -/
theorem ofFixed?_eq (alpha : Nat) (hx0 : 0 ≤ x0) (hx : x0 < x1) (hy0 : 0 ≤ y0) (hy : y0 < y1) :
    let top := rowTier x0 x1 (firstPart y0 y1 * min alpha 255)
    let middle := rowTier x0 x1 (256 * min alpha 255)
    let bottom := rowTier x0 x1 (lastPart y1 * min alpha 255)
    let bounds := shrink (touched x0 y0 x1 y1) top bottom
    ofFixed? alpha x0 y0 x1 y1 =
      if endCell y1 - firstCell y0 = 1 then
        if top.inner = 0 then none else some ⟨touched x0 y0 x1 y1, [top]⟩
      else if bounds.y1 ≤ bounds.y0 ∨ endCell x1 - firstCell x0 = 1 ∧ middle.inner = 0 then none
      else some ⟨bounds, stack top middle bottom (endCell y1 - firstCell y0)⟩ := by
  intro top middle bottom bounds
  by_cases hw : endCell x1 - firstCell x0 = 1
  · have htier (m : Nat) :
        rowTier x0 x1 m = .uniform ((lastPart x1 - x0.toNat % 256) * m / 65536) := by
      unfold rowTier firstPart
      rw [if_pos hw, if_pos hw]
    have hmiddle : middle =
        .uniform ((lastPart x1 - x0.toNat % 256) * min alpha 255 / 256) := by
      refine (htier _).trans (congrArg CoverageTier.uniform ?_)
      rw [Nat.mul_left_comm]
      exact Nat.mul_div_mul_left _ 256 (by decide)
    simp only [and_iff_right hw]
    unfold bounds
    rw [show top = _ from htier _, show bottom = _ from htier _, hmiddle]
    unfold ofFixed?
    exact (if_neg (by omega)).trans (if_pos hw)
  · have htier (m : Nat) : rowTier x0 x1 m =
        wideTier (256 - x0.toNat % 256) (lastPart x1) m 256 := by
      unfold rowTier firstPart
      rw [if_neg hw, if_neg hw]
    have hmiddle : middle = wideTier (256 - x0.toNat % 256) (lastPart x1) (min alpha 255) 1 :=
      (htier _).trans (wideTier_one _ _ _).symm
    have hread : ofFixed? alpha x0 y0 x1 y1 = if bounds.y1 ≤ bounds.y0 then none
        else if endCell y1 - firstCell y0 = 1 then some ⟨bounds, [top]⟩
        else some ⟨bounds, stack top middle bottom (endCell y1 - firstCell y0)⟩ := by
      unfold bounds
      rw [show top = _ from htier _, show bottom = _ from htier _, hmiddle]
      unfold ofFixed?
      exact (if_neg (by omega)).trans (if_neg hw)
    simp only [hread, hw, false_and, or_false]
    by_cases hh : endCell y1 - firstCell y0 = 1
    · simp only [if_pos hh]
      -- the last part of the only row is no less than its first part
      exact shrink_oneRow (by dsimp only [touched]; omega)
        (inner_rowTier_mono x0 x1 (Nat.mul_le_mul_right _ (firstPart_le_lastPart hh)))
    · simp only [if_neg hh]

/-- A tier that ends at a word goes on for its rows. -/
theorem stopAfter_eq_add {t : CoverageTier} {start stop : Int} (hstart : 0 ≤ start)
    (hstop : stop ≤ maxInt32) (h : start + t.rows = stop) : t.stopAfter start = stop := by
  have hmin : minInt32 ≤ 0 := by decide
  rw [stopAfter_eq (by omega) (by unfold Short; omega), h, Int.min_eq_left hstop]

theorem tierCoverage_cons (t : CoverageTier) {start : Int} (stop : Int) (hstart : 0 ≤ start)
    (hstop : stop ≤ maxInt32) (h : start + t.rows = stop) (rest : List CoverageTier) (i w : Nat) :
    tierCoverage py i w start (t :: rest) =
      if py < stop then t.coverage i w else tierCoverage py i w stop rest := by
  rw [tierCoverage, stopAfter_eq_add hstart hstop h]

/-- The tiers of a stack below its top row. -/
theorem tierCoverage_below (middle : CoverageTier) {bottom : CoverageTier} {start stop : Int}
    {h : Nat} (hstart : 0 ≤ start) (hstop : stop ≤ maxInt32) (hh : stop - start = h - 1)
    (htwo : 2 ≤ h) (hbottom : bottom.rows = 1) (hlo : start ≤ py) (hhi : py < stop) (i w : Nat) :
    tierCoverage py i w start
        ((if 2 < h then [{ middle with rows := h - 2 }] else []) ++ [bottom]) =
      (if py + 1 = stop then bottom else middle).coverage i w := by
  have hlast : tierCoverage py i w (stop - 1) [bottom] = bottom.coverage i w := by
    rw [tierCoverage_cons bottom stop (by omega) hstop (by rw [hbottom]; omega), if_pos hhi]
  by_cases hthree : 2 < h
  · have hmiddle : start + ((h - 2 : Nat) : Int) = stop - 1 := by omega
    rw [if_pos hthree, List.singleton_append,
      tierCoverage_cons { middle with rows := h - 2 } (stop - 1) hstart (by omega) hmiddle, hlast]
    by_cases hpy : py + 1 = stop
    · rw [if_neg (by omega), if_pos hpy]
    · rw [if_pos (by omega), if_neg hpy]
      rfl
  · rw [if_neg hthree, List.nil_append, show start = stop - 1 by omega, hlast, if_pos (by omega)]

/-- A row that is left out has nothing in its inner columns. -/
theorem inner_of_cut (bounds : Box) {top middle bottom : CoverageTier} (hlo : bounds.y0 ≤ py)
    (hhi : py < bounds.y1) (htwo : 2 ≤ bounds.y1 - bounds.y0)
    (hcut : ¬ ((shrink bounds top bottom).y0 ≤ py ∧ py < (shrink bounds top bottom).y1)) :
    (if py = bounds.y0 then top else if py + 1 = bounds.y1 then bottom else middle).inner = 0 := by
  unfold shrink at hcut
  dsimp only at hcut
  split_ifs at hcut ⊢ <;> omega

/-- In the rows that are left, the tiers of a stack are the top row, whole rows, and the bottom
row, whether the top row is left out or not. -/
theorem tierCoverage_stack {bounds : Box} {top middle bottom : CoverageTier} {h : Nat}
    (hy0 : 0 ≤ bounds.y0) (hy1 : bounds.y1 ≤ maxInt32) (hh : bounds.y1 - bounds.y0 = h)
    (htwo : 2 ≤ h) (htop : top.rows = 1) (hbottom : bottom.rows = 1)
    (hlo : (shrink bounds top bottom).y0 ≤ py) (hhi : py < bounds.y1) (i w : Nat) :
    tierCoverage py i w (shrink bounds top bottom).y0 (stack top middle bottom h) =
      (if py = bounds.y0 then top else if py + 1 = bounds.y1 then bottom else middle).coverage
        i w := by
  have hbelow (h1 : bounds.y0 + 1 ≤ py) := tierCoverage_below middle
    (by omega : 0 ≤ bounds.y0 + 1) hy1 (by omega) htwo hbottom h1 hhi i w
  unfold shrink stack at *
  dsimp only at *
  rw [List.append_assoc]
  by_cases hzero : top.inner = 0
  · rw [if_pos hzero] at hlo
    rw [if_pos hzero, if_neg (not_not.mpr hzero), List.nil_append, hbelow hlo,
      if_neg (show py ≠ bounds.y0 by omega)]
  · rw [if_neg hzero] at hlo
    rw [if_neg hzero, if_pos hzero, List.singleton_append,
      tierCoverage_cons top (bounds.y0 + 1) hy0 (by omega) (by rw [htop]; rfl)]
    by_cases hpy : py = bounds.y0
    · rw [if_pos (by omega), if_pos hpy]
    · rw [if_neg (by omega), if_neg hpy]
      exact hbelow (by omega)

/-- The tier of a row of the box has the part of the row that is covered. -/
theorem rowTier_overlap (hy0 : 0 ≤ y0) (hy : y0 < y1) (hp : firstCell y0 ≤ py)
    (hp' : py < endCell y1) (x0 x1 : Int) (m : Nat) :
    rowTier x0 x1 (overlap y0 y1 py * m) =
      if py = firstCell y0 then rowTier x0 x1 (firstPart y0 y1 * m)
      else if py + 1 = endCell y1 then rowTier x0 x1 (lastPart y1 * m)
      else rowTier x0 x1 (256 * m) := by
  rw [overlap_eq hy0 hy hp hp']
  split_ifs <;> rfl

/-- In a column of the box, the tier of a row has the area of the pixel. -/
theorem coverage_rowTier_overlap (hx0 : 0 ≤ x0) (hx : x0 < x1) (hp : firstCell x0 ≤ px)
    (hp' : px < endCell x1) :
    (rowTier x0 x1 (overlap y0 y1 py * min alpha 255)).coverage (px - firstCell x0).toNat
      (endCell x1 - firstCell x0) = area alpha x0 y0 x1 y1 px py := by
  rw [coverage_rowTier hx0 hx hp hp', ← Nat.mul_assoc]
  rfl

theorem width_touched (hx0 : 0 ≤ x0) (hx : x0 < x1) (hx1 : x1 ≤ maxInt32) {b : Box}
    (h0 : b.x0 = firstCell x0) (h1 : b.x1 = endCell x1) :
    b.width = endCell x1 - firstCell x0 := by
  have hcolumns := firstCell_lt hx0 hx
  have hend := endCell_le (b := x1) (by omega)
  have hwidth := Box.width_eq (b := b) (by omega) (by omega)
  omega

section

variable (hx0 : 0 ≤ x0) (hx : x0 < x1) (hx1 : x1 ≤ maxInt32) (hy0 : 0 ≤ y0) (hy : y0 < y1)
  (hy1 : y1 ≤ maxInt32)

include hx0 hx hx1 hy0 hy hy1

theorem coverageAt_oneRow (hh : endCell y1 - firstCell y0 = 1) (px py : Int) :
    (⟨touched x0 y0 x1 y1, [rowTier x0 x1 (firstPart y0 y1 * min alpha 255)]⟩ :
      FractionalBox).coverageAt px py = area alpha x0 y0 x1 y1 px py := by
  have hend := endCell_le (b := y1) (by omega)
  unfold coverageAt
  split
  · rename_i hin
    obtain ⟨hpx, hpx', hpy, hpy'⟩ := hin
    dsimp only [touched] at hpx hpx' hpy hpy' ⊢
    rw [width_touched hx0 hx hx1 rfl rfl, tierCoverage_cons _ (firstCell y0 + 1) (by omega)
      (by omega) (by rw [rows_rowTier]; rfl), if_pos (by omega),
      ← coverage_rowTier_overlap hx0 hx hpx hpx', rowTier_overlap hy0 hy hpy hpy',
      if_pos (by omega)]
  · rename_i hout
    exact (area_eq_zero_of_outside hx0 hx hy0 hy fun hin =>
      hout ⟨hin.1.1, hin.1.2, hin.2.1, hin.2.2⟩).symm

theorem coverageAt_stack (hh : endCell y1 - firstCell y0 ≠ 1) (px py : Int) :
    let top := rowTier x0 x1 (firstPart y0 y1 * min alpha 255)
    let middle := rowTier x0 x1 (256 * min alpha 255)
    let bottom := rowTier x0 x1 (lastPart y1 * min alpha 255)
    (⟨shrink (touched x0 y0 x1 y1) top bottom,
      stack top middle bottom (endCell y1 - firstCell y0)⟩ : FractionalBox).coverageAt px py =
        area alpha x0 y0 x1 y1 px py := by
  intro top middle bottom
  have hrows := firstCell_lt hy0 hy
  have hend := endCell_le (b := y1) (by omega)
  have htouched : (touched x0 y0 x1 y1).y1 - (touched x0 y0 x1 y1).y0 =
      (endCell y1 - firstCell y0 : Nat) := by
    dsimp only [touched]
    omega
  unfold coverageAt
  split
  · rename_i hin
    obtain ⟨hpx, hpx', hlo, hhi⟩ := hin
    have hshrunk := shrink_le (touched x0 y0 x1 y1) top bottom
    have hpy : firstCell y0 ≤ py := hshrunk.1.trans hlo
    have hpy' : py < endCell y1 := hhi.trans_le hshrunk.2
    rw [width_touched hx0 hx hx1 rfl rfl, tierCoverage_stack (Int.natCast_nonneg _)
      (hend.trans hy1) htouched (by omega) (rows_rowTier x0 x1 _) (rows_rowTier x0 x1 _) hlo hpy',
      ← coverage_rowTier_overlap hx0 hx hpx hpx', rowTier_overlap hy0 hy hpy hpy']
    rfl
  · rename_i hout
    by_cases hin : (firstCell x0 ≤ px ∧ px < endCell x1) ∧ (firstCell y0 ≤ py ∧ py < endCell y1)
    · -- a pixel that the box touches lies in a row that is left out
      refine (area_eq_zero_of_inner hx0 hx ?_ px).symm
      rw [rowTier_overlap hy0 hy hin.2.1 hin.2.2]
      exact inner_of_cut (touched x0 y0 x1 y1) hin.2.1 hin.2.2 (by omega) fun hrow =>
        hout ⟨hin.1.1, hin.1.2, hrow.1, hrow.2⟩
    · exact (area_eq_zero_of_outside hx0 hx hy0 hy hin).symm

/-- A box of the constructor covers of every pixel the part that lies inside of its edges. -/
theorem coverageAt_of_ofFixed? {b : FractionalBox} (h : ofFixed? alpha x0 y0 x1 y1 = some b)
    (px py : Int) : b.coverageAt px py = area alpha x0 y0 x1 y1 px py := by
  have hread := ofFixed?_eq alpha hx0 hx hy0 hy
  dsimp only at hread
  rw [h] at hread
  split_ifs at hread with hh htop hskip
  · obtain rfl := Option.some.inj hread
    exact coverageAt_oneRow hx0 hx hx1 hy0 hy hy1 hh px py
  · obtain rfl := Option.some.inj hread
    exact coverageAt_stack hx0 hx hx1 hy0 hy hy1 hh px py

end

/-- Where the constructor makes no box, every pixel is missed. -/
theorem area_eq_zero_of_ofFixed? (hx0 : 0 ≤ x0) (hx : x0 < x1) (hy0 : 0 ≤ y0) (hy : y0 < y1)
    (h : ofFixed? alpha x0 y0 x1 y1 = none) (px py : Int) : area alpha x0 y0 x1 y1 px py = 0 := by
  by_cases hin : (firstCell x0 ≤ px ∧ px < endCell x1) ∧ (firstCell y0 ≤ py ∧ py < endCell y1)
  · have hread := ofFixed?_eq alpha hx0 hx hy0 hy
    dsimp only at hread
    rw [h] at hread
    refine area_eq_zero_of_inner hx0 hx ?_ px
    rw [rowTier_overlap hy0 hy hin.2.1 hin.2.2]
    split_ifs at hread with hh htop hskip
    · rw [if_pos (by omega)]
      exact htop
    · obtain hempty | ⟨-, hmiddle⟩ := hskip
      · exact inner_of_cut (touched x0 y0 x1 y1) hin.2.1 hin.2.2
          (by dsimp only [touched]; omega) fun hrow => by omega
      · -- no row has more than a whole one
        have hmono {n : Nat} (hn : n ≤ 256) :
            (rowTier x0 x1 (n * min alpha 255)).inner = 0 :=
          Nat.le_zero.mp (hmiddle ▸ inner_rowTier_mono x0 x1 (Nat.mul_le_mul_right _ hn))
        split_ifs
        · exact hmono (firstPart_le y0 y1)
        · exact hmono (lastPart_le y1)
        · exact hmiddle
  · exact area_eq_zero_of_outside hx0 hx hy0 hy hin

end FractionalBox

end Scanline
