import Scanline.Proofs.Box.Area

/-
  When a box with edges between pixels is made. The constructor looks at the inner columns of the
  rows only (`isSome_ofFixed?_iff`). These have as much as any column, so that no box is left out
  that some pixel would show. But a box of two columns has no inner ones, and with more than two
  rows nothing is looked at: some boxes are made although every pixel rounds to nothing (`Hollow`).
  `ofFixed?_isSome_iff_visible`: a box is made if and only if it is visible or hollow.
-/

namespace Scanline

namespace FractionalBox

variable {x0 y0 x1 y1 : Int} {alpha : Nat}

/-- Some pixel is covered by the box. -/
def Visible (alpha : Nat) (x0 y0 x1 y1 : Int) : Prop :=
  ∃ px py : Int, 0 < overlap x0 x1 px * overlap y0 y1 py * min alpha 255 / 65536

/-- No pixel is covered by the box, which touches more than one column; but it touches more than
two rows as well, or in one of its rows a pixel would be covered if it were touched over its whole
width. -/
def Hollow (alpha : Nat) (x0 y0 x1 y1 : Int) : Prop :=
  ¬ Visible alpha x0 y0 x1 y1 ∧ endCell x1 - firstCell x0 ≠ 1 ∧
    (2 < endCell y1 - firstCell y0 ∨
      ∃ py : Int, 0 < 256 * overlap y0 y1 py * min alpha 255 / 65536)

/-- What the inner columns have in row `py`. -/
def innerAt (alpha : Nat) (x0 y0 x1 y1 py : Int) : Nat :=
  (rowTier x0 x1 (overlap y0 y1 py * min alpha 255)).inner

theorem innerAt_of_columns (hw : endCell x1 - firstCell x0 ≠ 1) (py : Int) :
    innerAt alpha x0 y0 x1 y1 py = 256 * overlap y0 y1 py * min alpha 255 / 65536 := by
  unfold innerAt rowTier
  rw [if_neg hw, Nat.mul_assoc]
  exact (Nat.mul_div_mul_left _ 256 (by decide)).symm

section

variable (hx0 : 0 ≤ x0) (hx : x0 < x1) (hy0 : 0 ≤ y0) (hy : y0 < y1)

include hx0 hx in
theorem innerAt_of_column (hw : endCell x1 - firstCell x0 = 1) (py : Int) :
    innerAt alpha x0 y0 x1 y1 py = area alpha x0 y0 x1 y1 (firstCell x0) py := by
  unfold innerAt rowTier area
  rw [if_pos hw, overlap_eq hx0 hx le_rfl (by omega), if_pos rfl, Nat.mul_assoc]
  rfl

include hx0 hx in
/-- A box that shows in a row has something in the inner columns there. -/
theorem Visible.exists_innerAt (h : Visible alpha x0 y0 x1 y1) :
    ∃ py, innerAt alpha x0 y0 x1 y1 py ≠ 0 := by
  obtain ⟨px, py, hpos⟩ := h
  refine ⟨py, fun hinner => ?_⟩
  have harea : area alpha x0 y0 x1 y1 px py = 0 := area_eq_zero_of_inner hx0 hx hinner px
  exact hpos.ne' harea

include hx0 hx in
theorem visible_of_innerAt (hw : endCell x1 - firstCell x0 = 1) {py : Int}
    (h : innerAt alpha x0 y0 x1 y1 py ≠ 0) : Visible alpha x0 y0 x1 y1 := by
  rw [innerAt_of_column hx0 hx hw] at h
  exact ⟨firstCell x0, py, Nat.pos_of_ne_zero h⟩

include hy0 hy in
/-- The inner columns have something in the first row, in the last row, or in one between. -/
theorem exists_innerAt_iff (hh : endCell y1 - firstCell y0 ≠ 1) :
    (∃ py, innerAt alpha x0 y0 x1 y1 py ≠ 0) ↔
      (rowTier x0 x1 (firstPart y0 y1 * min alpha 255)).inner ≠ 0 ∨
      (rowTier x0 x1 (lastPart y1 * min alpha 255)).inner ≠ 0 ∨
      2 < endCell y1 - firstCell y0 ∧ (rowTier x0 x1 (256 * min alpha 255)).inner ≠ 0 := by
  have hrows := firstCell_lt hy0 hy
  have hrow {py : Int} (hp : firstCell y0 ≤ py) (hp' : py < endCell y1) :=
    congrArg CoverageTier.inner (rowTier_overlap hy0 hy hp hp' x0 x1 (min alpha 255))
  constructor
  · rintro ⟨py, hinner⟩
    by_cases hp : firstCell y0 ≤ py ∧ py < endCell y1
    · unfold innerAt at hinner
      rw [hrow hp.1 hp.2] at hinner
      split_ifs at hinner
      · exact .inl hinner
      · exact .inr (.inl hinner)
      · exact .inr (.inr ⟨by omega, hinner⟩)
    · refine absurd ?_ hinner
      unfold innerAt rowTier
      rw [overlap_eq_zero hy0 hy hp]
      split <;> simp [CoverageTier.uniform, wideTier]
  · rintro (htop | hbottom | ⟨hthree, hmiddle⟩)
    · refine ⟨firstCell y0, ?_⟩
      unfold innerAt
      rwa [hrow le_rfl (by omega), if_pos rfl]
    · refine ⟨(endCell y1 : Int) - 1, ?_⟩
      unfold innerAt
      rwa [hrow (by omega) (by omega), if_neg (by omega), if_pos (by omega)]
    · refine ⟨firstCell y0 + 1, ?_⟩
      unfold innerAt
      rwa [hrow (by omega) (by omega), if_neg (by omega), if_neg (by omega)]

/-- Rows are left when the first and the last one are left out as far as they cover nothing. -/
theorem shrink_nonempty_iff {b : Box} {top bottom : CoverageTier} (hh : 2 ≤ b.y1 - b.y0) :
    (shrink b top bottom).y0 < (shrink b top bottom).y1 ↔
      2 < b.y1 - b.y0 ∨ top.inner ≠ 0 ∨ bottom.inner ≠ 0 := by
  unfold shrink
  dsimp only
  split_ifs <;> omega

include hx0 hx hy0 hy in
/-- A box is made if the inner columns have something, and if there are several columns and more
than two rows. -/
theorem isSome_ofFixed?_iff :
    (ofFixed? alpha x0 y0 x1 y1).isSome ↔
      (∃ py, innerAt alpha x0 y0 x1 y1 py ≠ 0) ∨
      endCell x1 - firstCell x0 ≠ 1 ∧ 2 < endCell y1 - firstCell y0 := by
  have hrows := firstCell_lt hy0 hy
  have hread := ofFixed?_eq alpha hx0 hx hy0 hy
  dsimp only at hread
  rw [hread]
  by_cases hh : endCell y1 - firstCell y0 = 1
  · -- the only row has the largest part of all
    have hfirst : innerAt alpha x0 y0 x1 y1 (firstCell y0) =
        (rowTier x0 x1 (firstPart y0 y1 * min alpha 255)).inner := by
      unfold innerAt
      rw [overlap_eq hy0 hy le_rfl (by omega), if_pos rfl]
    have hmax (py : Int) : innerAt alpha x0 y0 x1 y1 py ≤
        innerAt alpha x0 y0 x1 y1 (firstCell y0) := by
      rw [hfirst]
      exact inner_rowTier_mono x0 x1 (Nat.mul_le_mul_right _ (overlap_le_firstPart hy0 hy hh py))
    have hsome : (∃ py, innerAt alpha x0 y0 x1 y1 py ≠ 0) ↔
        innerAt alpha x0 y0 x1 y1 (firstCell y0) ≠ 0 := by
      constructor
      · rintro ⟨py, hpy⟩
        have := hmax py
        omega
      · intro h
        exact ⟨_, h⟩
    rw [if_pos hh, hsome, hfirst]
    split_ifs with htop
    · simp [htop, hh]
    · simp [htop]
  · have htouched : (touched x0 y0 x1 y1).y1 - (touched x0 y0 x1 y1).y0 =
        (endCell y1 - firstCell y0 : Nat) := by
      dsimp only [touched]
      omega
    have hnonempty := @shrink_nonempty_iff (touched x0 y0 x1 y1)
      (rowTier x0 x1 (firstPart y0 y1 * min alpha 255))
      (rowTier x0 x1 (lastPart y1 * min alpha 255)) (by omega)
    have htop :=
      inner_rowTier_mono x0 x1 (Nat.mul_le_mul_right (min alpha 255) (firstPart_le y0 y1))
    have hbottom := inner_rowTier_mono x0 x1 (Nat.mul_le_mul_right (min alpha 255) (lastPart_le y1))
    rw [if_neg hh, exists_innerAt_iff hy0 hy hh]
    rw [htouched] at hnonempty
    split_ifs with hskip
    · simp only [Option.isSome_none, Bool.false_eq_true, false_iff]
      omega
    · simp only [Option.isSome_some, true_iff]
      omega

include hx0 hx hy0 hy in
theorem isSome_iff_visible_or_hollow :
    (ofFixed? alpha x0 y0 x1 y1).isSome ↔
      Visible alpha x0 y0 x1 y1 ∨ Hollow alpha x0 y0 x1 y1 := by
  rw [isSome_ofFixed?_iff hx0 hx hy0 hy]
  by_cases hvisible : Visible alpha x0 y0 x1 y1
  · simp only [hvisible, true_or, iff_true]
    exact .inl (hvisible.exists_innerAt hx0 hx)
  · by_cases hw : endCell x1 - firstCell x0 = 1
    · have hnone : ¬ ∃ py, innerAt alpha x0 y0 x1 y1 py ≠ 0 :=
        fun ⟨_, h⟩ => hvisible (visible_of_innerAt hx0 hx hw h)
      simp [Hollow, hw, hnone, hvisible]
    · simp only [Hollow, hvisible, false_or, not_false_eq_true, true_and, hw, innerAt_of_columns hw,
        Nat.pos_iff_ne_zero, ne_eq]
      exact or_comm

include hx0 hx hy0 hy in
/-- A column between two others is covered over its whole width, so that a box with such a column is
only hollow where nothing is drawn at all. -/
theorem Hollow.two_columns (h : Hollow alpha x0 y0 x1 y1) (halpha : 0 < alpha) :
    endCell x1 - firstCell x0 = 2 := by
  obtain ⟨hvisible, hw, hrow⟩ := h
  have hcolumns := firstCell_lt hx0 hx
  by_contra hthree
  have hwhole : overlap x0 x1 (firstCell x0 + 1) = 256 := by
    rw [overlap_eq hx0 hx (by omega) (by omega), if_neg (by omega), if_neg (by omega)]
  apply hvisible
  rcases hrow with hrows | ⟨py, hpy⟩
  · have hfull : overlap y0 y1 (firstCell y0 + 1) = 256 := by
      rw [overlap_eq hy0 hy (by omega) (by omega), if_neg (by omega), if_neg (by omega)]
    refine ⟨firstCell x0 + 1, firstCell y0 + 1, ?_⟩
    rw [hwhole, hfull]
    omega
  · refine ⟨firstCell x0 + 1, py, ?_⟩
    rwa [hwhole]

end

/-- A box is made if and only if it covers some pixel or is hollow, which, unless the alpha is 0,
only boxes of two columns are. A box that is made covers some pixel if and only if it is not
hollow. -/
theorem ofFixed?_isSome_iff_visible (alpha : Nat) (hx0 : 0 ≤ x0) (hx : x0 < x1)
    (hx1 : x1 ≤ maxInt32) (hy0 : 0 ≤ y0) (hy : y0 < y1) (hy1 : y1 ≤ maxInt32) :
    ((ofFixed? alpha x0 y0 x1 y1).isSome ↔
      (∃ px py : Int, 0 < overlap x0 x1 px * overlap y0 y1 py * min alpha 255 / 65536) ∨
        Hollow alpha x0 y0 x1 y1) ∧
    (∀ b, ofFixed? alpha x0 y0 x1 y1 = some b →
      ((∃ px py : Int, 0 < b.coverageAt px py) ↔ ¬ Hollow alpha x0 y0 x1 y1)) ∧
    (Hollow alpha x0 y0 x1 y1 → 0 < alpha → endCell x1 - firstCell x0 = 2) := by
  have hmade := @isSome_iff_visible_or_hollow x0 y0 x1 y1 alpha hx0 hx hy0 hy
  refine ⟨hmade, fun b hb => ?_, fun h => h.two_columns hx0 hx hy0 hy⟩
  have hcoverage : (∃ px py : Int, 0 < b.coverageAt px py) ↔ Visible alpha x0 y0 x1 y1 := by
    simp only [coverageAt_of_ofFixed? hx0 hx hx1 hy0 hy hy1 hb]
    exact Iff.rfl
  rw [hcoverage]
  have hany := hmade.mp (by rw [hb]; rfl)
  constructor
  · intro h hhollow
    exact hhollow.1 h
  · intro h
    exact hany.resolve_right h

/-- A sliver over the edge between two columns, a hundred and twenty-eighth of a pixel wide: it is
made, and shows nowhere. -/
theorem ofFixed?_isSome_iff_visible_sliver :
    (256 : Int) ≤ maxInt32 ∧ Hollow 255 255 0 257 256 ∧
      ∃ b, ofFixed? 255 255 0 257 256 = some b ∧ ¬ ∃ px py : Int, 0 < b.coverageAt px py := by
  have hhollow : Hollow 255 255 0 257 256 := by
    refine ⟨?_, by decide, .inr ⟨0, by decide⟩⟩
    rintro ⟨px, py, hpos⟩
    have hx : overlap 255 257 px ≤ 1 := by
      unfold overlap
      omega
    have hprod := Nat.mul_le_mul hx (overlap_le 0 256 py)
    rw [Nat.min_self] at hpos
    omega
  have h := @ofFixed?_isSome_iff_visible 255 0 257 256 255 (by decide) (by decide) (by decide)
    (by decide) (by decide) (by decide)
  refine ⟨by decide, hhollow, _, rfl, fun hvisible => ?_⟩
  exact (h.2.1 _ rfl).mp hvisible hhollow

end FractionalBox

end Scanline
