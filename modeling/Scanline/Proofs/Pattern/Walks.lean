import Scanline.Pattern.Walk

/-
  Walks over a placed pattern. A walk that is taken one row or one column further is the walk that
  is started there (`RowWalk.Sound.next_start`, `ColumnWalk.Sound.next_start`), and every row and
  column that it gives lies in the pattern.
-/

namespace Scanline

/-- A coordinate that fits the 32-bit words. -/
def FitsWord (v : Int) : Prop := minInt32 ≤ v ∧ v ≤ maxInt32

theorem wrap32_of_fits {v : Int} (h : FitsWord v) : wrap32 v = v :=
  wrap32_of_range h.1 h.2

theorem word32?_of_fits {v : Int} (h : FitsWord v) : word32? v = some v := if_pos h

theorem succ32_of_fits {v : Int} (h : FitsWord (v + 1)) : succ32 v = v + 1 :=
  Int.min_eq_left h.2

/-- The remainder of the next number is the next remainder, or zero where the period ends. -/
theorem emod_add_one {p : Int} (hp : 0 < p) (a : Int) :
    (a + 1) % p = if a % p + 1 = p then 0 else a % p + 1 := by
  have hnonneg := Int.emod_nonneg a (Int.ne_of_gt hp)
  have hlt := Int.emod_lt_of_pos a hp
  rw [← Int.emod_add_emod]
  split
  · rename_i h
    rw [h, Int.emod_self]
  · exact Int.emod_eq_of_lt (by omega) (by omega)

namespace RowWalk

/-- The rows of a source that is not empty: padded, or with a period of one or two heights. -/
structure Sound (w : RowWalk) : Prop where
  height_pos : 0 < w.height
  period : w.extend = .pad ∨ (w.height ≤ w.period ∧ w.period ≤ 2 * w.height ∧ w.period ≤ maxInt32)

/-- The row lies in the period. -/
def Inside (w : RowWalk) : Prop := w.extend = .pad ∨ (0 ≤ w.y ∧ w.y < w.period)

variable {w : RowWalk}

theorem Sound.inside_start (h : w.Sound) (y : Int) : (w.start y).Inside := by
  have hpos := h.height_pos
  rcases h.period with hpad | ⟨hlow, -, -⟩
  · exact .inl hpad
  · by_cases hpad : w.extend = .pad
    · exact .inl hpad
    · have hy : (w.start y).y = wrap32 (y + w.ty) % w.period := if_neg hpad
      refine .inr ?_
      rw [hy]
      exact ⟨Int.emod_nonneg _ (by omega), Int.emod_lt_of_pos _ (by omega)⟩

theorem Sound.start (h : w.Sound) (y : Int) : (w.start y).Sound := ⟨h.height_pos, h.period⟩

theorem Sound.next (h : w.Sound) : w.next.Sound := ⟨h.height_pos, h.period⟩

theorem Sound.inside_next (h : w.Sound) (hw : w.Inside) : w.next.Inside := by
  have hpos := h.height_pos
  by_cases hpad : w.extend = .pad
  · exact .inl hpad
  · obtain ⟨hlow, -, hword⟩ := h.period.resolve_left hpad
    obtain ⟨h0, hlt⟩ := hw.resolve_left hpad
    have hsucc : succ32 w.y = w.y + 1 := succ32_of_fits ⟨by unfold minInt32; omega, by omega⟩
    have hy : w.next.y = if w.period ≤ w.y + 1 then 0 else w.y + 1 := by
      unfold RowWalk.next
      rw [hsucc]
      simp only [ne_eq, hpad, not_false_eq_true, true_and]
    refine .inr ?_
    rw [hy]
    change 0 ≤ _ ∧ _ < w.period
    split <;> omega

/-- The row that a walk gives is a row of the source. -/
theorem Sound.index_lt (h : w.Sound) (hw : w.Inside) : (w.index : Int) < w.height := by
  have hpos := h.height_pos
  unfold index
  by_cases hpad : w.extend = .pad
  · rw [if_pos hpad]
    have := clampInt_mem (show 0 ≤ w.height - 1 by omega) w.y
    omega
  · obtain ⟨-, hhigh, -⟩ := h.period.resolve_left hpad
    have hin := hw.resolve_left hpad
    rw [if_neg hpad]
    split <;> omega

/-- The walk at a row of the pattern that may lie anywhere. -/
def moveTo (w : RowWalk) (v : Int) : RowWalk :=
  { w with y := if w.extend = .pad then v else v % w.period }

theorem start_eq_moveTo {y : Int} (hy : FitsWord (y + w.ty)) : w.start y = w.moveTo (y + w.ty) := by
  change w.moveTo (wrap32 (y + w.ty)) = w.moveTo (y + w.ty)
  rw [wrap32_of_fits hy]

/-- One row further is the next row; only rows that pad can leave the words. -/
theorem Sound.next_moveTo (h : w.Sound) {v : Int} (hv : w.extend = .pad → FitsWord (v + 1)) :
    (w.moveTo v).next = w.moveTo (v + 1) := by
  have hpos := h.height_pos
  unfold RowWalk.next moveTo
  dsimp only
  by_cases hpad : w.extend = .pad
  · have hkept : ¬(w.extend ≠ .pad ∧ w.period ≤ succ32 v) := fun hn => hn.1 hpad
    simp only [hpad, if_true] at hkept ⊢
    rw [if_neg hkept, succ32_of_fits (hv hpad)]
  · obtain ⟨hlow, -, hword⟩ := h.period.resolve_left hpad
    have hmod := Int.emod_lt_of_pos v (show 0 < w.period by omega)
    have hmod0 := Int.emod_nonneg v (show w.period ≠ 0 by omega)
    simp only [hpad, if_false]
    rw [succ32_of_fits ⟨by unfold minInt32; omega, by omega⟩, emod_add_one (by omega)]
    congr 1
    by_cases hend : v % w.period + 1 = w.period
    · rw [if_pos hend, if_pos ⟨hpad, by omega⟩]
    · rw [if_neg hend, if_neg (fun hn => by omega)]

/-- One row further is a new start there. -/
theorem Sound.next_start (h : w.Sound) {y : Int} (hy : FitsWord (y + w.ty))
    (hy' : FitsWord (y + 1 + w.ty)) : (w.start y).next = w.start (y + 1) := by
  have hnext : y + w.ty + 1 = y + 1 + w.ty := by omega
  rw [start_eq_moveTo hy, start_eq_moveTo hy', h.next_moveTo fun _ => by rwa [hnext], hnext]

end RowWalk

namespace ColumnWalk

/-- The columns of a source that is not empty: a fold has a period of one or two widths. -/
structure Sound (w : ColumnWalk) : Prop where
  width_pos : 0 < w.width
  width_le : w.width ≤ maxInt32
  period : w.rule = .fold → w.width ≤ w.period ∧ w.period ≤ 2 * w.width

/-- The column lies in the period; a mirrored one is negative. -/
def Inside (w : ColumnWalk) : Prop :=
  match w.rule with
  | .pad => True
  | .tile => 0 ≤ w.x ∧ w.x < w.width
  | .fold => w.width - w.period ≤ w.x ∧ w.x < w.width

variable {w : ColumnWalk}

theorem Sound.inside_start (h : w.Sound) (x : Int) : (w.start x).Inside := by
  have hpos := h.width_pos
  unfold Inside ColumnWalk.start
  dsimp only
  cases hrule : w.rule with
  | pad => trivial
  | tile => exact ⟨Int.emod_nonneg _ (by omega), Int.emod_lt_of_pos _ hpos⟩
  | fold =>
    obtain ⟨hlow, -⟩ := h.period hrule
    have h0 := Int.emod_nonneg (wrap32 (x + w.tx)) (show w.period ≠ 0 by omega)
    have hlt := Int.emod_lt_of_pos (wrap32 (x + w.tx)) (show 0 < w.period by omega)
    dsimp only
    split <;> omega

theorem Sound.start (h : w.Sound) (x : Int) : (w.start x).Sound :=
  ⟨h.width_pos, h.width_le, h.period⟩

theorem Sound.next (h : w.Sound) : w.next.Sound := ⟨h.width_pos, h.width_le, h.period⟩

theorem Sound.inside_next (h : w.Sound) (hw : w.Inside) : w.next.Inside := by
  have hpos := h.width_pos
  have hword := h.width_le
  unfold Inside at hw ⊢
  unfold ColumnWalk.next
  dsimp only
  cases hrule : w.rule with
  | pad => trivial
  | tile =>
    rw [hrule] at hw
    dsimp only at hw ⊢
    have hsucc : succ32 w.x = w.x + 1 := succ32_of_fits ⟨by unfold minInt32; omega, by omega⟩
    rw [hsucc]
    split <;> omega
  | fold =>
    rw [hrule] at hw
    dsimp only at hw ⊢
    obtain ⟨hlow, hhigh⟩ := h.period hrule
    have hsucc : succ32 w.x = w.x + 1 := Int.min_eq_left (by omega)
    rw [hsucc]
    split <;> omega

/-- The column that a walk gives is a column of the source. -/
theorem Sound.index_lt (h : w.Sound) (hw : w.Inside) : (w.index : Int) < w.width := by
  have hpos := h.width_pos
  unfold Inside at hw
  unfold index
  cases hrule : w.rule with
  | pad =>
    have := clampInt_mem (show 0 ≤ w.width - 1 by omega) w.x
    dsimp only
    omega
  | tile =>
    rw [hrule] at hw
    dsimp only at hw ⊢
    omega
  | fold =>
    rw [hrule] at hw
    obtain ⟨-, hhigh⟩ := h.period hrule
    dsimp only at hw ⊢
    unfold foldSign
    split <;> omega

/-- The walk at a column of the pattern that may lie anywhere. -/
def moveTo (w : ColumnWalk) (v : Int) : ColumnWalk :=
  { w with
    x :=
      match w.rule with
      | .pad => v
      | .tile => v % w.width
      | .fold => if w.width ≤ v % w.period then v % w.period - w.period else v % w.period }

theorem start_eq_moveTo {x : Int} (hx : FitsWord (x + w.tx)) :
    w.start x = w.moveTo (x + w.tx) := by
  change w.moveTo (wrap32 (x + w.tx)) = w.moveTo (x + w.tx)
  rw [wrap32_of_fits hx]

/-- One column further is the next column; only columns that pad can leave the words. -/
theorem Sound.next_moveTo (h : w.Sound) {v : Int} (hv : w.rule = .pad → FitsWord (v + 1)) :
    (w.moveTo v).next = w.moveTo (v + 1) := by
  have hpos := h.width_pos
  have hword := h.width_le
  unfold ColumnWalk.next moveTo
  dsimp only
  cases hrule : w.rule with
  | pad =>
    dsimp only
    rw [succ32_of_fits (hv hrule)]
  | tile =>
    have h0 := Int.emod_nonneg v (Int.ne_of_gt hpos)
    have hlt := Int.emod_lt_of_pos v hpos
    have hsucc : succ32 (v % w.width) = v % w.width + 1 := Int.min_eq_left (by omega)
    dsimp only
    rw [hsucc, emod_add_one hpos]
    congr 1
    split <;> split <;> omega
  | fold =>
    obtain ⟨hlow, hhigh⟩ := h.period hrule
    have h0 := Int.emod_nonneg v (show w.period ≠ 0 by omega)
    have hlt := Int.emod_lt_of_pos v (show 0 < w.period by omega)
    dsimp only
    have hsucc : ∀ u : Int, u < w.width → succ32 u = u + 1 := fun u hu => Int.min_eq_left (by omega)
    rw [emod_add_one (by omega)]
    congr 1
    by_cases hmirror : w.width ≤ v % w.period
    · rw [if_pos hmirror, hsucc _ (by omega)]
      repeat' split
      all_goals omega
    · rw [if_neg hmirror, hsucc _ (by omega)]
      repeat' split
      all_goals omega

/-- One column further is a new start there. -/
theorem Sound.next_start (h : w.Sound) {x : Int} (hx : FitsWord (x + w.tx))
    (hx' : FitsWord (x + 1 + w.tx)) : (w.start x).next = w.start (x + 1) := by
  have hnext : x + w.tx + 1 = x + 1 + w.tx := by omega
  rw [start_eq_moveTo hx, start_eq_moveTo hx', h.next_moveTo fun _ => by rwa [hnext], hnext]

end ColumnWalk

end Scanline
