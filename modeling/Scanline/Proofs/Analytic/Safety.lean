import Scanline.Proofs.Canvas.Drawing
import Scanline.Proofs.Fetch.Reading

/-
  Analytic fills with any buffers. Nothing is asked of the bits and the cells but their number:
  bits may lie behind the last column, cells that are not zero need not lie in marked groups, and
  rows need not close. Drawing ends all the same, and with a brush that refuses what lies outside of
  the bounds and coverages above 255 it comes to the same (`drawWith?_within`). The bits of all rows
  are zero afterwards, and cells are as they were or zero (`Spent`).
-/

namespace Scanline

namespace AnalyticFill

/-! ## Brushes that refuse -/

section
variable {σ : Type} (b : Brush σ) (bounds : Box)

/-- The brush where it draws inside of the bounds and with a coverage that is at most 255; it
refuses everything else. -/
def within : Brush σ where
  startRow := b.startRow
  nextRow := b.nextRow
  start? := b.start?
  dab? s y x m :=
    if bounds.y0 ≤ y ∧ y < bounds.y1 ∧ x < rightEnd bounds ∧ m ≤ 255 then b.dab? s y x m else none
  span? s y x0 x1 m :=
    if bounds.y0 ≤ y ∧ y < bounds.y1 ∧ x1 ≤ rightEnd bounds ∧ m ≤ 255 then b.span? s y x0 x1 m
    else none

/-- The row lies in the bounds, ends where they do and comes to coverages up to 255. -/
structure Line.Within (l : Line) : Prop where
  top : bounds.y0 ≤ l.y
  bottom : l.y < bounds.y1
  stop : l.stop ≤ rightEnd bounds
  alpha : l.alpha ≤ 255

variable {b bounds} {l : Line}

theorem pixels?_within (hl : l.Within bounds) (n : Nat) (s : Sweep σ) {x : Nat}
    (hn : x + n ≤ l.stop) : s.pixels? (within b bounds) l x n = s.pixels? b l x n := by
  induction n generalizing s x with
  | zero => rfl
  | succ n ih =>
    have hallowed : bounds.y0 ≤ l.y ∧ l.y < bounds.y1 ∧ x < rightEnd bounds ∧ s.coverage l ≤ 255 :=
      ⟨hl.top, hl.bottom, by have := hl.stop; omega, l.rule.coverage_le hl.alpha s.cover⟩
    have hdab : (within b bounds).dab? s.stroke l.y x (s.coverage l) =
        b.dab? s.stroke l.y x (s.coverage l) := if_pos hallowed
    simp only [Sweep.pixels?, hdab]
    refine Option.bind_congr fun stroke _ => Option.bind_congr fun t _ => ih t (by omega)

theorem gap?_within (hl : l.Within bounds) (s : Sweep σ) (x : Nat) {runStart : Nat}
    (hx : runStart ≤ l.stop) : s.gap? (within b bounds) l x runStart = s.gap? b l x runStart := by
  have hallowed : bounds.y0 ≤ l.y ∧ l.y < bounds.y1 ∧ runStart ≤ rightEnd bounds ∧
      s.coverage l ≤ 255 :=
    ⟨hl.top, hl.bottom, hx.trans hl.stop, l.rule.coverage_le hl.alpha s.cover⟩
  have hspan : (within b bounds).span? s.stroke l.y x runStart (s.coverage l) =
      b.span? s.stroke l.y x runStart (s.coverage l) := if_pos hallowed
  simp only [Sweep.gap?, hspan]

/-- Runs are drawn inside of their row, however the bits that they come from are set. -/
theorem runs?_within (hl : l.Within bounds) (rest : List (Nat × Nat)) (s : Sweep σ) {x : Nat}
    (last : Nat) (hx : x ≤ l.stop) :
    s.runs? (within b bounds) l x last rest = s.runs? b l x last rest := by
  have hrun (s : Sweep σ) {x : Nat} (last : Nat) (hx : x ≤ l.stop) :
      s.pixels? (within b bounds) l x (min (last * cellsPerBit) l.stop - x) =
        s.pixels? b l x (min (last * cellsPerBit) l.stop - x) :=
    pixels?_within hl _ s (by omega)
  induction rest generalizing s x last with
  | nil => exact Option.bind_congr fun s _ => hrun s last hx
  | cons run rest ih =>
    obtain ⟨first, last'⟩ := run
    refine Option.bind_congr fun s _ => ?_
    rw [hrun s last hx]
    refine Option.bind_congr fun s _ => ?_
    dsimp only
    split_ifs with hend
    · rfl
    · rw [gap?_within hl s _ (Nat.min_le_right _ _)]
      exact Option.bind_congr fun s _ => ih s _ (by omega)

theorem drawRuns?_within (hl : l.Within bounds) (stroke : σ) (cells : Array UInt32)
    (runs : List (Nat × Nat)) :
    drawRuns? (within b bounds) l stroke cells runs = drawRuns? b l stroke cells runs := by
  cases runs with
  | nil => rfl
  | cons run rest =>
    refine Option.bind_congr fun started _ => ?_
    split_ifs with hend hcount
    · rfl
    · rfl
    · rw [runs?_within hl rest _ _ (Nat.le_of_not_le hend)]

end

/-! ## Cells -/

/-- Every cell is as it was or zero. -/
structure Faded (cells cells' : Array UInt32) : Prop where
  size : cells'.size = cells.size
  cell : ∀ i : Nat, cells'[i]? = cells[i]? ∨ cells'[i]? = some 0

theorem Faded.refl (cells : Array UInt32) : Faded cells cells := ⟨rfl, fun _ => .inl rfl⟩

/-- One cell more is set to zero. -/
theorem Faded.clear {cells cells' : Array UInt32} (h : Faded cells cells') (i : Nat) :
    Faded cells (cells'.setIfInBounds i 0) := by
  refine ⟨(Array.size_setIfInBounds ..).trans h.size, fun j => ?_⟩
  by_cases hij : i = j
  · by_cases hi : i < cells'.size
    · exact .inr (hij ▸ Array.getElem?_setIfInBounds_self_of_lt hi)
    · rw [Array.setIfInBounds_eq_of_size_le (Nat.le_of_not_lt hi)]
      exact h.cell j
  · rw [Array.getElem?_setIfInBounds_ne hij]
    exact h.cell j

namespace Sweep

variable {σ : Type} {b : Brush σ} {l : Line} {cells : Array UInt32} {s : Sweep σ}

theorem take?_faded (h : Faded cells s.cells) (x : Nat) :
    Lands True (fun t => Faded cells t.cells) (s.take? l x) := by
  unfold take?
  split
  · exact (Lands.of_true _).bind fun _ _ => h.clear _
  · trivial

theorem pixels?_faded (n : Nat) (h : Faded cells s.cells) (x : Nat) :
    Lands True (fun t => Faded cells t.cells) (s.pixels? b l x n) := by
  induction n generalizing s x with
  | zero => exact h
  | succ n ih =>
    refine (Lands.of_true _).bind fun stroke _ => ?_
    exact (take?_faded (s := { s with stroke }) h _).bind fun t ht => ih ht _

theorem gap?_faded (h : Faded cells s.cells) (x runStart : Nat) :
    Lands True (fun t => Faded cells t.cells) (s.gap? b l x runStart) := by
  unfold gap?
  split
  · exact (Lands.of_true _).bind fun _ _ => h
  · exact h

theorem runs?_faded {rest : List (Nat × Nat)} (h : Faded cells s.cells) (x last : Nat) :
    Lands True (fun t => Faded cells t.cells) (s.runs? b l x last rest) := by
  induction rest generalizing s x last with
  | nil => exact (take?_faded h x).bind fun t ht => pixels?_faded _ ht x
  | cons run rest ih =>
    refine (take?_faded h x).bind fun t ht => (pixels?_faded _ ht x).bind fun u hu => ?_
    dsimp only
    split_ifs
    · exact hu
    · exact (gap?_faded hu _ _).bind fun v hv => ih hv _ _

end Sweep

theorem drawRuns?_faded {σ : Type} (b : Brush σ) (l : Line) (stroke : σ) (cells : Array UInt32)
    (runs : List (Nat × Nat)) :
    Lands True (fun out => Faded cells out.2) (drawRuns? b l stroke cells runs) := by
  cases runs with
  | nil => exact .refl cells
  | cons run rest =>
    refine (Lands.of_true _).bind fun started _ => ?_
    split_ifs
    · exact (Faded.refl cells).clear _
    · exact .refl cells
    · have hbegin : Faded cells (⟨started, cells, coverBias⟩ : Sweep σ).cells := .refl cells
      exact (Sweep.runs?_faded hbegin _ _).bind fun t ht => ht

/-! ## Rows -/

/-- The fill `f` after the first `r` rows of `f₀` have been drawn, whatever the buffers held. -/
structure Spent (f₀ : AnalyticFill) (r : Nat) (f : AnalyticFill) : Prop
    extends Remains f₀ r f where
  bitsZero : ∀ i, i < r * f₀.bitStride → f.bits[i]? = some 0
  faded : Faded f₀.cells f.cells

namespace Spent

variable {σ : Type} {b : Brush σ} {f₀ f f' : AnalyticFill} {r n : Nat} {s t : σ}

theorem refl (f : AnalyticFill) : Spent f 0 f where
  toRemains := .refl f
  bitsZero i hi := by omega
  faded := .refl f.cells

theorem drawRow? (h : Spent f₀ r f) (hd : AnalyticFill.drawRow? b f s r = some (f', t)) :
    Spent f₀ (r + 1) f' := by
  rw [drawRow?_eq] at hd
  split_ifs at hd with hshort
  obtain ⟨⟨stroke, cells⟩, hline, hd⟩ := Option.map_eq_some_iff.mp hd
  obtain ⟨rfl, -⟩ := Prod.mk.inj hd
  have hfaded : Faded f.cells cells := (drawRuns?_faded b (f.line r) s f.cells _).of_eq_some hline
  refine ⟨h.step hfaded.size, fun i hi => ?_, hfaded.size.trans h.cellSize, fun i => ?_⟩
  · rw [not_or, Nat.not_lt, Nat.succ_mul, h.bitStride] at hshort
    rw [Nat.succ_mul] at hi
    change (clearWords f.bits (r * f.bitStride) f.bitStride)[i]? = some 0
    rw [getElem?_clearWords, h.bitStride]
    split_ifs with hrow
    · rfl
    · exact h.bitsZero i (by omega)
  · obtain hold | hzero := hfaded.cell i
    · exact (h.faded.cell i).imp hold.trans hold.trans
    · exact .inr hzero

theorem drawRows? (h : Spent f₀ r f) (hd : AnalyticFill.drawRows? b f s r n = some (f', t)) :
    Spent f₀ (r + n) f' := by
  induction n generalizing f s r with
  | zero =>
    obtain ⟨rfl, -⟩ := Prod.mk.inj (Option.some.inj hd)
    exact h
  | succ n ih =>
    obtain ⟨⟨f₁, s₁⟩, hrow, hd⟩ := Option.bind_eq_some_iff.mp hd
    have hrest := ih (h.drawRow? hrow) hd
    rwa [show r + 1 + n = r + (n + 1) by omega] at hrest

/-- The next row lies in the bounds. -/
theorem within_line (h : Spent f₀ r f) (halpha : f₀.alpha ≤ 255)
    (hr : f₀.bounds.y0 + r < f₀.bounds.y1) : (f.line r).Within f₀.bounds where
  top := by
    change f₀.bounds.y0 ≤ f.bounds.y0 + r
    rw [h.bounds]
    omega
  bottom := by
    change f.bounds.y0 + r < f₀.bounds.y1
    rwa [h.bounds]
  stop := by
    change rightEnd f.bounds ≤ _
    rw [h.bounds]
  alpha := by
    change f.alpha ≤ 255
    rwa [h.alpha]

/-- Rows are drawn inside of the bounds and with coverages up to 255. -/
theorem drawRows?_within (h : Spent f₀ r f) (halpha : f₀.alpha ≤ 255)
    (hn : f₀.bounds.y0 + r + n ≤ f₀.bounds.y1) (s : σ) :
    AnalyticFill.drawRows? (within b f₀.bounds) f s r n = AnalyticFill.drawRows? b f s r n := by
  induction n generalizing f s r with
  | zero => rfl
  | succ n ih =>
    have hrow : AnalyticFill.drawRow? (within b f₀.bounds) f s r =
        AnalyticFill.drawRow? b f s r := by
      rw [drawRow?_eq, drawRow?_eq, drawRuns?_within (h.within_line halpha (by omega))]
      rfl
    rw [AnalyticFill.drawRows?, AnalyticFill.drawRows?, hrow]
    refine Option.bind_congr fun out hout => ?_
    obtain ⟨f₁, s₁⟩ := out
    exact ih (h.drawRow? hout) (by omega) s₁

end Spent

/-! ## Any buffers -/

/-- Whatever the buffers hold, nothing is drawn outside of the bounds, nor with a coverage above
255. -/
theorem drawWith?_within {σ : Type} (b : Brush σ) (f : AnalyticFill) (halpha : f.alpha ≤ 255)
    (s : σ) : f.drawWith? (within b f.bounds) s = f.drawWith? b s := by
  by_cases hrows : f.bounds.y0 ≤ f.bounds.y1
  · exact (Spent.refl f).drawRows?_within halpha (by omega) _
  · rw [drawWith?, drawWith?, show (f.bounds.y1 - f.bounds.y0).toNat = 0 by omega]
    rfl

/-- A complete fill is drawn to the end. -/
theorem Complete.isSome_draw? {f : AnalyticFill} (hf : f.Complete) {s : Stroke}
    (halpha : f.alpha ≤ 255) (hv : s.surface.Valid) (hin : s.surface.Holds f.bounds)
    (hc : s.cursor.Safe) : ∃ left t, f.draw? s = some (left, t) := by
  have hcapped {y : Int} {x m : Nat} (h : f.Touches y x m) : m ≤ 255 := by
    obtain ⟨-, -, -, cover, rfl⟩ := h
    exact f.rule.coverage_le halpha cover
  have hkeeps : Keeps False (fun _ => True) Cursor.Safe s.op s.surface.format :=
    ⟨Cursor.kept_safe, fun _ _ _ => trivial⟩
  have hkept := (Stroke.kept_all hkeeps hv).mono
    fun y x m (h : (Fill.analytic f).Touches s.surface.width y x m) => ⟨h.inside hin, hcapped h⟩
  obtain ⟨⟨left, t⟩, hdraw, -⟩ := (draw?_kept (fun _ => hf) (hin.rows hf.1.le).1 hkept
    ⟨rfl, ⟨.refl _, fun _ _ _ _ _ => trivial⟩, hc⟩).exists_eq_some
  exact ⟨left, t, hdraw⟩

/-- A fill that has been given its buffers is drawn to the end, whatever they hold. With a brush
that refuses pixels outside of the bounds and coverages above 255 it is drawn all the same. No bit
is left in its rows, the bits behind them are kept, and a cell is kept or set to zero. -/
theorem draw?_of_ofBuffers? {alpha : Nat} {bounds : Box} {rule : FillRule} {bits : Array UInt64}
    {bitStride : Nat} {cells : Array UInt32} {cellStride : Nat} {f : AnalyticFill}
    (hf : ofBuffers? alpha bounds rule bits bitStride cells cellStride = some f) {s : Stroke}
    (hv : s.surface.Valid) (hin : s.surface.Holds bounds) (hc : s.cursor.Safe) :
    ∃ left t, f.draw? s = some (left, t) ∧
      f.drawWith? (within Stroke.brush bounds) s = some (left, t) ∧
      (∀ i, i < bounds.height * bitStride → left.bits[i]? = some 0) ∧
      (∀ i, bounds.height * bitStride ≤ i → left.bits[i]? = bits[i]?) ∧
      left.cells.size = cells.size ∧
      ∀ i : Nat, left.cells[i]? = cells[i]? ∨ left.cells[i]? = some 0 := by
  have hcomplete := complete_of_ofBuffers? hf
  obtain ⟨-, -, rfl⟩ := ofBuffers?_eq_some_iff.mp hf
  have halpha : min alpha 255 ≤ 255 := Nat.min_le_right alpha 255
  obtain ⟨left, t, hdraw⟩ := hcomplete.isSome_draw? halpha hv hin hc
  have hspent := (Spent.refl _).drawRows? hdraw
  rw [← (hin.rows hcomplete.1.le).1, Int.toNat_natCast, Nat.zero_add] at hspent
  exact ⟨left, t, hdraw, (drawWith?_within _ _ halpha s).trans hdraw,
    hspent.bitsZero, hspent.bits, hspent.faded.size, hspent.faded.cell⟩

/-- Two rows that do not close: the bits of the first go on behind its last column, and the second
has cells but no marks. A word of bits behind the rows stays. -/
theorem draw?_of_ofBuffers?_unclosed :
    ∃ left t, draw? ⟨⟨0, 1, 3, 3⟩, 255, .evenOdd, #[0xF5, 0, 0xFF], 1,
          #[0x20000, 7, 0, 0xFFFFFFFF, 1, 0x12345678, 5, 0, 9, 3], 5⟩
        ⟨.multiply, ⟨Array.replicate 48 9, 16, 4, 3, .prgb32, 0⟩, .solid 0xFF112233⟩ =
          some (left, t) ∧
      drawWith? (within Stroke.brush ⟨0, 1, 3, 3⟩)
        ⟨⟨0, 1, 3, 3⟩, 255, .evenOdd, #[0xF5, 0, 0xFF], 1,
          #[0x20000, 7, 0, 0xFFFFFFFF, 1, 0x12345678, 5, 0, 9, 3], 5⟩
        ⟨.multiply, ⟨Array.replicate 48 9, 16, 4, 3, .prgb32, 0⟩, .solid 0xFF112233⟩ =
          some (left, t) ∧
      (∀ i, i < 2 → left.bits[i]? = some 0) ∧
      (∀ i, 2 ≤ i → left.bits[i]? = (#[0xF5, 0, 0xFF] : Array UInt64)[i]?) ∧
      left.cells.size = 10 ∧
      ∀ i : Nat, left.cells[i]? =
          (#[0x20000, 7, 0, 0xFFFFFFFF, 1, 0x12345678, 5, 0, 9, 3] : Array UInt32)[i]? ∨
        left.cells[i]? = some 0 := by
  have hf : ofBuffers? 999 ⟨0, 1, 3, 3⟩ .evenOdd #[0xF5, 0, 0xFF] 1
      #[0x20000, 7, 0, 0xFFFFFFFF, 1, 0x12345678, 5, 0, 9, 3] 5 =
        some ⟨⟨0, 1, 3, 3⟩, 255, .evenOdd, #[0xF5, 0, 0xFF], 1,
          #[0x20000, 7, 0, 0xFFFFFFFF, 1, 0x12345678, 5, 0, 9, 3], 5⟩ := by decide
  have hv : Surface.Valid ⟨Array.replicate 48 9, 16, 4, 3, .prgb32, 0⟩ :=
    ⟨rfl, by decide, by decide⟩
  have hin : Surface.Holds ⟨Array.replicate 48 9, 16, 4, 3, .prgb32, 0⟩ ⟨0, 1, 3, 3⟩ := by decide
  exact draw?_of_ofBuffers? hf (s := ⟨.multiply, _, .solid 0xFF112233⟩) hv hin trivial

end AnalyticFill

end Scanline
