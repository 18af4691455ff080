import Scanline.Fill.Analytic
import Scanline.Render.Stroke

/-
  Drawing analytic fills. The bits of a row say which groups of four cells to look at. Runs of
  marked groups are swept pixel by pixel, adding up their cells; between two runs the coverage
  stays as the cell after the first run left it. Everything that is read is set to zero.

  Runs are found word by word. Where a run begins, the bits of the current word are turned over
  from there on, and the words after it are turned over as they are read, so that the lowest bit
  that is set is where the run ends; where it ends they are turned over again. Every turn takes a
  bit from the word and no bit comes back: `Words.rank` falls from run to run, and the scan ends.
-/

namespace Scanline

/-- What is drawn with: the movements that fills are made of. -/
structure Brush (σ : Type) where
  startRow : σ → Int → σ
  nextRow : σ → σ
  start? : σ → Int → Option σ
  /-- Draws the next pixel of the fetch in a column of a row with a coverage. -/
  dab? : σ → Int → Nat → Nat → Option σ
  /-- Draws the columns between two of a row with one coverage. -/
  span? : σ → Int → Nat → Nat → Nat → Option σ

/-- The movements of a stroke itself. -/
def Stroke.brush : Brush Stroke where
  startRow := startRow
  nextRow := nextRow
  start? := start?
  dab? := dab?
  span? := span?

@[simp] theorem Stroke.brush_start? : brush.start? = start? := rfl

@[simp] theorem Stroke.brush_dab? : brush.dab? = dab? := rfl

@[simp] theorem Stroke.brush_span? : brush.span? = span? := rfl

namespace AnalyticFill

/-- The place of a row: its number, its words and cells, and the column where it ends. -/
structure Line where
  y : Int
  /-- The first of the row's words. -/
  wordStart : Nat
  /-- How many words the row has. -/
  wordCount : Nat
  /-- The first of the row's cells. -/
  cellStart : Nat
  /-- How many cells the row has. -/
  cellCount : Nat
  /-- The column where the row ends. -/
  stop : Nat
  rule : FillRule
  alpha : Nat

/-! ## Words -/

/-- The number of the lowest bit that is set; 64 if none is. -/
def lowestBit (w : UInt64) : Nat := w.toBitVec.ctz.toNat

/-- All bits from the `i`-th on; none if there is no such bit. -/
def onesFrom (i : Nat) : UInt64 := ⟨BitVec.allOnes 64 <<< i⟩

theorem lowestBit_zero : lowestBit 0 = 64 := by
  have hreverse : (0#64).reverse = 0#64 := BitVec.reverse_eq_zero_iff.mpr rfl
  have hclz : (0#64).reverse.clz = 64#64 := BitVec.clz_eq_iff_eq_zero.mpr hreverse
  exact congrArg BitVec.toNat hclz

theorem onesFrom_eq_zero : onesFrom 64 = 0 := by decide

theorem toBitVec_ne_zero {w : UInt64} (h : w ≠ 0) : w.toBitVec ≠ 0#64 := fun hw =>
  h (UInt64.toBitVec_inj.mp hw)

theorem lowestBit_lt {w : UInt64} (h : w ≠ 0) : lowestBit w < 64 :=
  BitVec.lt_def.mp (BitVec.ctz_lt_iff_ne_zero.mpr (toBitVec_ne_zero h))

theorem lowestBit_le (w : UInt64) : lowestBit w ≤ 64 := by
  by_cases h : w = 0
  · exact Nat.le_of_eq (h ▸ lowestBit_zero)
  · exact Nat.le_of_lt (lowestBit_lt h)

theorem getLsbD_lowestBit {w : UInt64} (h : w ≠ 0) : w.toBitVec.getLsbD (lowestBit w) = true :=
  BitVec.getLsbD_true_ctz_of_ne_zero (toBitVec_ne_zero h)

theorem getLsbD_of_lt_lowestBit {w : UInt64} {j : Nat} (h : j < lowestBit w) :
    w.toBitVec.getLsbD j = false :=
  BitVec.getLsbD_false_of_lt_ctz h

/-- Turning bits over from the `i`-th on. -/
theorem getLsbD_xor_onesFrom (w : UInt64) (i : Nat) {j : Nat} (hj : j < 64) :
    (w ^^^ onesFrom i).toBitVec.getLsbD j = (w.toBitVec.getLsbD j ^^ decide (i ≤ j)) := by
  have hones : (onesFrom i).toBitVec.getLsbD j = decide (i ≤ j) := by
    rw [onesFrom, BitVec.getLsbD_shiftLeft, BitVec.getLsbD_allOnes]
    rcases Nat.lt_or_ge j i with h | h
    · simp [h]
    · simp [Nat.not_lt.mpr h, h, hj, Nat.lt_of_le_of_lt (Nat.sub_le j i) hj]
  rw [UInt64.toBitVec_xor, BitVec.getLsbD_xor, hones]

/-- Turned over from its lowest bit on, a word has a higher one or none. -/
theorem lowestBit_lt_turned {w : UInt64} (h : w ≠ 0) :
    lowestBit w < lowestBit (w ^^^ onesFrom (lowestBit w)) := by
  have hlt := lowestBit_lt h
  by_cases hzero : w ^^^ onesFrom (lowestBit w) = 0
  · rw [hzero, lowestBit_zero]
    exact hlt
  · refine Nat.lt_of_not_le fun hle => ?_
    have hset := getLsbD_lowestBit hzero
    rw [getLsbD_xor_onesFrom _ _ (lowestBit_lt hzero)] at hset
    rcases Nat.eq_or_lt_of_le hle with heq | hbelow
    · rw [heq, getLsbD_lowestBit h, decide_eq_true (Nat.le_refl _)] at hset
      cases hset
    · rw [getLsbD_of_lt_lowestBit hbelow, decide_eq_false (Nat.not_le.mpr hbelow)] at hset
      cases hset

/-- The words of a row while they are read. -/
structure Words where
  bits : Array UInt64
  /-- The number of the word that is read next. -/
  next : Nat
  /-- The column of the current word. -/
  offset : Nat
  /-- What is left of the current word. -/
  word : UInt64

namespace Words

/-- Reads the next word and sets it to zero; there is nothing to read behind the last one. -/
def read? (l : Line) (w : Words) : Option (UInt64 × Words) :=
  if w.next < l.wordCount then
    (w.bits[l.wordStart + w.next]?).map fun v =>
      (v, { w with bits := w.bits.setIfInBounds (l.wordStart + w.next) 0, next := w.next + 1 })
  else none

theorem next_of_read? {l : Line} {w w' : Words} {v : UInt64} (h : w.read? l = some (v, w')) :
    w.next < l.wordCount ∧ w'.next = w.next + 1 := by
  unfold read? at h
  split at h
  · rename_i hnext
    obtain ⟨_, -, h⟩ := Option.map_eq_some_iff.mp h
    cases h
    exact ⟨hnext, rfl⟩
  · cases h

/-- Reads on until a bit is set; none is if all words have been read. -/
def refill (l : Line) (turned : Bool) (w : Words) : Words :=
  if w.word ≠ 0 then w
  else
    match _h : w.read? l with
    | none => w
    | some (v, w') =>
      refill l turned
        { w' with offset := w'.offset + cellsPerWord, word := if turned then ~~~v else v }
termination_by l.wordCount - w.next
decreasing_by
  have := next_of_read? _h
  omega

/-- The column of the lowest bit that is set, or the end of the row. -/
def column (l : Line) (w : Words) : Nat := min (lowestBit w.word * cellsPerBit + w.offset) l.stop

/-- Turns the bits over from the lowest one on that is set. -/
def turn (w : Words) : Words := { w with word := w.word ^^^ onesFrom (lowestBit w.word) }

/-- How many bits are left to look at, with one more for each word. -/
def rank (l : Line) (w : Words) : Nat := (l.wordCount - w.next) * 65 + (64 - lowestBit w.word)

theorem refill_rank_le (l : Line) (turned : Bool) (w : Words) :
    (w.refill l turned).rank l ≤ w.rank l := by
  fun_induction refill l turned w with
  | case1 w hw => exact Nat.le_refl _
  | case2 w hw hread => exact Nat.le_refl _
  | case3 w hw v w' hread ih =>
    refine Nat.le_trans ih ?_
    obtain ⟨hlt, hnext⟩ := next_of_read? hread
    unfold rank
    dsimp only
    omega

theorem turn_rank_lt (l : Line) {w : Words} (hw : w.word ≠ 0) : w.turn.rank l < w.rank l := by
  have := lowestBit_lt_turned hw
  have := lowestBit_lt hw
  unfold rank turn
  dsimp only
  omega

theorem turn_rank_le (l : Line) (w : Words) : w.turn.rank l ≤ w.rank l := by
  by_cases hw : w.word = 0
  · have hzero : w.turn = w := by
      unfold turn
      rw [hw, lowestBit_zero, onesFrom_eq_zero, UInt64.xor_self, ← hw]
    exact Nat.le_of_eq (congrArg _ hzero)
  · exact Nat.le_of_lt (turn_rank_lt l hw)

end Words

/-! ## Rows -/

/-- A row that is being drawn. -/
structure Sweep (σ : Type) where
  stroke : σ
  cells : Array UInt32
  /-- The coverage added up so far. -/
  cover : UInt32

namespace Sweep

variable {σ : Type}

/-- Adds the cell of column `x` and sets it to zero. -/
def take? (l : Line) (s : Sweep σ) (x : Nat) : Option (Sweep σ) :=
  if x < l.cellCount then do
    let cell ← s.cells[l.cellStart + x]?
    some ⟨s.stroke, s.cells.setIfInBounds (l.cellStart + x) 0, s.cover + cell⟩
  else none

/-- The coverage of the next pixel. -/
def coverage (l : Line) (s : Sweep σ) : Nat := l.rule.coverage l.alpha s.cover

/-- Draws `n` pixels from column `x` on, adding the cell after each. -/
def pixels? (b : Brush σ) (l : Line) (s : Sweep σ) (x : Nat) : Nat → Option (Sweep σ)
  | 0 => some s
  | n + 1 => do
    let m := s.coverage l
    let stroke ← b.dab? s.stroke l.y x m
    let s ← take? l { s with stroke } (x + 1)
    pixels? b l s (x + 1) n

/-- Draws the columns from `x` to where the next run begins with the coverage that stands. -/
def gap? (b : Brush σ) (l : Line) (s : Sweep σ) (x runStart : Nat) : Option (Sweep σ) :=
  if x < runStart then do
    let m := s.coverage l
    let stroke ← b.span? s.stroke l.y x runStart m
    some { s with stroke }
  else some s

/-- Draws a run from column `x` to its end, then the gap and the run after it, and so on. -/
def scan? (b : Brush σ) (l : Line) (s : Sweep σ) (w : Words) (x : Nat) :
    Option (Sweep σ × Words) := do
  let ended := w.refill l true
  let runEnd := ended.column l
  let s ← take? l s x
  let s ← pixels? b l s x (runEnd - x)
  let x := max x runEnd
  if l.stop ≤ x then some (s, ended.turn)
  else
    let begun := ended.turn.refill l false
    if _h : begun.word = 0 then some (s, begun)
    else
      let runStart := begun.column l
      let s ← gap? b l s x runStart
      scan? b l s begun.turn (max x runStart)
termination_by w.rank l
decreasing_by
  have hended : ended.rank l ≤ w.rank l := Words.refill_rank_le l true w
  have hbegun : begun.rank l ≤ ended.turn.rank l := Words.refill_rank_le l false ended.turn
  have hturn := Words.turn_rank_le l ended
  have hlt := Words.turn_rank_lt l _h
  exact Nat.lt_of_lt_of_le hlt (Nat.le_trans hbegun (Nat.le_trans hturn hended))

end Sweep

/-- Draws a row. A first run that starts where the row ends draws nothing, and a row without any
run is not begun. -/
def drawLine? {σ : Type} (b : Brush σ) (l : Line) (stroke : σ) (cells : Array UInt32)
    (bits : Array UInt64) : Option (σ × Array UInt32 × Array UInt64) :=
  match Words.read? l ⟨bits, 0, 0, 0⟩ with
  | none => some (stroke, cells, bits)
  | some (v, w) => do
    let w := Words.refill l false { w with word := v }
    if w.word = 0 then some (stroke, cells, w.bits)
    else
      let x := lowestBit w.word * cellsPerBit + w.offset
      let stroke ← b.start? stroke (wrap32 x)
      if l.stop ≤ x then
        let cells :=
          if x < l.cellCount then cells.setIfInBounds (l.cellStart + x) 0 else cells
        some (stroke, cells, w.bits)
      else
        let (s, w) ← Sweep.scan? b l ⟨stroke, cells, coverBias⟩ w.turn x
        some (s.stroke, s.cells, w.bits)

/-- The words with `n` of them set to zero from word `i` on. -/
def clearWords (words : Array UInt64) (i : Nat) : Nat → Array UInt64
  | 0 => words
  | n + 1 => clearWords (words.setIfInBounds i 0) (i + 1) n

/-- The `r`-th row of a fill. -/
def line (f : AnalyticFill) (r : Nat) : Line where
  y := f.bounds.y0 + r
  wordStart := r * f.bitStride
  wordCount := f.bitStride
  cellStart := r * f.cellStride
  cellCount := min f.cellStride (f.cells.size - r * f.cellStride)
  stop := rightEnd f.bounds
  rule := f.rule
  alpha := f.alpha

/-- Draws the `r`-th row and sets its bits to zero. -/
def drawRow? {σ : Type} (b : Brush σ) (f : AnalyticFill) (s : σ) (r : Nat) :
    Option (AnalyticFill × σ) :=
  if f.bits.size < (r + 1) * f.bitStride ∨ f.cells.size < r * f.cellStride then none
  else do
    let (s, cells, bits) ← drawLine? b (f.line r) s f.cells f.bits
    some ({ f with bits := clearWords bits (r * f.bitStride) f.bitStride, cells }, b.nextRow s)

/-- Draws `n` rows, the next one being the `r`-th. -/
def drawRows? {σ : Type} (b : Brush σ) (f : AnalyticFill) (s : σ) (r : Nat) :
    Nat → Option (AnalyticFill × σ)
  | 0 => some (f, s)
  | n + 1 => do
    let (f, s) ← drawRow? b f s r
    drawRows? b f s (r + 1) n

/-- Draws the fill with the given brush and gives back what its buffers hold afterwards. -/
def drawWith? {σ : Type} (b : Brush σ) (f : AnalyticFill) (s : σ) : Option (AnalyticFill × σ) :=
  drawRows? b f (b.startRow s f.bounds.y0) 0 (f.bounds.y1 - f.bounds.y0).toNat

/-- Draws the fill and gives back what its buffers hold afterwards. -/
def draw? (f : AnalyticFill) (s : Stroke) : Option (AnalyticFill × Stroke) :=
  f.drawWith? Stroke.brush s

end AnalyticFill

end Scanline
