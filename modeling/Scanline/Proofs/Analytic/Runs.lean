import Mathlib.Tactic.Linarith
import Scanline.Proofs.Analytic.Marks

/-
  The scan by words and the runs of a row. `Words.At` says what the words that are left have to do
  with the marks: the groups from `p` on are still to be looked at, and the bits of the current
  word are turned over while a run is open. Reading on and turning over leads from one end of a
  run to the next (`At.advance`), so the scan draws the runs of the row one after the other
  (`scan?_eq_runs?`), and `drawRow?_eq` says it for a row.
-/

namespace Scanline

namespace AnalyticFill

/-! ## Drawing runs -/

section
variable {σ : Type} (b : Brush σ) (l : Line)

/-- Draws a run of groups from column `x` to group `last`, then the gap and the run after it, and
so on. -/
def Sweep.runs? (s : Sweep σ) (x last : Nat) : List (Nat × Nat) → Option (Sweep σ)
  | [] => do
    let s ← s.take? l x
    s.pixels? b l x (min (last * cellsPerBit) l.stop - x)
  | (first, last') :: rest => do
    let s ← s.take? l x
    let s ← s.pixels? b l x (min (last * cellsPerBit) l.stop - x)
    let x := max x (min (last * cellsPerBit) l.stop)
    if l.stop ≤ x then some s
    else
      let runStart := min (first * cellsPerBit) l.stop
      let s ← s.gap? b l x runStart
      s.runs? (max x runStart) last' rest

/-- Draws a row with the given runs. -/
def drawRuns? (stroke : σ) (cells : Array UInt32) : List (Nat × Nat) → Option (σ × Array UInt32)
  | [] => some (stroke, cells)
  | (first, last) :: rest => do
    let x := first * cellsPerBit
    let stroke ← b.start? stroke (wrap32 x)
    if l.stop ≤ x then
      some (stroke, if x < l.cellCount then cells.setIfInBounds (l.cellStart + x) 0 else cells)
    else
      let s ← Sweep.runs? b l ⟨stroke, cells, coverBias⟩ x last rest
      some (s.stroke, s.cells)

end

theorem map_bind_eq {α β γ : Type} {o : Option α} {f : α → Option β} {π : β → γ}
    {g : α → Option γ} (h : ∀ a, (f a).map π = g a) : (o.bind f).map π = o.bind g := by
  rw [Option.map_bind]
  exact congrArg _ (funext h)

/-! ## Lists of runs -/

theorem drop_marks_eq_cons {ms : List Bool} {g : Nat} {m : Bool} (h : ms[g]? = some m) :
    ms.drop g = m :: ms.drop (g + 1) := by
  obtain ⟨hg, rfl⟩ := List.getElem?_eq_some_iff.mp h
  exact List.drop_eq_getElem_cons hg

/-- Groups without marks are passed over. -/
theorem runsFrom_skip {ms : List Bool} {p q : Nat} (hpq : p ≤ q)
    (h : ∀ g, p ≤ g → g < q → ms[g]? = some false) :
    runsFrom p none (ms.drop p) = runsFrom q none (ms.drop q) := by
  induction q, hpq using Nat.le_induction with
  | base => rfl
  | succ q hpq ih =>
    rw [ih fun g hg hgq => h g hg (by omega), drop_marks_eq_cons (h q hpq (Nat.lt_succ_self q))]
    rfl

/-- A run that is open goes on over groups with marks. -/
theorem runsFrom_open {ms : List Bool} {a p q : Nat} (hpq : p ≤ q)
    (h : ∀ g, p ≤ g → g < q → ms[g]? = some true) :
    runsFrom p (some a) (ms.drop p) = runsFrom q (some a) (ms.drop q) := by
  induction q, hpq using Nat.le_induction with
  | base => rfl
  | succ q hpq ih =>
    rw [ih fun g hg hgq => h g hg (by omega), drop_marks_eq_cons (h q hpq (Nat.lt_succ_self q))]
    rfl

/-- A mark opens a run. -/
theorem runsFrom_begin {ms : List Bool} {q : Nat} (h : ms[q]? = some true) :
    runsFrom q none (ms.drop q) = runsFrom q (some q) (ms.drop q) := by
  rw [drop_marks_eq_cons h]
  rfl

/-- A run ends where there is no mark or no group. -/
theorem runsFrom_end {ms : List Bool} {a q : Nat} (h : ms[q]? ≠ some true) :
    runsFrom q (some a) (ms.drop q) = (a, q) :: runsFrom q none (ms.drop q) := by
  match hq : ms[q]? with
  | none =>
    rw [List.drop_eq_nil_of_le (List.getElem?_eq_none_iff.mp hq)]
    rfl
  | some true => exact absurd hq h
  | some false =>
    rw [drop_marks_eq_cons hq]
    rfl

/-! ## Words and marks -/

namespace Words

/-- The groups from `p` on are to be looked at, and `p` lies in the current word or behind it. The
words of the row that have not been read are as they were; the current one has the marks from `p`
on, turned over if a run is open. -/
structure At (l : Line) (words : List UInt64) (turned : Bool) (p : Nat) (w : Words) : Prop where
  count : words.length = l.wordCount
  next_le : w.next ≤ l.wordCount
  offset : w.offset + cellsPerWord = w.next * cellsPerWord
  le_p : 64 * w.next ≤ p + 64
  p_le : p ≤ 64 * w.next
  unread : ∀ i, w.next ≤ i → i < l.wordCount → w.bits[l.wordStart + i]? = words[i]?
  word : ∃ v, words[w.next - 1]? = some v ∧ ∀ j, j < 64 →
    w.word.toBitVec.getLsbD j =
      (decide (p ≤ 64 * (w.next - 1) + j) && (v.toBitVec.getLsbD j ^^ turned))

variable {l : Line} {words : List UInt64} {turned : Bool} {p : Nat} {w : Words}

theorem At.next_pos (h : w.At l words turned p) : 0 < w.next := by
  have := h.offset
  unfold cellsPerWord at this
  omega

/-- A group of the current word that is to be looked at. -/
theorem At.getElem?_marks (h : w.At l words turned p) {j : Nat} (hj : j < 64)
    (hp : p ≤ 64 * (w.next - 1) + j) :
    (marks words)[64 * (w.next - 1) + j]? = some (w.word.toBitVec.getLsbD j ^^ turned) := by
  obtain ⟨v, hv, hword⟩ := h.word
  rw [AnalyticFill.getElem?_marks, Nat.mul_add_div (by decide), Nat.div_eq_of_lt hj, Nat.add_zero,
    hv, Nat.mul_add_mod, Nat.mod_eq_of_lt hj, hword j hj, decide_eq_true hp, Bool.true_and,
    Bool.xor_assoc, Bool.xor_self, Bool.xor_false]
  rfl

/-- In the current word the bits that are not set are of groups that a run goes on over, or that
lie between two runs. -/
theorem At.getElem?_marks_of_lt (h : w.At l words turned p) {g : Nat} (hp : p ≤ g)
    (hg : g < 64 * (w.next - 1) + lowestBit w.word) : (marks words)[g]? = some turned := by
  have hle := h.le_p
  have hnext := h.next_pos
  obtain ⟨j, rfl⟩ := Nat.exists_eq_add_of_le (show 64 * (w.next - 1) ≤ g by omega)
  have hj : j < lowestBit w.word := by omega
  have hlow := lowestBit_le w.word
  rw [h.getElem?_marks (by omega) hp, getLsbD_of_lt_lowestBit hj, Bool.false_xor]

/-- A word is read, and the groups of it are to be looked at. -/
theorem exists_read? (hcount : words.length = l.wordCount) (hnext : w.next < l.wordCount)
    (hunread : ∀ i, w.next ≤ i → i < l.wordCount → w.bits[l.wordStart + i]? = words[i]?)
    (turned : Bool) :
    ∃ v w', w.read? l = some (v, w') ∧ w'.offset = w.offset ∧
      At l words turned (64 * w.next)
        { w' with
          offset := w.next * cellsPerWord
          word := if turned then ~~~v else v } := by
  obtain ⟨v, hv⟩ : ∃ v, words[w.next]? = some v :=
    ⟨_, List.getElem?_eq_getElem (hcount ▸ hnext)⟩
  have hread : w.bits[l.wordStart + w.next]? = some v := (hunread _ le_rfl hnext).trans hv
  refine ⟨v, { w with
      bits := w.bits.setIfInBounds (l.wordStart + w.next) 0, next := w.next + 1 }, ?_, rfl, ?_⟩
  · rw [read?, if_pos hnext, hread]
    rfl
  · refine ⟨hcount, hnext, (Nat.succ_mul _ _).symm, le_rfl, by dsimp only; omega,
      fun i hi hil => ?_, v, hv, fun j hj => ?_⟩
    · dsimp only at hi ⊢
      rw [Array.getElem?_setIfInBounds_ne (by omega)]
      exact hunread i (by omega) hil
    · dsimp only
      rw [Nat.add_sub_cancel, decide_eq_true (Nat.le_add_right _ _), Bool.true_and]
      cases turned
      · rw [Bool.xor_false]
        rfl
      · rw [Bool.xor_true, if_pos rfl, UInt64.toBitVec_not, BitVec.getLsbD_not,
          decide_eq_true hj, Bool.true_and]

theorem At.read (h : w.At l words turned p) (hnext : w.next < l.wordCount) :
    ∃ v w', w.read? l = some (v, w') ∧
      At l words turned (64 * w.next)
        { w' with
          offset := w'.offset + cellsPerWord
          word := if turned then ~~~v else v } := by
  obtain ⟨v, w', hread, hoffset, hat⟩ := exists_read? h.count hnext h.unread turned
  exact ⟨v, w', hread, by rwa [hoffset, h.offset]⟩

/-- Reading on passes over groups that are marked while a run is open, and not marked between two
runs. It ends where a bit is set or no word is left. -/
theorem At.refill (h : w.At l words turned p) :
    ∃ p', p ≤ p' ∧ (∀ g, p ≤ g → g < p' → (marks words)[g]? = some turned) ∧
      (w.refill l turned).At l words turned p' ∧
      ((w.refill l turned).word = 0 → (w.refill l turned).next = l.wordCount) := by
  fun_induction Words.refill l turned w generalizing p with
  | case1 w hw => exact ⟨p, le_rfl, fun g hg hgp => by omega, h, fun hzero => absurd hzero hw⟩
  | case2 w hw hread =>
    refine ⟨p, le_rfl, fun g hg hgp => by omega, h, fun _ => ?_⟩
    by_contra hne
    obtain ⟨v, w', hread', -⟩ := h.read (Nat.lt_of_le_of_ne h.next_le hne)
    rw [hread] at hread'
    cases hread'
  | case3 w hw v w' hread ih =>
    rw [ne_eq, not_not] at hw
    obtain ⟨v₁, w₁, hread₁, hat⟩ := h.read (next_of_read? hread).1
    rw [hread] at hread₁
    cases hread₁
    obtain ⟨p', hp', hmarks, hat', hend⟩ := ih hat
    have hp := h.p_le
    refine ⟨p', hp.trans hp', fun g hg hgp => ?_, hat', hend⟩
    by_cases hgw : g < 64 * w.next
    · refine h.getElem?_marks_of_lt hg ?_
      have := h.next_pos
      rw [hw, lowestBit_zero]
      omega
    · exact hmarks g (by omega) hgp

theorem At.le_lowestBit (h : w.At l words turned p) :
    p ≤ 64 * (w.next - 1) + lowestBit w.word := by
  by_cases hw : w.word = 0
  · have := h.next_pos
    have := h.p_le
    rw [hw, lowestBit_zero]
    omega
  · obtain ⟨v, -, hword⟩ := h.word
    have hset := getLsbD_lowestBit hw
    rw [hword _ (lowestBit_lt hw), Bool.and_eq_true, decide_eq_true_eq] at hset
    exact hset.1

/-- Turning over goes to the lowest bit that is set. -/
theorem At.turn (h : w.At l words turned p) :
    w.turn.At l words (!turned) (64 * (w.next - 1) + lowestBit w.word) := by
  have hnext := h.next_pos
  have hle := h.le_p
  have hlow := lowestBit_le w.word
  refine ⟨h.count, h.next_le, h.offset, ?_, ?_, h.unread, ?_⟩
  · dsimp only [Words.turn]
    omega
  · dsimp only [Words.turn]
    omega
  · obtain ⟨v, hv, hword⟩ := h.word
    refine ⟨v, hv, fun j hj => ?_⟩
    show (w.word ^^^ onesFrom (lowestBit w.word)).toBitVec.getLsbD j =
      (decide (64 * (w.next - 1) + lowestBit w.word ≤ 64 * (w.next - 1) + j) && _)
    rw [getLsbD_xor_onesFrom _ _ hj]
    rcases Nat.lt_or_ge j (lowestBit w.word) with hjl | hjl
    · rw [getLsbD_of_lt_lowestBit hjl, decide_eq_false (by omega), decide_eq_false (by omega)]
      rfl
    · have hp := h.le_lowestBit
      rw [hword j hj, decide_eq_true (by omega), decide_eq_true (by omega),
        decide_eq_true (by omega), Bool.true_and, Bool.true_and, Bool.xor_true, Bool.xor_not]

/-- One turn: from `p` on the groups are marked, or not, up to `q`, where that ends or the row does.
The words go on from there. -/
theorem At.advance (h : w.At l words turned p) :
    ∃ q, p ≤ q ∧ (∀ g, p ≤ g → g < q → (marks words)[g]? = some turned) ∧
      (w.refill l turned).turn.At l words (!turned) q ∧
      lowestBit (w.refill l turned).word * cellsPerBit + (w.refill l turned).offset =
        q * cellsPerBit ∧
      (marks words)[q]? = if (w.refill l turned).word = 0 then none else some (!turned) := by
  obtain ⟨p', hp', hmarks, hat, hend⟩ := h.refill
  generalize w.refill l turned = w' at hat hend ⊢
  have hnext := hat.next_pos
  have hle := hat.p_le
  refine ⟨_, hp'.trans hat.le_lowestBit, fun g hg hgq => ?_, hat.turn, ?_, ?_⟩
  · by_cases hgp : g < p'
    · exact hmarks g hg hgp
    · exact hat.getElem?_marks_of_lt (by omega) hgq
  · have := hat.offset
    unfold cellsPerBit
    unfold cellsPerWord at this
    omega
  · split
    · rename_i hzero
      rw [hzero, lowestBit_zero, AnalyticFill.getElem?_marks, List.getElem?_eq_none]
      · rfl
      · have := hend hzero
        have := hat.count
        omega
    · rename_i hne
      rw [hat.getElem?_marks (lowestBit_lt hne) hat.le_lowestBit, getLsbD_lowestBit hne,
        Bool.true_xor]

end Words

section
variable {σ : Type} {b : Brush σ} {l : Line} {words : List UInt64} {p : Nat} {w : Words}

/-- The run that is open ends where the words are turned over. -/
theorem Words.At.runsFrom_open (h : w.At l words true p) (a : Nat) :
    ∃ q, (w.refill l true).turn.At l words false q ∧
      (w.refill l true).column l = min (q * cellsPerBit) l.stop ∧
      runsFrom p (some a) ((marks words).drop p) =
        (a, q) :: runsFrom q none ((marks words).drop q) := by
  obtain ⟨q, hpq, hmarks, hat, hcolumn, hend⟩ := h.advance
  refine ⟨q, hat, by rw [Words.column, hcolumn], ?_⟩
  rw [AnalyticFill.runsFrom_open hpq hmarks, runsFrom_end]
  rw [hend]
  split <;> simp

/-- The next run begins where the words are turned over, if any bit is left. -/
theorem Words.At.runsFrom_closed (h : w.At l words false p) :
    ∃ q, (w.refill l false).turn.At l words true q ∧
      lowestBit (w.refill l false).word * cellsPerBit + (w.refill l false).offset =
        q * cellsPerBit ∧
      runsFrom p none ((marks words).drop p) =
        if (w.refill l false).word = 0 then []
        else runsFrom q (some q) ((marks words).drop q) := by
  obtain ⟨q, hpq, hmarks, hat, hcolumn, hend⟩ := h.advance
  refine ⟨q, hat, hcolumn, ?_⟩
  rw [runsFrom_skip hpq hmarks]
  split at hend
  · rename_i hzero
    rw [List.drop_eq_nil_of_le (List.getElem?_eq_none_iff.mp hend), if_pos hzero]
    rfl
  · rename_i hne
    rw [runsFrom_begin hend, if_neg hne]

/-- The scan by words draws the runs that are left. -/
theorem Words.At.scan?_eq_runs? (h : w.At l words true p) {a q : Nat} {rest : List (Nat × Nat)}
    (hruns : runsFrom p (some a) ((marks words).drop p) = (a, q) :: rest) (s : Sweep σ) (x : Nat) :
    (s.scan? b l w x).map Prod.fst = s.runs? b l x q rest := by
  induction hn : rest.length using Nat.strong_induction_on generalizing w p a q s x rest with
  | _ n ih =>
    obtain ⟨q', hended, hcolumn, hopen⟩ := h.runsFrom_open a
    rw [hopen] at hruns
    obtain ⟨hpair, rfl⟩ := List.cons.inj hruns
    obtain rfl : q' = q := (Prod.mk.inj hpair).2
    obtain ⟨q₂, hbegun, hstart, hclosed⟩ := hended.runsFrom_closed
    rw [hclosed] at hn ⊢
    rw [Sweep.scan?, hcolumn]
    by_cases hzero : ((w.refill l true).turn.refill l false).word = 0
    · -- no bit is left: the run that is open is the last one
      simp only [hzero, if_true, dite_true, Sweep.runs?, Option.bind_eq_bind]
      refine map_bind_eq fun s₁ => (map_bind_eq fun s₂ => ?_).trans (Option.bind_fun_some _)
      split <;> rfl
    · obtain ⟨q₃, -, -, hopen'⟩ := hbegun.runsFrom_open q₂
      rw [if_neg hzero, hopen'] at hn ⊢
      simp only [dif_neg hzero, Sweep.runs?, Words.column, hstart, Option.bind_eq_bind]
      refine map_bind_eq fun s₁ => map_bind_eq fun s₂ => ?_
      split
      · rfl
      · refine map_bind_eq fun s₃ => ih _ ?_ hbegun hopen' _ _ rfl
        rw [← hn]
        exact Nat.lt_succ_self _

end

/-! ## Bits -/

theorem size_clearWords (words : Array UInt64) (i n : Nat) :
    (clearWords words i n).size = words.size := by
  induction n generalizing words i with
  | zero => rfl
  | succ n ih => rw [clearWords, ih, Array.size_setIfInBounds]

theorem getElem?_clearWords (words : Array UInt64) (i n j : Nat) :
    (clearWords words i n)[j]? =
      if i ≤ j ∧ j < i + n ∧ j < words.size then some 0 else words[j]? := by
  induction n generalizing words i with
  | zero => rw [if_neg (by omega)]; rfl
  | succ n ih =>
    rw [clearWords, ih, Array.size_setIfInBounds, Array.getElem?_setIfInBounds]
    split_ifs <;> first | rfl | omega | simp_all

/-- A word that is set to zero all the same may have been set before. -/
theorem clearWords_setIfInBounds (words : Array UInt64) {i n j : Nat} (hi : i ≤ j)
    (hj : j < i + n) : clearWords (words.setIfInBounds j 0) i n = clearWords words i n := by
  refine Array.ext_getElem? fun k => ?_
  rw [getElem?_clearWords, getElem?_clearWords, Array.size_setIfInBounds,
    Array.getElem?_setIfInBounds]
  split_ifs <;> first | rfl | omega | exact (Array.getElem?_eq_none (by omega)).symm

/-- The row with its bits set to zero. -/
def Words.cleared (l : Line) (w : Words) : Array UInt64 :=
  clearWords w.bits l.wordStart l.wordCount

namespace Words

variable {l : Line} {w w' : Words}

theorem cleared_read? {v : UInt64} (h : w.read? l = some (v, w')) : w'.cleared l = w.cleared l := by
  unfold read? at h
  split at h
  · obtain ⟨_, -, h⟩ := Option.map_eq_some_iff.mp h
    cases h
    exact clearWords_setIfInBounds _ (Nat.le_add_right _ _) (by omega)
  · cases h

theorem cleared_refill (l : Line) (turned : Bool) (w : Words) :
    (w.refill l turned).cleared l = w.cleared l := by
  fun_induction refill l turned w with
  | case1 => rfl
  | case2 => rfl
  | case3 w _ v w' hread ih =>
    have hcleared : w'.cleared l = w.cleared l := cleared_read? hread
    exact ih.trans hcleared

end Words

/-- The scan sets no bits but those of the row. -/
theorem Sweep.cleared_scan? {σ : Type} {b : Brush σ} {l : Line} {s t : Sweep σ} {w w' : Words}
    {x : Nat} (h : s.scan? b l w x = some (t, w')) : w'.cleared l = w.cleared l := by
  fun_induction Sweep.scan? b l s w x with
  | case1 s w x ended runEnd ih =>
    have hended : ended.turn.cleared l = w.cleared l := Words.cleared_refill l true w
    have hbegun : (ended.turn.refill l false).turn.cleared l = w.cleared l :=
      (Words.cleared_refill l false ended.turn).trans hended
    simp only [Option.bind_eq_bind, Option.bind_eq_some_iff] at h
    obtain ⟨s₁, -, s₂, -, h⟩ := h
    split at h
    · cases h
      exact hended
    · split at h
      · cases h
        exact hbegun
      · rename_i hword
        obtain ⟨s₃, -, h⟩ := Option.bind_eq_some_iff.mp h
        exact (ih hword _ h).trans hbegun

/-! ## Rows -/

/-- A row is drawn with the runs of its marks. -/
theorem drawLine?_eq_drawRuns? {σ : Type} (b : Brush σ) (l : Line) {bits : Array UInt64}
    {words : List UInt64} (hcount : words.length = l.wordCount)
    (hbits : ∀ i, i < l.wordCount → bits[l.wordStart + i]? = words[i]?) (stroke : σ)
    (cells : Array UInt32) :
    (drawLine? b l stroke cells bits).map (fun out => (out.1, out.2.1)) =
      drawRuns? b l stroke cells (runs words) := by
  unfold drawLine?
  by_cases hnone : l.wordCount = 0
  · have hread : Words.read? l ⟨bits, 0, 0, 0⟩ = none := by
      rw [Words.read?, if_neg (by dsimp only; omega)]
    rw [hread, List.length_eq_zero_iff.mp (hcount.trans hnone)]
    rfl
  · obtain ⟨v, w, hread, hoffset, hat⟩ := Words.exists_read? (w := ⟨bits, 0, 0, 0⟩) hcount
      (Nat.pos_of_ne_zero hnone) (fun i _ => hbits i) false
    replace hat : Words.At l words false 0 { w with word := v } := by
      rw [Nat.zero_mul] at hat
      rw [show w.offset = 0 from hoffset]
      exact hat
    obtain ⟨q, hbegun, hstart, hclosed⟩ := hat.runsFrom_closed
    rw [hread, show runs words = _ from hclosed]
    dsimp only
    by_cases hzero : (Words.refill l false { w with word := v }).word = 0
    · rw [if_pos hzero, if_pos hzero]
      rfl
    · obtain ⟨q', -, -, hopen⟩ := hbegun.runsFrom_open q
      rw [if_neg hzero, if_neg hzero, hopen, hstart, drawRuns?]
      refine map_bind_eq fun stroke => ?_
      split
      · rfl
      · rw [← hbegun.scan?_eq_runs? hopen]
        simp only [Option.bind_eq_bind, Option.map_bind, Option.bind_map]
        rfl

/-- Drawing a row sets no bits but its own. -/
theorem clearWords_drawLine? {σ : Type} {b : Brush σ} {l : Line} {stroke stroke' : σ}
    {cells cells' : Array UInt32} {bits bits' : Array UInt64}
    (h : drawLine? b l stroke cells bits = some (stroke', cells', bits')) :
    clearWords bits' l.wordStart l.wordCount = clearWords bits l.wordStart l.wordCount := by
  unfold drawLine? at h
  split at h
  · cases h
    rfl
  · rename_i v w hread
    have hfirst : w.cleared l = Words.cleared l ⟨bits, 0, 0, 0⟩ := Words.cleared_read? hread
    have hrefill : (Words.refill l false { w with word := v }).cleared l =
        Words.cleared l ⟨bits, 0, 0, 0⟩ :=
      (Words.cleared_refill l false { w with word := v }).trans hfirst
    dsimp only at h
    split at h
    · cases h
      exact hrefill
    · obtain ⟨started, -, h⟩ := Option.bind_eq_some_iff.mp h
      split at h
      · cases h
        exact hrefill
      · obtain ⟨⟨s, w'⟩, hscan, h⟩ := Option.bind_eq_some_iff.mp h
        cases h
        exact (Sweep.cleared_scan? hscan).trans hrefill

/-- A row of a fill is drawn with the runs of its marks, and then its bits are zero. -/
theorem drawRow?_eq {σ : Type} (b : Brush σ) (f : AnalyticFill) (s : σ) (r : Nat) :
    drawRow? b f s r =
      if f.bits.size < (r + 1) * f.bitStride ∨ f.cells.size < r * f.cellStride then none
      else (drawRuns? b (f.line r) s f.cells (runs (f.rowWords r))).map fun out =>
        ({ f with
            bits := clearWords f.bits (r * f.bitStride) f.bitStride
            cells := out.2 }, b.nextRow out.1) := by
  unfold drawRow?
  split
  · rfl
  · rename_i hshort
    have hsize : (r + 1) * f.bitStride ≤ f.bits.size := by omega
    have hcount : (f.rowWords r).length = (f.line r).wordCount := by
      rw [rowWords, Array.length_toList, Array.size_extract, Nat.min_eq_left hsize, Nat.succ_mul,
        Nat.add_sub_cancel_left]
      rfl
    have hbits : ∀ i, i < (f.line r).wordCount →
        f.bits[(f.line r).wordStart + i]? = (f.rowWords r)[i]? := by
      intro i hi
      rw [getElem?_rowWords hsize]
      exact (if_pos hi).symm
    rw [← drawLine?_eq_drawRuns? b (f.line r) hcount hbits]
    cases hline : drawLine? b (f.line r) s f.cells f.bits with
    | none => rfl
    | some out =>
      obtain ⟨s', cells, bits⟩ := out
      have hcleared : clearWords bits (r * f.bitStride) f.bitStride = _ :=
        clearWords_drawLine? hline
      simp only [Option.bind_eq_bind, Option.bind_some, Option.map_some, hcleared]
      rfl

end AnalyticFill

end Scanline
