import Scanline.Proofs.Analytic.Invariants
import Scanline.Proofs.Render.Painting
import Scanline.Render.Fill

/-
  What a fill of any kind touches. `Fill.Touches` says which pixels a fill may draw and with what
  coverage; `Fill.draw?_kept` is the one way in which properties of strokes are carried through a
  fill. A fill that has been made by its constructor, with bounds that the surface holds, has what
  drawing it relies on (`Fill.Made.fit`). A sound fill also keeps its coverages below 256, and so
  do the parts of it that lie in some rows (`Fill.Sound.clipRows?`).
-/

namespace Scanline

open Stroke

namespace Fill

/-- The pixels that the fill may touch on a surface of `width` columns, and with what coverage. -/
def Touches (f : Fill) (width : Nat) (y : Int) (x m : Nat) : Prop :=
  match f with
  | alignedBox b => b.Touches y x m
  | fractionalBox b => b.Touches y x m
  | mask f => f.Touches width y x m
  | analytic f => f.Touches y x m

/-- What drawing the fill relies on. The buffers of an analytic fill may be too small where drawing
may go missing. -/
def Fit (halts : Prop) : Fill → Prop
  | alignedBox _ | mask _ => True
  | fractionalBox b => b.Upright
  | analytic f => (f.bounds.height : Int) = f.bounds.y1 - f.bounds.y0 ∧ (¬ halts → f.Complete)

/-- The fill is an answer of the constructor of its kind. -/
def Made : Fill → Prop
  | alignedBox b => ∃ alpha bounds, AlignedBox.ofBounds? alpha bounds = some b
  | fractionalBox b => ∃ alpha x0 y0 x1 y1, FractionalBox.ofFixed? alpha x0 y0 x1 y1 = some b
  | mask f => ∃ alpha bounds commands, MaskFill.ofCommands? alpha bounds commands = some f
  | analytic f => ∃ alpha bounds rule bits bitStride cells cellStride,
      AnalyticFill.ofBuffers? alpha bounds rule bits bitStride cells cellStride = some f

/-- Drawing a fill keeps what the movements of a stroke keep. -/
theorem draw?_kept {f : Fill} {halts : Prop} {width : Nat} {I : Stroke → Prop} {s : Stroke}
    (hf : f.Fit halts) (hI : Kept halts width (f.Touches width) I) (hs : I s) :
    Lands halts (fun out => I out.2) (f.draw? s) := by
  cases f with
  | alignedBox b => exact (b.draw?_kept hI hs).map fun _ ht => ht
  | fractionalBox b => exact (FractionalBox.draw?_kept hf hI hs).map fun _ ht => ht
  | mask f => exact (f.draw?_kept hI hs).map fun _ ht => ht
  | analytic f => exact (AnalyticFill.draw?_kept hf.2 hf.1 hI hs).map fun _ ht => ht

/-- A fill touches rows of its bounds. -/
theorem Touches.row {f : Fill} {width : Nat} {y : Int} {x m : Nat} (h : f.Touches width y x m) :
    f.bounds.y0 ≤ y ∧ y < f.bounds.y1 := by
  cases f with
  | alignedBox b => exact h.1.2.2
  | fractionalBox b => exact h.1.2.2
  | mask f => exact h.1
  | analytic f => exact h.1

end Fill

theorem MaskCommand.clippedSpan?_le {c : MaskCommand} {width x0 x1 : Nat}
    (h : c.clippedSpan? width = some (x0, x1)) : x0 < x1 ∧ x1 ≤ width := by
  simp only [clippedSpan?, Option.bind_eq_bind, Option.bind_eq_some_iff] at h
  obtain ⟨⟨a, b⟩, -, h⟩ := h
  split at h
  · cases h
    omega
  · cases h

/-- What a fill touches lies on a surface that holds its bounds. -/
theorem Fill.Touches.inside {f : Fill} {s : Surface} {y : Int} {x m : Nat}
    (h : f.Touches s.width y x m) (hin : s.Holds f.bounds) : s.Inside y x := by
  have hrow := h.row
  obtain ⟨-, htop, hbottom⟩ := hin.rows (by omega)
  have hcolumns := hin.columns
  have hx : x < s.width := by
    cases f with
    | alignedBox b =>
      have := h.1.2.1
      exact_mod_cast this.trans_le hcolumns.2
    | fractionalBox b =>
      have := h.1.2.1
      exact_mod_cast this.trans_le hcolumns.2
    | mask f =>
      obtain ⟨-, c, -, ⟨x0, x1, hspan, -, hx⟩, -⟩ := h
      exact hx.trans_le (MaskCommand.clippedSpan?_le hspan).2
    | analytic f =>
      have hx : x < AnalyticFill.rightEnd f.bounds := h.2.1
      have hright : f.bounds.x1 ≤ s.width := hcolumns.2
      unfold AnalyticFill.rightEnd at hx
      omega
  exact ⟨hx, by omega, by omega⟩

/-! ## Fills of the constructors -/

/-- A box of whole pixels has coverage, and a column and a row at least. -/
theorem AlignedBox.eq_of_ofBounds? {alpha : Nat} {bounds : Box} {b : AlignedBox}
    (h : ofBounds? alpha bounds = some b) :
    b = ⟨bounds, min alpha 255⟩ ∧ alpha ≠ 0 ∧ bounds.x0 < bounds.x1 ∧ bounds.y0 < bounds.y1 := by
  unfold ofBounds? at h
  split at h
  · cases h
  · rename_i hempty
    simp only [Box.isEmpty, not_or, Bool.or_eq_true, decide_eq_true_eq, Int.not_le] at hempty
    exact ⟨(Option.some.inj h).symm, hempty⟩

namespace FractionalBox

/-- A part of a box has a row at least. -/
theorem eq_of_clipRows? {b part : FractionalBox} {lo hi : Int}
    (h : b.clipRows? lo hi = some part) :
    part = ⟨b.bounds.clipRows lo hi, clipTiers (max b.bounds.y0 lo) (min b.bounds.y1 hi) b.bounds.y0
      b.tiers⟩ ∧ max b.bounds.y0 lo < min b.bounds.y1 hi := by
  unfold clipRows? at h
  dsimp only at h
  split at h
  · cases h
  · rename_i hlt
    exact ⟨(Option.some.inj h).symm, Int.not_le.mp hlt⟩

theorem shrink_le (bounds : Box) (top bottom : CoverageTier) :
    bounds.y0 ≤ (shrink bounds top bottom).y0 ∧ (shrink bounds top bottom).y1 ≤ bounds.y1 := by
  unfold shrink
  dsimp only
  split_ifs <;> omega

/-- A box lies within its corners in steps of 1/256. -/
theorem bounds_of_ofFixed? {alpha : Nat} {x0 y0 x1 y1 : Int} {b : FractionalBox}
    (h : ofFixed? alpha x0 y0 x1 y1 = some b) :
    0 ≤ b.bounds.y0 ∧ b.bounds.x1 = ((x1.toNat + 255) / 256 : Nat) ∧
      b.bounds.y1 ≤ ((y1.toNat + 255) / 256 : Nat) := by
  have hshrink (bounds : Box) (top bottom : CoverageTier) (hy : 0 ≤ bounds.y0) :
      0 ≤ (shrink bounds top bottom).y0 ∧ (shrink bounds top bottom).x1 = bounds.x1 ∧
        (shrink bounds top bottom).y1 ≤ bounds.y1 :=
    ⟨hy.trans (shrink_le bounds top bottom).1, rfl, (shrink_le bounds top bottom).2⟩
  unfold ofFixed? at h
  dsimp only at h
  split_ifs at h <;>
    first
      | (cases h; done)
      | (obtain rfl := Option.some.inj h
         first
           | exact ⟨Int.natCast_nonneg _, rfl, le_rfl⟩
           | exact hshrink _ _ _ (Int.natCast_nonneg _))

/-- A box has a column at least, and none left of the first one. -/
theorem columns_of_ofFixed? {alpha : Nat} {x0 y0 x1 y1 : Int} {b : FractionalBox}
    (h : ofFixed? alpha x0 y0 x1 y1 = some b) : 0 ≤ b.bounds.x0 ∧ b.bounds.x0 < b.bounds.x1 := by
  have hcolumns : b.bounds.x0 = (x0.toNat / 256 : Nat) ∧
      b.bounds.x1 = ((x1.toNat + 255) / 256 : Nat) ∧ x0 < x1 ∧ 0 ≤ x0 := by
    unfold ofFixed? at h
    dsimp only at h
    split_ifs at h <;>
      first
        | (cases h; done)
        | (obtain rfl := Option.some.inj h; exact ⟨rfl, rfl, by omega, by omega⟩)
  omega

end FractionalBox

/-- A fill of a constructor, with bounds that the surface holds, has what drawing it relies on. -/
theorem Fill.Made.fit {halts : Prop} {f : Fill} {s : Surface} (hf : f.Made)
    (hin : s.Holds f.bounds) : f.Fit halts := by
  cases f with
  | alignedBox b => trivial
  | fractionalBox b =>
    obtain ⟨alpha, x0, y0, x1, y1, h⟩ := hf
    obtain ⟨hx0, hlt⟩ := FractionalBox.columns_of_ofFixed? h
    exact ⟨hx0, hlt, hin.2.1.trans (wrap32_mem s.width).2⟩
  | mask f => trivial
  | analytic f =>
    obtain ⟨alpha, bounds, rule, bits, bitStride, cells, cellStride, h⟩ := hf
    have hcomplete := AnalyticFill.complete_of_ofBuffers? h
    exact ⟨(hin.rows hcomplete.1.le).1, fun _ => hcomplete⟩

/-! ## Coverage -/

/-- The coverages of a tier are below 256. -/
def CoverageTier.Capped (t : CoverageTier) : Prop := t.left ≤ 255 ∧ t.inner ≤ 255 ∧ t.right ≤ 255

theorem CoverageTier.Capped.le {t : CoverageTier} {m : Nat} (h : t.Capped) (hm : t.Has m) :
    m ≤ 255 := by
  obtain rfl | rfl | rfl := hm
  · exact h.1
  · exact h.2.1
  · exact h.2.2

/-- The coverage of a span with one coverage is below 256; bytes always are. -/
def MaskCommand.Capped : MaskCommand → Prop
  | constant _ _ mask => mask ≤ 255
  | marker _ | varying .. => True

theorem MaskCommand.Capped.le {c : MaskCommand} {alpha m : Nat} (h : c.Capped) (ha : alpha ≤ 255)
    (hm : c.Has alpha m) : m ≤ 255 := by
  cases c with
  | marker count => exact hm.elim
  | constant x0 x1 mask => exact hm.trans_le h
  | varying x0 x1 data advance scaled =>
    obtain ⟨v, -, rfl⟩ := hm
    have hv : v.toNat ≤ 255 := Nat.le_of_lt_succ v.toNat_lt
    split
    · exact hv
    · exact div255_le (Nat.mul_le_mul hv ha)

theorem FillRule.coverage_le (rule : FillRule) {alpha : Nat} (h : alpha ≤ 255) (cover : UInt32) :
    rule.coverage alpha cover ≤ 255 := by
  have hwinding : rule.winding cover ≤ 256 := by
    unfold winding
    exact Nat.min_le_right _ _
  exact Nat.div_le_of_le_mul (Nat.mul_le_mul hwinding h)

namespace FractionalBox

theorem uniform_capped {m : Nat} (h : m ≤ 255) : (CoverageTier.uniform m).Capped := ⟨h, h, h⟩

theorem wideTier_capped {fl fr m shift : Nat} (hl : fl ≤ 256) (hr : fr ≤ 256)
    (hm : m ≤ shift * 255) : (wideTier fl fr m shift).Capped := by
  have hside {f : Nat} (hf : f ≤ 256) : f * m / (256 * shift) ≤ 255 := by
    refine Nat.div_le_of_le_mul ?_
    rw [Nat.mul_assoc]
    exact Nat.mul_le_mul hf hm
  exact ⟨hside hl, Nat.div_le_of_le_mul hm, hside hr⟩

theorem stack_capped {top middle bottom : CoverageTier} {h : Nat} (htop : top.Capped)
    (hmiddle : middle.Capped) (hbottom : bottom.Capped) :
    ∀ t ∈ stack top middle bottom h, t.Capped := by
  intro t ht
  simp only [stack, List.mem_append, List.mem_singleton] at ht
  obtain (ht | ht) | rfl := ht
  · split at ht
    · obtain rfl := List.mem_singleton.mp ht
      exact htop
    · cases ht
  · split at ht
    · obtain rfl := List.mem_singleton.mp ht
      exact hmiddle
    · cases ht
  · exact hbottom

theorem capped_of_ofFixed? {alpha : Nat} {x0 y0 x1 y1 : Int} {b : FractionalBox}
    (h : ofFixed? alpha x0 y0 x1 y1 = some b) : ∀ t ∈ b.tiers, t.Capped := by
  unfold ofFixed? at h
  split at h
  · cases h
  · dsimp only at h
    have halpha : min alpha 255 ≤ 255 := Nat.min_le_right _ _
    have hfy1 : (y1.toNat - 1) % 256 + 1 ≤ 256 := by omega
    have hfx1 : (x1.toNat - 1) % 256 + 1 ≤ 256 := by omega
    generalize min alpha 255 = a at h halpha
    generalize hfx : (x1.toNat - 1) % 256 + 1 = fx1 at h hfx1
    generalize hfy : (y1.toNat - 1) % 256 + 1 = fy1 at h hfy1
    generalize (y1.toNat + 255) / 256 - y0.toNat / 256 = rows at h
    generalize hfy0 : (if rows = 1 then fy1 else 256) - y0.toNat % 256 = fy0 at h
    have hfy0 : fy0 ≤ 256 := by
      split at hfy0 <;> omega
    have hrow {fy : Nat} (hfy : fy ≤ 256) : fy * a ≤ 256 * 255 := Nat.mul_le_mul hfy halpha
    split at h
    · -- one column: both edges are in it
      have hfx : fx1 - x0.toNat % 256 ≤ 256 := by omega
      have hpart {fy : Nat} (hfy : fy ≤ 256) :
          (fx1 - x0.toNat % 256) * (fy * a) / 65536 ≤ 255 :=
        Nat.div_le_of_le_mul ((Nat.mul_le_mul hfx (hrow hfy)).trans_eq rfl)
      have htop := uniform_capped (hpart hfy0)
      have hmiddle := uniform_capped (Nat.div_le_of_le_mul (Nat.mul_le_mul hfx halpha))
      have hbottom := uniform_capped (hpart hfy1)
      split_ifs at h
      · obtain rfl := Option.some.inj h
        exact List.forall_mem_singleton.mpr htop
      · obtain rfl := Option.some.inj h
        exact stack_capped htop hmiddle hbottom
    · have hfx0 : 256 - x0.toNat % 256 ≤ 256 := Nat.sub_le _ _
      have htop := wideTier_capped hfx0 hfx1 (hrow hfy0)
      have hmiddle := wideTier_capped hfx0 hfx1 (halpha.trans_eq (Nat.one_mul 255).symm)
      have hbottom := wideTier_capped hfx0 hfx1 (hrow hfy1)
      split_ifs at h
      · obtain rfl := Option.some.inj h
        exact List.forall_mem_singleton.mpr htop
      · obtain rfl := Option.some.inj h
        exact stack_capped htop hmiddle hbottom

theorem clipTiers_capped {lo hi row : Int} {tiers : List CoverageTier}
    (h : ∀ t ∈ tiers, t.Capped) : ∀ t ∈ clipTiers lo hi row tiers, t.Capped := by
  induction tiers generalizing row with
  | nil => exact h
  | cons t rest ih =>
    have hrest : ∀ t' ∈ clipTiers lo hi (t.stopAfter row) rest, t'.Capped :=
      ih fun t' ht' => h t' (List.mem_cons_of_mem _ ht')
    unfold clipTiers
    dsimp only
    split
    · exact List.forall_mem_cons.mpr ⟨h t List.mem_cons_self, hrest⟩
    · exact hrest

end FractionalBox

namespace Fill

/-- The fill has its edges in order and coverages below 256. An analytic fill has its buffers,
unless drawing may go missing. -/
def Sound (halts : Prop) : Fill → Prop
  | alignedBox b => b.alpha ≤ 255
  | fractionalBox b => (0 ≤ b.bounds.x0 ∧ b.bounds.x0 < b.bounds.x1) ∧ ∀ t ∈ b.tiers, t.Capped
  | mask f => f.alpha ≤ 255 ∧ ∀ c ∈ f.commands, c.Capped
  | analytic f => f.bounds.y0 ≤ f.bounds.y1 ∧ f.alpha ≤ 255 ∧ (¬ halts → f.Complete)

variable {halts : Prop} {f part : Fill} {lo hi : Int}

theorem sound_alignedBox {alpha : Nat} {bounds : Box} {b : AlignedBox}
    (h : AlignedBox.ofBounds? alpha bounds = some b) : (alignedBox b).Sound halts := by
  obtain ⟨rfl, -⟩ := AlignedBox.eq_of_ofBounds? h
  exact Nat.min_le_right _ _

theorem sound_fractionalBox {alpha : Nat} {r : Rect} {b : FractionalBox}
    (h : FractionalBox.ofRect? alpha r = some b) : (fractionalBox b).Sound halts :=
  ⟨FractionalBox.columns_of_ofFixed? h, FractionalBox.capped_of_ofFixed? h⟩

theorem sound_mask {alpha : Nat} {bounds : Box} {commands : List MaskCommand} {m : MaskFill}
    (h : MaskFill.ofCommands? alpha bounds commands = some m) (hc : ∀ c ∈ commands, c.Capped) :
    (mask m).Sound halts := by
  unfold MaskFill.ofCommands? at h
  split at h
  · cases h
  · obtain rfl := Option.some.inj h
    exact ⟨Nat.min_le_right _ _, hc⟩

theorem Sound.fit {s : Surface} (hf : f.Sound halts) (hin : s.Holds f.bounds) : f.Fit halts := by
  cases f with
  | alignedBox b => trivial
  | fractionalBox b => exact ⟨hf.1.1, hf.1.2, hin.2.1.trans (wrap32_mem s.width).2⟩
  | mask f => trivial
  | analytic f => exact ⟨(hin.rows hf.1).1, hf.2.2⟩

theorem Sound.coverage_le {width : Nat} {y : Int} {x m : Nat} (hf : f.Sound halts)
    (h : f.Touches width y x m) : m ≤ 255 := by
  cases f with
  | alignedBox b => exact h.2.trans_le hf
  | fractionalBox b =>
    obtain ⟨-, t, ht, hm⟩ := h
    exact (hf.2 t ht).le hm
  | mask f =>
    obtain ⟨-, c, hc, -, hm⟩ := h
    exact (hf.2 c hc).le hf.1 hm
  | analytic f =>
    obtain ⟨-, -, -, cover, rfl⟩ := h
    exact f.rule.coverage_le hf.2.1 cover

/-- The part of a box fill in some rows lies in these rows. -/
theorem bounds_clipRows? (h : f.clipRows? lo hi = some part) (hbox : f.kind = .alignedBox ∨
    f.kind = .fractionalBox) : part.bounds = f.bounds.clipRows lo hi ∧ part.kind = f.kind := by
  cases f with
  | alignedBox b =>
    obtain ⟨b', hb, rfl⟩ := Option.map_eq_some_iff.mp h
    obtain ⟨rfl, -⟩ := AlignedBox.eq_of_ofBounds? hb
    exact ⟨rfl, rfl⟩
  | fractionalBox b =>
    obtain ⟨b', hb, rfl⟩ := Option.map_eq_some_iff.mp h
    obtain ⟨rfl, -⟩ := FractionalBox.eq_of_clipRows? hb
    exact ⟨rfl, rfl⟩
  | mask f => exact nomatch hbox
  | analytic f => exact nomatch hbox

theorem Sound.clipRows? (hf : f.Sound halts) (h : f.clipRows? lo hi = some part) :
    part.Sound halts := by
  cases f with
  | alignedBox b =>
    obtain ⟨b', hb, rfl⟩ := Option.map_eq_some_iff.mp h
    exact sound_alignedBox hb
  | fractionalBox b =>
    obtain ⟨b', hb, rfl⟩ := Option.map_eq_some_iff.mp h
    obtain ⟨rfl, -⟩ := FractionalBox.eq_of_clipRows? hb
    exact ⟨hf.1, FractionalBox.clipTiers_capped hf.2⟩
  | mask f =>
    obtain rfl := Option.some.inj h
    exact hf
  | analytic f =>
    obtain rfl := Option.some.inj h
    exact hf

end Fill

end Scanline
