import Scanline.Proofs.Analytic.Runs
import Scanline.Proofs.Box.Layers
import Scanline.Render.Fill

/-
  Two strokes that draw the same fill. A relation between strokes that every movement keeps, each
  movement failing for both strokes or for neither (`Stroke.Lockstep`), is kept by the loops of all
  fills: by rows of boxes, by groups of mask commands, and by the sweeps of an analytic fill, which
  end with the same cells. `Lockstep.fillDraw?` is for fills of any kind. Only the rows of the
  bounds are ever drawn to.
-/

namespace Scanline

/-- Steps that go wrong together and are related otherwise, followed by such steps. -/
theorem rel_bind {α β γ δ : Type} {r : α → β → Prop} {q : γ → δ → Prop} {a : Option α}
    {b : Option β} {f : α → Option γ} {g : β → Option δ} (h : Option.Rel r a b)
    (hfg : ∀ x y, r x y → Option.Rel q (f x) (g y)) : Option.Rel q (a.bind f) (b.bind g) := by
  cases h with
  | some h => exact hfg _ _ h
  | none => exact .none

theorem rel_map {α β γ δ : Type} {r : α → β → Prop} {q : γ → δ → Prop} {a : Option α}
    {b : Option β} {f : α → γ} {g : β → δ} (h : Option.Rel r a b)
    (hfg : ∀ x y, r x y → q (f x) (g y)) : Option.Rel q (a.map f) (b.map g) := by
  cases h with
  | some h => exact .some (hfg _ _ h)
  | none => exact .none

theorem rel_imp {α β : Type} {r q : α → β → Prop} {a : Option α} {b : Option β}
    (h : Option.Rel r a b) (hrq : ∀ x y, r x y → q x y) : Option.Rel q a b := by
  cases h with
  | some h => exact .some (hrq _ _ h)
  | none => exact .none

/-- Every movement in the given rows keeps the relation, or fails for both strokes. -/
structure Stroke.Lockstep (rows : Int → Prop) (rel : Stroke → Stroke → Prop) : Prop where
  width_eq : ∀ {s t}, rel s t → t.surface.width = s.surface.width
  startRow : ∀ {s t}, rel s t → ∀ y, rel (s.startRow y) (t.startRow y)
  nextRow : ∀ {s t}, rel s t → rel s.nextRow t.nextRow
  start? : ∀ {s t}, rel s t → ∀ x, Option.Rel rel (s.start? x) (t.start? x)
  skip? : ∀ {s t}, rel s t → ∀ x n, Option.Rel rel (s.skip? x n) (t.skip? x n)
  dab? : ∀ {s t y}, rel s t → rows y → ∀ x m, Option.Rel rel (s.dab? y x m) (t.dab? y x m)

/-- Two sweeps with related strokes, over the same cells and with the same sum. -/
def Stroke.Beside (rel : Stroke → Stroke → Prop) (a b : AnalyticFill.Sweep Stroke) : Prop :=
  rel a.stroke b.stroke ∧ a.cells = b.cells ∧ a.cover = b.cover

theorem Stroke.Beside.take? {rel : Stroke → Stroke → Prop} {a b : AnalyticFill.Sweep Stroke}
    (hab : Beside rel a b) (l : AnalyticFill.Line) (x : Nat) :
    Option.Rel (Beside rel) (a.take? l x) (b.take? l x) := by
  obtain ⟨hst, hcells, hcover⟩ := hab
  unfold AnalyticFill.Sweep.take?
  rw [← hcells, ← hcover]
  split
  · cases a.cells[l.cellStart + x]? with
    | none => exact .none
    | some cell => exact .some ⟨hst, rfl, rfl⟩
  · exact .none

namespace Stroke.Lockstep

variable {rows : Int → Prop} {rel : Stroke → Stroke → Prop} (h : Lockstep rows rel)
  {s t : Stroke} {y : Int}

include h

/-! ## Spans -/

theorem dabs? (hst : rel s t) (hy : rows y) (x m n : Nat) :
    Option.Rel rel (s.dabs? y x m n) (t.dabs? y x m n) := by
  induction n generalizing s t x with
  | zero => exact .some hst
  | succ n ih => exact rel_bind (h.dab? hst hy x m) fun s t hst => ih hst (x + 1)

theorem span? (hst : rel s t) (hy : rows y) (x0 x1 m : Nat) :
    Option.Rel rel (s.span? y x0 x1 m) (t.span? y x0 x1 m) := by
  rw [Stroke.span?_eq, Stroke.span?_eq]
  split_ifs
  · exact .some hst
  · exact h.skip? hst x1 (x1 - x0)
  · exact h.dabs? hst hy x0 m (x1 - x0)

theorem varied? (hst : rel s t) (hy : rows y) (x : Nat) (ms : List Nat) :
    Option.Rel rel (s.varied? y x ms) (t.varied? y x ms) := by
  induction ms generalizing s t x with
  | nil => exact .some hst
  | cons m rest ih => exact rel_bind (h.dab? hst hy x m) fun s t hst => ih hst (x + 1)

/-! ## Boxes -/

theorem alignedRows? (b : AlignedBox) (n : Nat) (hst : rel s t)
    (hy : ∀ z, y ≤ z → z < y + n → rows z) :
    Option.Rel rel (b.drawRows? s y n) (b.drawRows? t y n) := by
  induction n generalizing s t y with
  | zero => exact .some hst
  | succ n ih =>
    refine rel_bind (h.start? hst b.bounds.x0) fun s t hst => ?_
    refine rel_bind (h.span? hst (hy y le_rfl (by omega)) _ _ b.alpha) fun s t hst => ?_
    exact ih (h.nextRow hst) fun z hz hz' => hy z (by omega) (by omega)

theorem fractionalRow? (tier : CoverageTier) (x0 x1 : Nat) (hst : rel s t) (hy : rows y) :
    Option.Rel rel (FractionalBox.drawRow? tier x0 x1 s y)
      (FractionalBox.drawRow? tier x0 x1 t y) := by
  rw [FractionalBox.drawRow?_eq, FractionalBox.drawRow?_eq]
  refine rel_bind (h.start? hst x0) fun s t hst => ?_
  refine rel_bind (h.dab? hst hy x0 tier.left) fun s t hst => ?_
  refine rel_bind (q := rel) (r := rel) ?_ fun s t hst => ?_
  · split
    · exact h.span? hst hy (x0 + 1) (x1 - 1) tier.inner
    · exact .some hst
  · refine rel_bind (r := rel) ?_ fun s t hst => .some (h.nextRow hst)
    split
    · exact h.dab? hst hy (x1 - 1) tier.right
    · exact .some hst

theorem fractionalRows? (tier : CoverageTier) (x0 x1 n : Nat) (hst : rel s t)
    (hy : ∀ z, y ≤ z → z < y + n → rows z) :
    Option.Rel rel (FractionalBox.drawRows? tier x0 x1 s y n)
      (FractionalBox.drawRows? tier x0 x1 t y n) := by
  induction n generalizing s t y with
  | zero => exact .some hst
  | succ n ih =>
    refine rel_bind (h.fractionalRow? tier x0 x1 hst (hy y le_rfl (by omega))) fun s t hst => ?_
    exact ih hst fun z hz hz' => hy z (by omega) (by omega)

theorem fractionalTiers? (x0 x1 : Nat) (stop : Int) (tiers : List CoverageTier) (hst : rel s t)
    (hy : ∀ z, y ≤ z → z < stop → rows z) :
    Option.Rel rel (FractionalBox.drawTiers? x0 x1 stop s y tiers)
      (FractionalBox.drawTiers? x0 x1 stop t y tiers) := by
  induction tiers generalizing s t y with
  | nil => exact .some hst
  | cons tier rest ih =>
    refine rel_bind (h.fractionalRows? tier x0 x1 (min tier.rows (stop - y).toNat) hst
      fun z hz hz' => hy z hz (by omega)) fun s t hst => ?_
    exact ih hst fun z hz hz' => hy z (by omega) hz'

/-! ## Masks -/

theorem moveTo? (stand? : Option Nat) (x0 : Nat) (hst : rel s t) :
    Option.Rel rel (MaskCommand.moveTo? s stand? x0) (MaskCommand.moveTo? t stand? x0) := by
  cases stand? with
  | none => exact h.start? hst x0
  | some x =>
    unfold MaskCommand.moveTo?
    dsimp only
    split_ifs
    · exact .some hst
    · exact h.skip? hst x0 (x0 - x)
    · exact h.start? hst x0

theorem maskCommand? (c : MaskCommand) (alpha k x0 x1 : Nat) (hst : rel s t) (hy : rows y) :
    Option.Rel rel (c.draw? alpha k y s x0 x1) (c.draw? alpha k y t x0 x1) := by
  cases c with
  | marker count => exact .some hst
  | constant a b mask => exact h.span? hst hy x0 x1 mask
  | varying a b data advance scaled =>
    unfold MaskCommand.draw?
    dsimp only
    cases MaskCommand.coverages? alpha k (x1 - x0) data advance scaled with
    | none => exact .none
    | some ms => exact h.varied? hst hy x0 ms

theorem maskSpans? (alpha k : Nat) (stand? : Option Nat) (spans : List MaskCommand)
    (hst : rel s t) (hy : rows y) :
    Option.Rel rel (MaskCommand.drawSpans? alpha k y s stand? spans)
      (MaskCommand.drawSpans? alpha k y t stand? spans) := by
  induction spans generalizing s t stand? with
  | nil => exact .some hst
  | cons c rest ih =>
    unfold MaskCommand.drawSpans?
    rw [h.width_eq hst]
    split
    · exact ih stand? hst
    · refine rel_bind (h.moveTo? stand? _ hst) fun s t hst => ?_
      exact rel_bind (h.maskCommand? c alpha k _ _ hst hy) fun s t hst => ih _ hst

/-- A group leaves the same number of rows, and no more than there were. -/
theorem maskGroup? (alpha : Nat) (spans : List MaskCommand) (limit : Option Nat) (stop : Int)
    (k left : Nat) (hst : rel s t) (hy : ∀ z, stop - left ≤ z → z < stop → rows z) :
    Option.Rel (fun a b => rel a.1 b.1 ∧ a.2 = b.2 ∧ a.2 ≤ left)
      (MaskFill.drawGroup? alpha spans limit stop s k left)
      (MaskFill.drawGroup? alpha spans limit stop t k left) := by
  induction left generalizing s t k with
  | zero => exact .some ⟨hst, rfl, le_rfl⟩
  | succ left ih =>
    unfold MaskFill.drawGroup?
    rw [h.width_eq hst]
    split
    · have hrow : rows (stop - (left + 1 : Nat)) := hy _ le_rfl (by omega)
      refine rel_bind (h.maskSpans? alpha k none spans hst hrow) fun s t hst => ?_
      split
      · exact .some ⟨h.nextRow hst, rfl, Nat.le_succ left⟩
      · refine rel_imp (ih (k + 1) (h.nextRow hst) fun z hz hz' => hy z (by omega) hz') ?_
        exact fun a b hab => ⟨hab.1, hab.2.1, hab.2.2.trans (Nat.le_succ left)⟩
    · exact .some ⟨hst, rfl, le_rfl⟩

theorem maskGroups? (alpha : Nat) (stop : Int) (left : Nat)
    (groups : List (List MaskCommand × Nat)) (hst : rel s t)
    (hy : ∀ z, stop - left ≤ z → z < stop → rows z) :
    Option.Rel rel (MaskFill.drawGroups? alpha stop s left groups)
      (MaskFill.drawGroups? alpha stop t left groups) := by
  induction groups generalizing s t left with
  | nil => exact .some hst
  | cons group rest ih =>
    refine rel_bind (h.maskGroup? alpha group.1 (MaskCommand.limit? group.2) stop 0 left hst hy) ?_
    rintro ⟨s, left'⟩ ⟨t, _⟩ ⟨hst, rfl, hle⟩
    exact ih left' hst fun z hz hz' => hy z (by omega) hz'

/-! ## Analytic fills -/

theorem sweepPixels? {l : AnalyticFill.Line} (hy : rows l.y) {a b : AnalyticFill.Sweep Stroke}
    (hab : Beside rel a b) (x n : Nat) :
    Option.Rel (Beside rel) (a.pixels? brush l x n) (b.pixels? brush l x n) := by
  induction n generalizing a b x with
  | zero => exact .some hab
  | succ n ih =>
    obtain ⟨hst, hcells, hcover⟩ := hab
    unfold AnalyticFill.Sweep.pixels? AnalyticFill.Sweep.coverage
    rw [← hcover]
    refine rel_bind (h.dab? hst hy x _) fun s t hst => ?_
    have hdrawn : Beside rel ⟨s, a.cells, a.cover⟩ ⟨t, b.cells, a.cover⟩ := ⟨hst, hcells, rfl⟩
    exact rel_bind (hdrawn.take? l (x + 1)) fun a b hab => ih hab (x + 1)

theorem sweepGap? {l : AnalyticFill.Line} (hy : rows l.y) {a b : AnalyticFill.Sweep Stroke}
    (hab : Beside rel a b) (x runStart : Nat) :
    Option.Rel (Beside rel) (a.gap? brush l x runStart) (b.gap? brush l x runStart) := by
  unfold AnalyticFill.Sweep.gap?
  split
  · obtain ⟨hst, hcells, hcover⟩ := hab
    unfold AnalyticFill.Sweep.coverage
    rw [← hcover]
    exact rel_bind (h.span? hst hy x runStart _) fun s t hst => .some ⟨hst, hcells, rfl⟩
  · exact .some hab

theorem sweepRuns? {l : AnalyticFill.Line} (hy : rows l.y) {a b : AnalyticFill.Sweep Stroke}
    (hab : Beside rel a b) (x last : Nat) (runs : List (Nat × Nat)) :
    Option.Rel (Beside rel) (a.runs? brush l x last runs) (b.runs? brush l x last runs) := by
  induction runs generalizing a b x last with
  | nil =>
    exact rel_bind (hab.take? l x) fun a b hab => h.sweepPixels? hy hab x _
  | cons run rest ih =>
    refine rel_bind (hab.take? l x) fun a b hab => ?_
    refine rel_bind (h.sweepPixels? hy hab x _) fun a b hab => ?_
    dsimp only
    split
    · exact .some hab
    · exact rel_bind (h.sweepGap? hy hab _ _) fun a b hab => ih hab _ _

/-- A row is drawn from the same cells, and leaves the same cells. -/
theorem analyticRuns? {l : AnalyticFill.Line} (hy : rows l.y) (hst : rel s t)
    (cells : Array UInt32) (runs : List (Nat × Nat)) :
    Option.Rel (fun a b => rel a.1 b.1 ∧ a.2 = b.2)
      (AnalyticFill.drawRuns? brush l s cells runs)
      (AnalyticFill.drawRuns? brush l t cells runs) := by
  cases runs with
  | nil => exact .some ⟨hst, rfl⟩
  | cons run rest =>
    refine rel_bind (h.start? hst _) fun s t hst => ?_
    split
    · exact .some ⟨hst, rfl⟩
    · have hbegin : Beside rel ⟨s, cells, coverBias⟩ ⟨t, cells, coverBias⟩ := ⟨hst, rfl, rfl⟩
      refine rel_bind (h.sweepRuns? hy hbegin _ _ rest) fun a b hab => ?_
      exact .some ⟨hab.1, hab.2.1⟩

theorem analyticRow? (f : AnalyticFill) (r : Nat) (hst : rel s t) (hy : rows (f.bounds.y0 + r)) :
    Option.Rel (fun a b => a.1 = b.1 ∧ a.1.bounds = f.bounds ∧ rel a.2 b.2)
      (f.drawRow? brush s r) (f.drawRow? brush t r) := by
  rw [AnalyticFill.drawRow?_eq, AnalyticFill.drawRow?_eq]
  split
  · exact .none
  · refine rel_map (h.analyticRuns? (l := f.line r) hy hst f.cells _) ?_
    rintro ⟨s, cells⟩ ⟨t, _⟩ ⟨hst, rfl⟩
    exact ⟨rfl, rfl, h.nextRow hst⟩

theorem analyticRows? (f : AnalyticFill) (r n : Nat) (hst : rel s t)
    (hy : ∀ i, r ≤ i → i < r + n → rows (f.bounds.y0 + i)) :
    Option.Rel (fun a b => a.1 = b.1 ∧ rel a.2 b.2) (f.drawRows? brush s r n)
      (f.drawRows? brush t r n) := by
  induction n generalizing f s t r with
  | zero => exact .some ⟨rfl, hst⟩
  | succ n ih =>
    refine rel_bind (h.analyticRow? f r hst (hy r le_rfl (by omega))) ?_
    rintro ⟨f', s⟩ ⟨_, t⟩ ⟨rfl, hbounds, hst⟩
    refine ih f' (r + 1) hst fun i hi hi' => ?_
    rw [hbounds]
    exact hy i (by omega) (by omega)

/-! ## Fills of any kind -/

/-- Drawing a fill whose rows are among the given ones fails for both strokes, or leaves the same of
the fill and strokes that are related. -/
theorem fillDraw? (f : Fill) (hst : rel s t)
    (hy : ∀ y, f.bounds.y0 ≤ y → y < f.bounds.y1 → rows y) :
    Option.Rel (fun a b => a.1 = b.1 ∧ rel a.2 b.2) (f.draw? s) (f.draw? t) := by
  cases f with
  | alignedBox b =>
    refine rel_map (h.alignedRows? b _ (h.startRow hst _) fun z hz hz' => ?_)
      fun s t hst => ⟨rfl, hst⟩
    exact hy z hz (by change z < b.bounds.y1; omega)
  | fractionalBox b =>
    unfold Fill.draw? FractionalBox.draw?
    dsimp only
    split
    · exact .none
    · exact rel_map (h.fractionalTiers? _ _ _ b.tiers (h.startRow hst _) hy)
        fun s t hst => ⟨rfl, hst⟩
  | mask m =>
    refine rel_map (h.maskGroups? _ _ _ _ (h.startRow hst _) fun z hz hz' => ?_)
      fun s t hst => ⟨rfl, hst⟩
    exact hy z (by change m.bounds.y0 ≤ z; omega) hz'
  | analytic a =>
    refine rel_map (h.analyticRows? a 0 _ (h.startRow hst _) fun i _ hi => ?_) ?_
    · exact hy _ (by change a.bounds.y0 ≤ a.bounds.y0 + i; omega)
        (by change a.bounds.y0 + i < a.bounds.y1; omega)
    · rintro ⟨a, s⟩ ⟨_, t⟩ ⟨rfl, hst⟩
      exact ⟨rfl, hst⟩

end Stroke.Lockstep

end Scanline
