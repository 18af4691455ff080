import Scanline.Proofs.Render.Fills
import Scanline.Proofs.Render.Movements

/-
  The layers of boxes. A box of whole pixels lays its coverage over all of them. In a row of a box
  with edges between pixels the tier of that row (`FractionalBox.tierAt?`) says the coverages: the
  left and the right column are always drawn, the inner ones if they have coverage. Wherever a
  surface holds the bounds and a cursor yields an image, drawing lays these layers
  (`AlignedBox.draw?_layered`, `FractionalBox.draw?_layered`).
-/

namespace Scanline

open Cursor Surface Stroke

/-- The same layers over each of the rows `lo` to `hi`. -/
def Surface.inRows (lo hi : Int) (layers : Nat → List Nat) : Int → Nat → List Nat := fun y x =>
  if lo ≤ y ∧ y < hi then layers x else []

variable {R : Region} {c₀ : Cursor} {image : Int → Int → UInt32} {y : Int} {lo hi : Nat}
  {s : Stroke} {at? : Option Int}

/-- Rows that are drawn one below the other each lay what one of them lays. -/
theorem Stroke.rows_finish {row : Stroke → Int → Option Stroke}
    (rows : Stroke → Int → Nat → Option Stroke) (hzero : ∀ s y, rows s y 0 = some s)
    (hsucc : ∀ s y n, rows s y (n + 1) = (row s y).bind fun t => rows t (y + 1) n)
    {l : Nat → List Nat} (hlt : lo < hi)
    (hrow : ∀ {s y at?}, s.surface.Track R c₀ image y lo hi → Reaches R c₀ s.cursor y at? →
      ∃ t, row s y = some t ∧ Finishes R c₀ image (y + 1) (inRow y l) s t) (n : Nat)
    (hT : ∀ z, y ≤ z → z < y + n → s.surface.Track R c₀ image z lo hi)
    (hs : R.Row y → ∃ at?, Reaches R c₀ s.cursor y at?) :
    ∃ t, rows s y n = some t ∧ Finishes R c₀ image (y + n) (inRows y (y + n) l) s t := by
  induction n generalizing s y with
  | zero =>
    rw [Nat.cast_zero, Int.add_zero]
    refine ⟨s, hzero s y, (Finishes.refl image hs).congr fun z x _ => ?_⟩
    exact if_neg fun h => absurd h.2 (Int.not_lt.mpr h.1)
  | succ n ih =>
    have hTy := hT y le_rfl (by omega)
    obtain ⟨at?, hat⟩ := hs (R.row_of_place (hTy.place lo le_rfl hlt))
    obtain ⟨t, ht, hst⟩ := hrow hTy hat
    obtain ⟨u, hu, htu⟩ := ih (s := t) (y := y + 1)
      (fun z hz hz' => (hT z (by omega) (by omega)).of_shape hst.layered.shape) hst.cursor
    rw [show y + 1 + (n : Int) = y + (n + 1 : Nat) by omega] at htu
    refine ⟨u, by rw [hsucc, ht]; exact hu, (hst.trans htu).congr fun z x _ => ?_⟩
    unfold inRow inRows
    by_cases hz : z = y
    · rw [if_pos (by omega), if_pos hz, if_neg (by omega), List.append_nil]
    · rw [if_neg hz, List.nil_append]
      exact if_congr (by omega) rfl rfl

/-! ## Boxes of whole pixels -/

namespace AlignedBox

/-- The coverage of the box over each of its pixels. -/
def layers (b : AlignedBox) : Int → Nat → List Nat :=
  inRows b.bounds.y0 b.bounds.y1 (across b.bounds.x0.toNat b.bounds.x1.toNat b.alpha)

/-- Draws row `y`. -/
def drawRow? (b : AlignedBox) (s : Stroke) (y : Int) : Option Stroke := do
  let s ← s.start? b.bounds.x0
  let s ← s.span? y b.bounds.x0.toNat b.bounds.x1.toNat b.alpha
  some s.nextRow

theorem drawRows?_succ (b : AlignedBox) (s : Stroke) (y : Int) (n : Nat) :
    b.drawRows? s y (n + 1) = (b.drawRow? s y).bind fun t => b.drawRows? t (y + 1) n := by
  simp only [drawRows?, drawRow?, Option.bind_eq_bind, Option.bind_assoc, Option.bind_some]

theorem drawRow?_finishes {b : AlignedBox} (halpha : b.alpha ≠ 0) (h0 : 0 ≤ b.bounds.x0)
    (hlt : b.bounds.x0 < b.bounds.x1)
    (hT : s.surface.Track R c₀ image y b.bounds.x0.toNat b.bounds.x1.toNat)
    (hs : Reaches R c₀ s.cursor y at?) :
    ∃ t, b.drawRow? s y = some t ∧ Finishes R c₀ image (y + 1)
      (inRow y (across b.bounds.x0.toNat b.bounds.x1.toNat b.alpha)) s t := by
  have hcolumns : b.bounds.x0.toNat < b.bounds.x1.toNat := by omega
  obtain ⟨t, ht, hst⟩ := start?_lays hT hs le_rfl hcolumns
  rw [Int.toNat_of_nonneg h0] at ht
  obtain ⟨u, hu, htu⟩ := span?_lays (hT.of_shape hst.layered.shape) hst.cursor le_rfl hcolumns.le
    le_rfl fun hzero => absurd hzero halpha
  refine ⟨u.nextRow, ?_, (hst.trans htu).nextRow⟩
  rw [drawRow?, ht, Option.bind_eq_bind, Option.bind_some, hu]
  rfl

/-- Drawing a box lays its coverage over its pixels. -/
theorem draw?_layered {b : AlignedBox} {surface : Surface} (op : Operator) (halpha : b.alpha ≠ 0)
    (h0 : 0 ≤ b.bounds.x0) (hlt : b.bounds.x0 < b.bounds.x1)
    (hT : ∀ y, b.bounds.y0 ≤ y → y < b.bounds.y1 →
      surface.Track R c₀ image y b.bounds.x0.toNat b.bounds.x1.toNat) :
    ∃ t, b.draw? ⟨op, surface, c₀⟩ = some t ∧ surface.Layered op image b.layers t.surface := by
  obtain ⟨t, ht, hst⟩ := rows_finish b.drawRows? (fun _ _ => rfl) b.drawRows?_succ
    (by omega) (drawRow?_finishes halpha h0 hlt) (b.bounds.y1 - b.bounds.y0).toNat
    (s := Stroke.startRow ⟨op, surface, c₀⟩ b.bounds.y0)
    (fun z hz hz' => hT z hz (by omega)) fun hrow => ⟨none, .startRow hrow⟩
  refine ⟨t, ht, hst.layered.congr fun z x _ => ?_⟩
  unfold layers inRows
  exact if_congr (by omega) rfl rfl

end AlignedBox

/-! ## Boxes with edges between pixels -/

/-- The layers of a row of the tier in columns `x0` to `x1`. -/
def CoverageTier.layers (t : CoverageTier) (x0 x1 x : Nat) : List Nat :=
  if x = x0 then [t.left] else if x + 1 = x1 then [t.right] else across x0 x1 t.inner x

namespace FractionalBox

/-- The tier of row `y`, of tiers that start at row `row`. -/
def tierAt? (y : Int) : Int → List CoverageTier → Option CoverageTier
  | _, [] => none
  | row, t :: rest => if y < t.stopAfter row then some t else tierAt? y (t.stopAfter row) rest

/-- The layers in row `y` of tiers that start at row `row`, in columns `x0` to `x1`. -/
def tierLayers (x0 x1 : Nat) (row : Int) (tiers : List CoverageTier) (y : Int) (x : Nat) :
    List Nat :=
  (tierAt? y row tiers).elim [] fun t => t.layers x0 x1 x

/-- The layers of the tiers over their rows. -/
def layers (b : FractionalBox) (y : Int) (x : Nat) : List Nat :=
  if b.bounds.y0 ≤ y ∧ y < b.bounds.y1 then
    tierLayers b.bounds.x0.toNat b.bounds.x1.toNat b.bounds.y0 b.tiers y x
  else []

variable {x0 x1 : Nat} {t : CoverageTier}

theorem tierLayers_cons (x0 x1 : Nat) (row : Int) (t : CoverageTier) (rest : List CoverageTier)
    (y : Int) (x : Nat) : tierLayers x0 x1 row (t :: rest) y x =
      if y < t.stopAfter row then t.layers x0 x1 x
      else tierLayers x0 x1 (t.stopAfter row) rest y x := by
  unfold tierLayers
  rw [tierAt?]
  split <;> rfl

theorem layers_eq_append (hx : x0 < x1) (t : CoverageTier) (x : Nat) :
    t.layers x0 x1 x = (if x = x0 then [t.left] else []) ++
      ((if 2 < x1 - x0 then across (x0 + 1) (x1 - 1) t.inner x else []) ++
        if 1 < x1 - x0 ∧ x = x1 - 1 then [t.right] else []) := by
  unfold CoverageTier.layers across
  split_ifs <;> first | rfl | omega

/-- A row is drawn in four movements, two of which may be left out. -/
theorem drawRow?_eq (t : CoverageTier) (x0 x1 : Nat) (s : Stroke) (y : Int) :
    drawRow? t x0 x1 s y = (s.start? x0).bind fun s => (s.dab? y x0 t.left).bind fun s =>
      (if 2 < x1 - x0 then s.span? y (x0 + 1) (x1 - 1) t.inner else some s).bind fun s =>
        (if 1 < x1 - x0 then s.dab? y (x1 - 1) t.right else some s).bind fun s =>
          some s.nextRow := by
  unfold drawRow?
  split_ifs <;> rfl

/-- A row of a tier lays the coverages of its columns. -/
theorem drawRow?_finishes (hx : x0 < x1) (t : CoverageTier)
    (hT : s.surface.Track R c₀ image y x0 x1) (hs : Reaches R c₀ s.cursor y at?) :
    ∃ u, drawRow? t x0 x1 s y = some u ∧
      Finishes R c₀ image (y + 1) (inRow y (t.layers x0 x1)) s u := by
  obtain ⟨s₁, h₁, hl₁⟩ := start?_lays hT hs le_rfl hx
  have hT₁ := hT.of_shape hl₁.layered.shape
  obtain ⟨s₂, h₂, hl₂⟩ := dab?_lays hT₁ hl₁.cursor le_rfl hx t.left
  have hT₂ := hT₁.of_shape hl₂.layered.shape
  -- the inner columns, if there are any, end at the last column
  have hinner : ∃ s₃ at?', (if 2 < x1 - x0 then s₂.span? y (x0 + 1) (x1 - 1) t.inner
        else some s₂) = some s₃ ∧
      Lays R c₀ image y (fun x => if 2 < x1 - x0 then across (x0 + 1) (x1 - 1) t.inner x else [])
        at?' s₂ s₃ ∧ (1 < x1 - x0 → at?' = some ((x1 - 1 : Nat) : Int)) := by
    split
    · obtain ⟨s₃, h₃, hl₃⟩ := span?_lays hT₂ hl₂.cursor (Nat.le_succ x0) (by omega)
        (Nat.sub_le x1 1) fun _ => hT.place (x1 - 1) (by omega) (by omega)
      exact ⟨s₃, _, h₃, hl₃, fun _ => rfl⟩
    · exact ⟨s₂, _, rfl, .refl image hl₂.cursor, fun _ => by congr 2; omega⟩
  obtain ⟨s₃, at?', h₃, hl₃, hat⟩ := hinner
  have hright : ∃ s₄ at?'', (if 1 < x1 - x0 then s₃.dab? y (x1 - 1) t.right else some s₃) =
        some s₄ ∧
      Lays R c₀ image y (fun x => if 1 < x1 - x0 ∧ x = x1 - 1 then [t.right] else []) at?'' s₃
        s₄ := by
    split
    · rename_i hw
      have hcursor := hl₃.cursor
      rw [hat hw] at hcursor
      obtain ⟨s₄, h₄, hl₄⟩ := dab?_lays (hT₂.of_shape hl₃.layered.shape) hcursor (by omega)
        (show x1 - 1 < x1 by omega) t.right
      exact ⟨s₄, _, h₄, hl₄.congr fun x _ => if_congr (and_iff_right hw) rfl rfl⟩
    · rename_i hw
      refine ⟨s₃, _, rfl, (Lays.refl image hl₃.cursor).congr fun x _ => ?_⟩
      exact if_neg fun h => hw h.1
  obtain ⟨s₄, at?'', h₄, hl₄⟩ := hright
  refine ⟨s₄.nextRow, ?_, ?_⟩
  · rw [drawRow?_eq, h₁, Option.bind_some, h₂, Option.bind_some, h₃, Option.bind_some, h₄,
      Option.bind_some]
  · refine ((hl₁.trans (hl₂.trans (hl₃.trans hl₄))).congr fun x _ => ?_).nextRow
    exact layers_eq_append hx t x

theorem drawRows?_succ (t : CoverageTier) (x0 x1 : Nat) (s : Stroke) (y : Int) (n : Nat) :
    drawRows? t x0 x1 s y (n + 1) =
      (drawRow? t x0 x1 s y).bind fun s => drawRows? t x0 x1 s (y + 1) n := rfl

/-- The rows of a tier fit a word. -/
def Short (t : CoverageTier) : Prop := (t.rows : Int) ≤ maxInt32

/-- A tier that starts at a word goes on for its rows, and never past the last word. -/
theorem stopAfter_eq {row : Int} (hrow : minInt32 ≤ row) (ht : Short t) :
    t.stopAfter row = min (row + t.rows) maxInt32 := by
  unfold Short maxInt32 at ht
  unfold minInt32 at hrow
  rw [CoverageTier.stopAfter, wrap32_of_range (by unfold minInt32; omega) ht, addSat32]
  unfold minInt32 maxInt32
  omega

/-- Tiers lay their rows one below the other, and nothing behind row `stop`. -/
theorem drawTiers?_finishes (hx : x0 < x1) {stop : Int} (hstop : stop ≤ maxInt32)
    {tiers : List CoverageTier} (ht : ∀ t ∈ tiers, Short t) (hy : minInt32 ≤ y)
    (hT : ∀ z, y ≤ z → z < stop → s.surface.Track R c₀ image z x0 x1)
    (hs : R.Row y → ∃ at?, Reaches R c₀ s.cursor y at?) :
    ∃ u y', drawTiers? x0 x1 stop s y tiers = some u ∧
      Finishes R c₀ image y' (fun z x => if y ≤ z ∧ z < stop then tierLayers x0 x1 y tiers z x
        else []) s u := by
  induction tiers generalizing s y with
  | nil =>
    refine ⟨s, y, rfl, (Finishes.refl image hs).congr fun z x _ => ?_⟩
    exact ite_self []
  | cons t rest ih =>
    have hstopAfter := stopAfter_eq hy (ht t List.mem_cons_self)
    rw [drawTiers?]
    generalize hn : min t.rows (stop - y).toNat = n
    obtain ⟨u, hu, hsu⟩ := rows_finish (drawRows? t x0 x1) (fun _ _ => rfl)
      (drawRows?_succ t x0 x1) hx (drawRow?_finishes hx t) n
      (fun z hz hz' => hT z hz (by omega)) hs
    obtain ⟨v, y', hv, huv⟩ := ih (s := u) (y := y + n)
      (fun t' ht' => ht t' (List.mem_cons_of_mem _ ht')) (by omega)
      (fun z hz hz' => (hT z (by omega) hz').of_shape hsu.layered.shape) hsu.cursor
    refine ⟨v, y', by rw [hu]; exact hv, (hsu.trans huv).congr fun z x _ => ?_⟩
    rw [tierLayers_cons]
    unfold inRows
    by_cases hz : y ≤ z ∧ z < stop
    · by_cases hz' : z < y + n
      · rw [if_pos hz, if_pos (by omega), if_pos (by omega), if_neg (by omega), List.append_nil]
      · -- the tier was not cut, since row `z` is left behind its rows
        rw [if_pos hz, if_neg (by omega), if_neg (by omega), if_pos (by omega), List.nil_append,
          show t.stopAfter y = y + n by omega]
    · rw [if_neg hz, if_neg (by omega), if_neg (by omega), List.append_nil]

/-- Drawing a box lays the coverages of its tiers over their rows. -/
theorem draw?_layered {b : FractionalBox} {surface : Surface} (op : Operator) (hb : b.Upright)
    (hy0 : minInt32 ≤ b.bounds.y0) (hy1 : b.bounds.y1 ≤ maxInt32) (ht : ∀ t ∈ b.tiers, Short t)
    (hT : ∀ y, b.bounds.y0 ≤ y → y < b.bounds.y1 →
      surface.Track R c₀ image y b.bounds.x0.toNat b.bounds.x1.toNat) :
    ∃ t, b.draw? ⟨op, surface, c₀⟩ = some t ∧ surface.Layered op image b.layers t.surface := by
  obtain ⟨h0, hlt, h1⟩ := hb
  have hx : b.bounds.x0.toNat < b.bounds.x1.toNat := by omega
  obtain ⟨t, y', ht, hst⟩ := drawTiers?_finishes hx hy1 ht hy0
    (s := Stroke.startRow ⟨op, surface, c₀⟩ b.bounds.y0) hT fun hrow => ⟨none, .startRow hrow⟩
  refine ⟨t, ?_, hst.layered⟩
  unfold draw?
  rw [edgeIndex_eq h0 (hlt.le.trans h1), edgeIndex_eq (h0.trans hlt.le) h1, if_neg (by omega)]
  exact ht

end FractionalBox

end Scanline
