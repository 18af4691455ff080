import Scanline.Proofs.Mask.Grammar
import Scanline.Proofs.Render.Fills
import Scanline.Proofs.Render.Movements

/-
  The layers that mask commands leave. A span lays its coverage over the columns that it covers
  (`MaskCommand.layers`), the spans of a row one after the other, however they lie to each other
  (`drawSpans?_lays`), and the groups of a fill row by row (`drawGroups?_finishes`).
  `MaskFill.draw?_layered`: drawing a fill lays what its plan says.
-/

namespace Scanline

open Cursor Surface Stroke

namespace MaskCommand

/-- Column `x` is a column of the command left of `width`. -/
def Covers (c : MaskCommand) (width x : Nat) : Prop :=
  ∃ x0 x1, c.span? = some (x0, x1) ∧ x0 ≤ x ∧ x < min x1 width

instance (c : MaskCommand) (width x : Nat) : Decidable (c.Covers width x) :=
  match h : c.span? with
  | none => isFalse fun ⟨_, _, h', _⟩ => nomatch h.symm.trans h'
  | some (x0, x1) => decidable_of_iff (x0 ≤ x ∧ x < min x1 width)
      ⟨fun hx => ⟨x0, x1, h, hx⟩, fun ⟨_, _, h', hx⟩ => by cases h.symm.trans h'; exact hx⟩

/-- The coverage of a command in column `x` of row `k` of its group. Bytes that are not scaled are
multiplied by the alpha of the fill and divided by 255, rounded to nearest. -/
def coverage? (c : MaskCommand) (alpha k x : Nat) : Option Nat :=
  match c with
  | marker _ => none
  | constant _ _ mask => some mask
  | varying x0 _ data advance scaled =>
    (data[k * advance + (x - x0)]?).map fun m =>
      if scaled then m.toNat else (m.toNat * alpha + 127) / 255

/-- The layers of a command in row `k` of its group. -/
def layers (c : MaskCommand) (width alpha k x : Nat) : List Nat :=
  if c.Covers width x then
    match c with
    | marker _ => []
    | constant _ _ mask => if mask = 0 then [] else [mask]
    | varying .. => (c.coverage? alpha k x).toList
  else []

theorem covers_iff {c : MaskCommand} {width x : Nat} :
    c.Covers width x ↔ ∃ a b, c.clippedSpan? width = some (a, b) ∧ a ≤ x ∧ x < b := by
  unfold Covers clippedSpan?
  cases c.span? with
  | none => exact ⟨fun ⟨_, _, h, _⟩ => (nomatch h), fun ⟨_, _, h, _⟩ => (nomatch h)⟩
  | some p =>
    obtain ⟨x0, x1⟩ := p
    refine ⟨fun ⟨a, b, h, hlo, hhi⟩ => ?_, fun ⟨a, b, h, hlo, hhi⟩ => ?_⟩
    · cases h
      exact ⟨x0, min x1 width, if_pos (hlo.trans_lt hhi), hlo, hhi⟩
    · change (if x0 < min x1 width then some (x0, min x1 width) else none) = some (a, b) at h
      split at h
      · cases h
        exact ⟨x0, x1, rfl, hlo, hhi⟩
      · cases h

theorem covers_iff_of_clippedSpan? {c : MaskCommand} {width a b x : Nat}
    (h : c.clippedSpan? width = some (a, b)) : c.Covers width x ↔ a ≤ x ∧ x < b := by
  rw [covers_iff, h]
  exact ⟨fun ⟨_, _, heq, hx⟩ => by cases heq; exact hx, fun hx => ⟨a, b, rfl, hx⟩⟩

/-- A command whose columns are all right of the surface lays nothing. -/
theorem layers_eq_nil {c : MaskCommand} {width : Nat} (h : c.clippedSpan? width = none)
    (alpha k x : Nat) : c.layers width alpha k x = [] := by
  refine if_neg fun hx => ?_
  obtain ⟨a, b, hspan, -⟩ := covers_iff.mp hx
  cases h.symm.trans hspan

theorem clippedSpan?_fst {c : MaskCommand} {width x0 x1 a b : Nat} (h : c.span? = some (x0, x1))
    (h' : c.clippedSpan? width = some (a, b)) : a = x0 := by
  unfold clippedSpan? at h'
  rw [h] at h'
  change (if x0 < min x1 width then some (x0, min x1 width) else none) = some (a, b) at h'
  split at h'
  · cases h'
    rfl
  · cases h'

/-- The bytes that are read for a span, column by column. -/
theorem getElem?_coverages {alpha k length advance : Nat} {data : Array UInt8} {scaled : Bool}
    {ms : List Nat} (halpha : alpha ≤ 255)
    (h : coverages? alpha k length data advance scaled = some ms) {i : Nat} (hi : i < length) :
    ms[i]? = (data[k * advance + i]?).map fun m =>
      if scaled then m.toNat else (m.toNat * alpha + 127) / 255 := by
  unfold coverages? at h
  split at h
  · rw [← Option.some.inj h, List.getElem?_map, Array.getElem?_toList, Array.getElem?_extract,
      if_pos (by omega)]
    refine congrArg (Option.map · _) (funext fun m => ?_)
    have hm : m.toNat * alpha ≤ 255 * 255 :=
      Nat.mul_le_mul (Nat.le_of_lt_succ m.toNat_lt) halpha
    rw [mul255, div255_eq hm]
  · cases h

variable {R : Region} {c₀ : Cursor} {image : Int → Int → UInt32} {y : Int} {width : Nat}
  {s : Stroke}

/-- Moving to a span lays nothing, wherever the stroke stands. -/
theorem moveTo?_lays (hT : s.surface.Track R c₀ image y 0 width) {at? : Option Int}
    (hs : Reaches R c₀ s.cursor y at?) {stand? : Option Nat}
    (hstand : ∀ x, stand? = some x → at? = some (x : Int)) {x0 : Nat} (hx0 : x0 < width) :
    ∃ t, moveTo? s stand? x0 = some t ∧
      Lays R c₀ image y (fun _ => []) (some (x0 : Int)) s t := by
  cases stand? with
  | none => exact start?_lays hT hs (Nat.zero_le x0) hx0
  | some x =>
    obtain rfl := hstand x rfl
    rw [moveTo?]
    split
    · rename_i heq
      subst heq
      exact ⟨s, rfl, .refl image hs⟩
    · split
      · rename_i hlt
        exact skip?_lays hT.yields hs hlt.le (hT.place x (Nat.zero_le x) (hlt.trans hx0))
          (hT.place x0 (Nat.zero_le x0) hx0)
      · exact start?_lays hT hs (Nat.zero_le x0) hx0

/-- A command lays its coverage over the columns that it covers. -/
theorem draw?_lays {c : MaskCommand} {alpha k a b : Nat} (halpha : alpha ≤ 255)
    (hT : s.surface.Track R c₀ image y 0 width) (hlast : R.Place y width)
    (hs : Reaches R c₀ s.cursor y (some (a : Int))) (hrow : hasRow width k c)
    (hspan : c.clippedSpan? width = some (a, b)) :
    ∃ t, c.draw? alpha k y s a b = some t ∧
      Lays R c₀ image y (c.layers width alpha k) (some (b : Int)) s t := by
  obtain ⟨hab, hb⟩ := clippedSpan?_le hspan
  cases c with
  | marker count => cases hspan
  | constant x0 x1 mask =>
    have hplace : R.Place y b := (Nat.lt_or_eq_of_le hb).elim (hT.place b (Nat.zero_le b))
      fun heq => heq ▸ hlast
    obtain ⟨t, ht, hst⟩ := span?_lays (m := mask) hT hs (Nat.zero_le a) hab.le hb fun _ => hplace
    refine ⟨t, ht, hst.congr fun x _ => ?_⟩
    simp only [layers, covers_iff_of_clippedSpan? hspan, across]
    split_ifs <;> first | rfl | omega
  | varying x0 x1 data advance scaled =>
    obtain ⟨ms, hms⟩ := coverages?_of_hasRow hrow hspan alpha
    have hlength := length_coverages hms
    obtain ⟨t, ht, hst⟩ := varied?_lays ms hT hs (Nat.zero_le a) (by omega)
    rw [show a + ms.length = b by omega] at hst
    refine ⟨t, by rw [draw?, hms]; exact ht, hst.congr fun x _ => ?_⟩
    obtain rfl := clippedSpan?_fst rfl hspan
    simp only [layers, covers_iff_of_clippedSpan? hspan, along, coverage?]
    by_cases hlo : a ≤ x
    · by_cases hhi : x < b
      · rw [if_pos ⟨hlo, hhi⟩, if_pos hlo, getElem?_coverages halpha hms (by omega)]
      · rw [if_neg fun h => hhi h.2, if_pos hlo, List.getElem?_eq_none (by omega)]
        rfl
    · rw [if_neg fun h => hlo h.1, if_neg hlo]

/-- The layers of the spans of a group in its row `k`. -/
def rowLayers (width alpha k : Nat) (spans : List MaskCommand) (x : Nat) : List Nat :=
  spans.flatMap fun c => c.layers width alpha k x

/-- The spans of a row are laid one after the other. -/
theorem drawSpans?_lays {alpha k : Nat} (halpha : alpha ≤ 255) (spans : List MaskCommand)
    (hwidth : s.surface.width = width) (hT : s.surface.Track R c₀ image y 0 width)
    (hlast : R.Place y width) {at? : Option Int} (hs : Reaches R c₀ s.cursor y at?)
    (stand? : Option Nat) (hstand : ∀ x, stand? = some x → at? = some (x : Int))
    (hrow : ∀ c ∈ spans, hasRow width k c) :
    ∃ t at?', drawSpans? alpha k y s stand? spans = some t ∧
      Lays R c₀ image y (rowLayers width alpha k spans) at?' s t := by
  induction spans generalizing s at? stand? with
  | nil => exact ⟨s, at?, rfl, .refl image hs⟩
  | cons c rest ih =>
    have hrest : ∀ c ∈ rest, hasRow width k c := fun c' hc' => hrow c' (List.mem_cons_of_mem _ hc')
    rw [drawSpans?, hwidth]
    split
    · rename_i hspan
      obtain ⟨t, at?', ht, hst⟩ := ih hwidth hT hs stand? hstand hrest
      refine ⟨t, at?', ht, hst.congr fun x _ => ?_⟩
      rw [rowLayers, List.flatMap_cons, layers_eq_nil hspan, List.nil_append, rowLayers]
    · rename_i a b hspan
      obtain ⟨hab, hb⟩ := clippedSpan?_le hspan
      obtain ⟨t, ht, hst⟩ := moveTo?_lays hT hs hstand (hab.trans_le hb)
      have hT' := hT.of_shape hst.layered.shape
      obtain ⟨u, hu, htu⟩ :=
        draw?_lays halpha hT' hlast hst.cursor (hrow c List.mem_cons_self) hspan
      have hsu := hst.trans htu
      have hstand' : ∀ x, some b = some x → some (b : Int) = some (x : Int) := by
        rintro x ⟨⟩
        rfl
      obtain ⟨v, at?', hv, huv⟩ := ih (hsu.layered.shape.width.trans hwidth)
        (hT.of_shape hsu.layered.shape) htu.cursor (some b) hstand' hrest
      refine ⟨v, at?', ?_, (hsu.trans huv).congr fun x _ => ?_⟩
      · rw [ht, Option.bind_eq_bind, Option.bind_some, hu]
        exact hv
      · rw [rowLayers, List.flatMap_cons, List.nil_append, rowLayers]

end MaskCommand

namespace MaskFill
open MaskCommand

/-- The layers of rows that are drawn one below the other, from row `y0` on. -/
def planLayers (width alpha : Nat) (y0 : Int) : List (List MaskCommand × Nat) →
    Int → Nat → List Nat
  | [], _, _ => []
  | (spans, k) :: rest, y, x =>
    inRow y0 (rowLayers width alpha k spans) y x ++ planLayers width alpha (y0 + 1) rest y x

theorem planLayers_append (width alpha : Nat) (y0 : Int) (rows rest : List (List MaskCommand × Nat))
    (y : Int) (x : Nat) : planLayers width alpha y0 (rows ++ rest) y x =
      planLayers width alpha y0 rows y x ++
        planLayers width alpha (y0 + rows.length) rest y x := by
  induction rows generalizing y0 with
  | nil =>
    rw [List.nil_append, List.length_nil, Nat.cast_zero, Int.add_zero]
    rfl
  | cons row rows ih =>
    rw [List.cons_append, planLayers, planLayers, ih, List.length_cons, Nat.cast_succ,
      List.append_assoc, Int.add_assoc, Int.add_comm 1]

theorem planLayers_of_lt (width alpha : Nat) {y0 y : Int} (hy : y < y0)
    (rows : List (List MaskCommand × Nat)) (x : Nat) : planLayers width alpha y0 rows y x = [] := by
  induction rows generalizing y0 with
  | nil => rfl
  | cons row rows ih => rw [planLayers, ih (by omega), inRow, if_neg (by omega), List.append_nil]

/-- The layers in the `n`-th row from the first one on are those of the `n`-th row of the list. -/
theorem planLayers_eq (width alpha : Nat) (y0 : Int) (rows : List (List MaskCommand × Nat))
    (n x : Nat) : planLayers width alpha y0 rows (y0 + n) x =
      (rows[n]?.map fun row => rowLayers width alpha row.2 row.1 x).getD [] := by
  induction rows generalizing y0 n with
  | nil => rfl
  | cons row rows ih =>
    rw [planLayers]
    cases n with
    | zero =>
      rw [planLayers_of_lt width alpha (by omega), inRow, if_pos (by omega), List.append_nil]
      rfl
    | succ n =>
      have hrow : y0 + (n + 1 : Nat) = y0 + 1 + (n : Nat) := by omega
      rw [hrow, ih, inRow, if_neg (by omega), List.nil_append, List.getElem?_cons_succ]

/-- A fill whose rows lie on a surface of `width` columns, where a cursor yields an image. The rows
go from `y0` to `y1`. -/
structure Scene (R : Region) (c₀ : Cursor) (image : Int → Int → UInt32) (width : Nat)
    (y0 y1 : Int) (s : Surface) : Prop where
  width_eq : s.width = width
  track : ∀ y, y0 ≤ y → y < y1 → s.Track R c₀ image y 0 width
  last : ∀ y, y0 ≤ y → y < y1 → R.Place y width

theorem Scene.of_shape {R : Region} {c₀ : Cursor} {image : Int → Int → UInt32} {width : Nat}
    {y0 y1 : Int} {s t : Surface} (h : Scene R c₀ image width y0 y1 s) (hs : s.SameShape t) :
    Scene R c₀ image width y0 y1 t :=
  ⟨hs.width.trans h.width_eq, fun y hy hy' => (h.track y hy hy').of_shape hs, h.last⟩

theorem Scene.row {R : Region} {c₀ : Cursor} {image : Int → Int → UInt32} {width : Nat}
    {y0 y1 : Int} {s : Surface} (h : Scene R c₀ image width y0 y1 s) {y : Int} (hy : y0 ≤ y)
    (hy' : y < y1) : R.Row y :=
  R.row_of_place (h.last y hy hy')

variable {R : Region} {c₀ : Cursor} {image : Int → Int → UInt32} {width : Nat} {y0 stop y : Int}
  {s : Stroke}

/-- A group lays the rows of its plan, from row `y` on, and says how many rows are left. -/
theorem drawGroup?_finishes {alpha : Nat} (halpha : alpha ≤ 255) (spans : List MaskCommand)
    (limit : Option Nat) (k left : Nat) (hS : Scene R c₀ image width y0 stop s.surface)
    (hy : y0 ≤ y) (hstop : y + left = stop)
    (hs : R.Row y → ∃ at?, Reaches R c₀ s.cursor y at?) :
    ∃ t, drawGroup? alpha spans limit stop s k left =
        some (t, left - (groupPlan width spans limit k left).length) ∧
      (groupPlan width spans limit k left).length ≤ left ∧
      Finishes R c₀ image (y + (groupPlan width spans limit k left).length)
        (planLayers width alpha y (groupPlan width spans limit k left)) s t := by
  induction left generalizing s y k with
  | zero =>
    refine ⟨s, rfl, le_rfl, ?_⟩
    rw [groupPlan, List.length_nil, Nat.cast_zero, Int.add_zero]
    exact .refl image hs
  | succ left ih =>
    have hrow : stop - (left + 1 : Nat) = y := by omega
    rw [drawGroup?, groupPlan, hS.width_eq, hrow]
    split
    · rename_i hspans
      obtain ⟨at?, hat⟩ := hs (hS.row hy (by omega))
      obtain ⟨t, at?', ht, hst⟩ := drawSpans?_lays halpha spans hS.width_eq
        (hS.track y hy (by omega)) (hS.last y hy (by omega)) hat none
        (fun x hx => absurd hx (Option.some_ne_none x).symm)
        (List.all_eq_true.mp hspans)
      have hnext := hst.nextRow
      rw [ht, Option.bind_eq_bind, Option.bind_some]
      split
      · refine ⟨t.nextRow, rfl, Nat.succ_le_succ (Nat.zero_le left), hnext.congr fun z x _ => ?_⟩
        rw [planLayers, planLayers, List.append_nil]
      · obtain ⟨u, hu, hle, htu⟩ := ih (s := t.nextRow) (k + 1)
          (hS.of_shape hst.layered.shape) (show y0 ≤ y + 1 by omega) (by omega) hnext.cursor
        generalize groupPlan width spans limit (k + 1) left = own at *
        refine ⟨u, ?_, ?_, ?_⟩
        · rw [List.length_cons, Nat.succ_sub_succ]
          exact hu
        · rw [List.length_cons]
          exact Nat.succ_le_succ hle
        · rw [List.length_cons, show y + (own.length + 1 : Nat) = y + 1 + own.length by omega]
          exact (hnext.trans htu).congr fun _ _ _ => rfl
    · refine ⟨s, rfl, Nat.zero_le _, ?_⟩
      rw [List.length_nil, Nat.cast_zero, Int.add_zero]
      exact .refl image hs

/-- Groups lay the rows of their plan. -/
theorem drawGroups?_finishes {alpha : Nat} (halpha : alpha ≤ 255) (left : Nat)
    (groups : List (List MaskCommand × Nat)) (hS : Scene R c₀ image width y0 stop s.surface)
    (hy : y0 ≤ y) (hstop : y + left = stop)
    (hs : R.Row y → ∃ at?, Reaches R c₀ s.cursor y at?) :
    ∃ t y', drawGroups? alpha stop s left groups = some t ∧
      Finishes R c₀ image y' (planLayers width alpha y (plan width left groups)) s t := by
  induction groups generalizing s y left with
  | nil => exact ⟨s, y, rfl, .refl image hs⟩
  | cons group rest ih =>
    obtain ⟨spans, count⟩ := group
    obtain ⟨t, ht, hle, hst⟩ := drawGroup?_finishes halpha spans (limit? count) 0 left hS
      hy hstop hs
    rw [plan, drawGroups?, ht, Option.bind_eq_bind, Option.bind_some]
    generalize groupPlan width spans (limit? count) 0 left = own at *
    obtain ⟨u, y', hu, htu⟩ := ih (left - own.length) (hS.of_shape hst.layered.shape)
      (show y0 ≤ y + own.length by omega) (by omega) hst.cursor
    refine ⟨u, y', hu, (hst.trans htu).congr fun z x _ => ?_⟩
    rw [planLayers_append]

/-- Drawing a fill lays the rows of its plan. -/
theorem draw?_layered {m : MaskFill} {surface : Surface} (op : Operator) (halpha : m.alpha ≤ 255)
    (hrows : m.bounds.y0 ≤ m.bounds.y1)
    (hS : Scene R c₀ image surface.width m.bounds.y0 m.bounds.y1 surface) :
    ∃ t, m.draw? ⟨op, surface, c₀⟩ = some t ∧
      surface.Layered op image (planLayers surface.width m.alpha m.bounds.y0
        (plan surface.width (m.bounds.y1 - m.bounds.y0).toNat (groups m.commands))) t.surface := by
  obtain ⟨t, y', ht, hst⟩ := drawGroups?_finishes halpha (m.bounds.y1 - m.bounds.y0).toNat
    (groups m.commands) (s := Stroke.startRow ⟨op, surface, c₀⟩ m.bounds.y0) hS le_rfl (by omega)
    fun hrow => ⟨none, .startRow hrow⟩
  exact ⟨t, ht, hst.layered⟩

end MaskFill

end Scanline
