import Scanline.Proofs.Fetch.Exact
import Scanline.Proofs.Mask.Rows

/-
  What a mask fill draws, by the grammar of its commands alone. `MaskFill.draw?_eq_grammar`: the
  rows of the bounds are paired with the rows that the groups offer, and in a paired row the spans
  of the group are drawn in order, each over its columns with its own coverage (`shade?`).
-/

namespace Scanline

open Surface

namespace MaskCommand

/-- A pixel of column `x` after a command in row `k` of its group: drawn with the coverage of the
command where the command covers the column, if its data has that coverage. -/
def shade? (op : Operator) (f : PixelFormat) (width alpha k x : Nat) (src dst : UInt32)
    (c : MaskCommand) : Option UInt32 :=
  if c.Covers width x then (c.coverage? alpha k x).map (op.drawn f dst src) else some dst

variable {op : Operator} {f : PixelFormat} {width alpha k x : Nat} {src dst : UInt32}

theorem stored_foldl_drawn (ms : List Nat) (h : f.stored dst = dst) :
    f.stored (ms.foldl (op.drawn f · src ·) dst) = ms.foldl (op.drawn f · src ·) dst := by
  induction ms generalizing dst with
  | nil => exact h
  | cons m ms ih => exact ih (Operator.stored_drawn dst m)

/-- A command with enough data has a coverage where it covers a column. -/
theorem HasBytes.exists_coverage? {c : MaskCommand} (h : c.HasBytes width k)
    (hx : c.Covers width x) (alpha : Nat) : ∃ m, c.coverage? alpha k x = some m := by
  obtain ⟨x0, x1, hspan, hlo, hhi⟩ := hx
  cases c with
  | marker count => cases hspan
  | constant a b mask => exact ⟨mask, rfl⟩
  | varying a b data advance scaled =>
    cases hspan
    have hsize := h (hlo.trans_lt hhi)
    exact ⟨_, congrArg (Option.map _) (Array.getElem?_eq_getElem (show _ < data.size by omega))⟩

/-- The layers of a command are its coverage, unless that is zero and changes nothing. -/
theorem shade?_eq_foldl {c : MaskCommand} (h : c.HasBytes width k) (hdst : f.stored dst = dst) :
    shade? op f width alpha k x src dst c =
      some ((c.layers width alpha k x).foldl (op.drawn f · src ·) dst) := by
  unfold shade? layers
  by_cases hx : c.Covers width x
  · obtain ⟨m, hm⟩ := h.exists_coverage? hx alpha
    rw [if_pos hx, if_pos hx, hm]
    cases c with
    | marker count => cases hm
    | constant a b mask =>
      obtain rfl := Option.some.inj hm
      dsimp only
      split
      · rename_i hzero
        rw [hzero, Option.map_some, Operator.drawn_zero, hdst, List.foldl_nil]
      · rfl
    | varying a b data advance scaled => rfl
  · rw [if_neg hx, if_neg hx, List.foldl_nil]

/-- The layers of a row are its spans, drawn one after the other. -/
theorem foldlM_shade?_eq {spans : List MaskCommand} (h : ∀ c ∈ spans, c.HasBytes width k)
    (hdst : f.stored dst = dst) :
    spans.foldlM (shade? op f width alpha k x src) dst =
      some ((rowLayers width alpha k spans x).foldl (op.drawn f · src ·) dst) := by
  induction spans generalizing dst with
  | nil => rfl
  | cons c rest ih =>
    rw [List.foldlM_cons, shade?_eq_foldl (h c List.mem_cons_self) hdst, rowLayers,
      List.flatMap_cons, List.foldl_append]
    exact ih (fun c' hc' => h c' (List.mem_cons_of_mem _ hc')) (stored_foldl_drawn _ hdst)

theorem Offered.hasBytes {gs : List (List MaskCommand × Nat)} {n : Nat} {spans : List MaskCommand}
    (h : Offered width gs n spans k) : ∀ c ∈ spans, c.HasBytes width k := by
  induction h with
  | own h => exact (h _ le_rfl).2
  | later _ _ _ ih => exact ih

theorem covers_of_rowLayers_ne_nil {spans : List MaskCommand}
    (h : rowLayers width alpha k spans x ≠ []) : ∃ c ∈ spans, c.Covers width x := by
  obtain ⟨m, hm⟩ := List.exists_mem_of_ne_nil _ h
  obtain ⟨c, hc, hm⟩ := List.mem_flatMap.mp hm
  refine ⟨c, hc, by_contra fun hx => ?_⟩
  unfold layers at hm
  rw [if_neg hx] at hm
  cases hm

end MaskCommand

namespace MaskFill
open MaskCommand

/-- Where a plan has layers, a span of the row covers the column. -/
theorem exists_of_planLayers_ne_nil {width alpha : Nat} {y0 y : Int} {x : Nat}
    {rows : List (List MaskCommand × Nat)} (h : planLayers width alpha y0 rows y x ≠ []) :
    ∃ (n : Nat) (spans : List MaskCommand) (k : Nat), y = y0 + n ∧ rows[n]? = some (spans, k) ∧
      ∃ c ∈ spans, c.Covers width x := by
  by_cases hy : y < y0
  · exact absurd (planLayers_of_lt width alpha hy rows x) h
  · obtain ⟨n, hn⟩ := Int.eq_ofNat_of_zero_le (show 0 ≤ y - y0 by omega)
    obtain rfl : y = y0 + n := by omega
    rw [planLayers_eq] at h
    cases hrow : rows[n]? with
    | none =>
      rw [hrow] at h
      exact absurd rfl h
    | some row =>
      rw [hrow] at h
      exact ⟨n, row.1, row.2, rfl, hrow, covers_of_rowLayers_ne_nil h⟩

/-- Bounds that the surface holds, with an exact fetch, are rows where a fill can be drawn. -/
theorem scene_of_holds {surface : Surface} (hv : surface.Valid) {bounds : Box}
    (hin : surface.Holds bounds) (hrows : bounds.y0 ≤ bounds.y1) {R : Cursor.Region} {c₀ : Cursor}
    {image : Int → Int → UInt32} (hY : Cursor.Yields R c₀ image)
    (hplace : ∀ y x : Int, bounds.y0 ≤ y → y < bounds.y1 → 0 ≤ x → x ≤ surface.width →
      R.Place y x) : Scene R c₀ image surface.width bounds.y0 bounds.y1 surface := by
  obtain ⟨-, htop, hbottom⟩ := hin.rows hrows
  refine ⟨rfl, fun y hy hy' => ⟨hY, hv, fun x _ hx => ⟨hx, by omega, by omega⟩, fun x _ hx => ?_⟩,
    fun y hy hy' => hplace y _ hy hy' (Int.natCast_nonneg _) le_rfl⟩
  exact hplace y x hy hy' (by omega) (by omega)

/-- Mask commands are drawn as their grammar says. The groups of the grammar are determined by the
commands. Row `n` of the bounds is drawn by the spans of the `n`-th row that the groups offer, in
order, each pixel with the source pixel of its row and column; no span needs a byte that its data
does not have. Bytes of pixels that are not covered by a span of their row are kept. -/
theorem draw?_eq_grammar {m : MaskFill} (halpha : m.alpha ≤ 255)
    (hrows : m.bounds.y0 < m.bounds.y1) {surface : Surface} (hv : surface.Valid)
    (hin : surface.Holds m.bounds) (op : Operator) {fetch : Fetch} {kind : FetchKind}
    {origin : Int × Int}
    (hfetch : fetch.Exact kind origin m.bounds.y0 m.bounds.y1 0 surface.width) :
    ∃ c₀ t gs, Cursor.ofFetch? kind fetch origin = some c₀ ∧
      m.draw? ⟨op, surface, c₀⟩ = some t ∧ surface.SameShape t.surface ∧
      (∀ gs', Grouped m.commands gs' ↔ gs' = gs) ∧
      (∀ (n : Nat) (spans : List MaskCommand) (k : Nat), m.bounds.y0 + n < m.bounds.y1 →
        Offered surface.width gs n spans k → ∀ x : Nat, x < surface.width →
          ∃ src dst d, c₀.pixelAt? (m.bounds.y0 + n) x = some src ∧
            surface.pixel? x (m.bounds.y0 + n) = some dst ∧
            spans.foldlM (shade? op surface.format surface.width m.alpha k x src) dst = some d ∧
            t.surface.pixel? x (m.bounds.y0 + n) = some d) ∧
      ∀ i, (∀ (n : Nat) (spans : List MaskCommand) (k : Nat) (x : Nat),
          m.bounds.y0 + n < m.bounds.y1 → Offered surface.width gs n spans k →
          (∃ c ∈ spans, c.Covers surface.width x) →
          ¬ surface.PixelByte (m.bounds.y0 + n) x i) →
        t.surface.bytes[i]? = surface.bytes[i]? := by
  obtain ⟨c₀, image, hc₀, hY, himage, hplace⟩ := hfetch.exists_cursor
  obtain ⟨-, htop, hbottom⟩ := hin.rows hrows.le
  have hS := scene_of_holds hv hin hrows.le hY hplace
  obtain ⟨t, ht, hlayered⟩ := draw?_layered op halpha hrows.le hS
  refine ⟨c₀, t, groups m.commands, hc₀, ht, hlayered.shape, fun gs' => grouped_iff, ?_, ?_⟩
  · intro n spans k hn hoffered x hx
    have hinside : surface.Inside (m.bounds.y0 + n) x := ⟨hx, by omega, by omega⟩
    obtain ⟨dst, hdst⟩ := hv.isSome_pixel? hinside
    have hpixel := hlayered.pixel?_eq hinside
    rw [planLayers_eq, (getElem?_plan _ n _ k).mpr ⟨by omega, hoffered⟩, hdst] at hpixel
    have hstored : surface.format.stored dst = dst := by
      rw [pixel?, if_pos hx] at hdst
      exact stored_of_readTarget? hdst
    exact ⟨_, dst, _, himage _ _, hdst, foldlM_shade?_eq hoffered.hasBytes hstored, hpixel⟩
  · intro i hi
    refine hlayered.getElem?_of_nil hv fun y x _ hb => by_contra fun hne => ?_
    obtain ⟨n, spans, k, rfl, hrow, hcovers⟩ := exists_of_planLayers_ne_nil hne
    obtain ⟨hn, hoffered⟩ := (getElem?_plan _ n _ k).mp hrow
    exact hi n spans k x (by omega) hoffered hcovers hb

/-- A group that may go on forever ends with its data, and the next one, whose second span runs
backwards and covers nothing, draws the row after it. The last row is kept. -/
theorem draw?_eq_grammar_short_data :
    ∃ c₀ t, Cursor.ofFetch? .solid (.solid 0xFF112233) (0, 0) = some c₀ ∧
      MaskFill.draw? ⟨⟨0, 0, 2, 3⟩, 128,
          [.varying 0 2 #[200, 100] 2 false, .forever, .constant 1 2 30, .constant 0 1 0]⟩
        ⟨.srcCopy, ⟨Array.replicate 6 7, 2, 2, 3, .a8, 0⟩, c₀⟩ = some t ∧
      t.surface.pixel? 0 0 = some (ofAlpha 104) ∧ t.surface.pixel? 1 1 = some (ofAlpha 36) ∧
      t.surface.bytes[4]? = some 7 := by
  have hv : Surface.Valid ⟨Array.replicate 6 7, 2, 2, 3, .a8, 0⟩ :=
    ⟨rfl, by decide, fun _ => by decide⟩
  obtain ⟨c₀, t, gs, hc₀, ht, -, hgs, hpixel, hkept⟩ := draw?_eq_grammar
    (m := ⟨⟨0, 0, 2, 3⟩, 128,
      [.varying 0 2 #[200, 100] 2 false, .forever, .constant 1 2 30, .constant 0 1 0]⟩)
    (by decide) (by decide) hv (by decide) .srcCopy
    (Fetch.exact_solid 0xFF112233 (0, 0) 0 3 0 2)
  obtain rfl := Option.some.inj hc₀
  obtain rfl := (hgs _).mp (grouped_groups _)
  refine ⟨_, t, rfl, ht, ?_, ?_, ?_⟩
  · obtain ⟨src, dst, d, hsrc, hdst, hd, hpixel⟩ := hpixel 0 _ 0 (by decide)
      (.own (by decide) : Offered 2 _ 0 [.varying 0 2 #[200, 100] 2 false] 0) 0 (by decide)
    cases hsrc
    obtain rfl : ofAlpha 7 = dst := Option.some.inj (by rw [← hdst]; decide)
    rw [← hd] at hpixel
    exact hpixel.trans (by decide)
  · obtain ⟨src, dst, d, hsrc, hdst, hd, hpixel⟩ := hpixel 1 _ 0 (by decide)
      (.later (n := 1) (i := 0) (by decide) (by decide) (.own (by decide)) :
        Offered 2 _ 1 [.constant 1 2 30, .constant 0 1 0] 0) 1 (by decide)
    cases hsrc
    obtain rfl : ofAlpha 7 = dst := Option.some.inj (by rw [← hdst]; decide)
    rw [← hd] at hpixel
    exact hpixel.trans (by decide)
  · refine (hkept 4 fun n spans k x hn hoffered hcovers hb => ?_).trans rfl
    -- the byte lies in row 2, which no group offers
    obtain ⟨c, -, x0, x1, -, -, hx⟩ := hcovers
    have hx : x < 2 := hx.trans_le (Nat.min_le_right x1 2)
    obtain ⟨hlo, hhi⟩ := hb
    change (0 + (n : Int) - 0).toNat * 2 + 1 * x ≤ 4 at hlo
    change 4 < (0 + (n : Int) - 0).toNat * 2 + 1 * x + 1 at hhi
    obtain rfl : n = 2 := by omega
    exact absurd ((getElem?_plan 3 2 _ k).mpr ⟨by decide, hoffered⟩) nofun

end MaskFill

end Scanline
