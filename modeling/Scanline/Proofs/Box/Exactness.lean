import Scanline.Proofs.Box.Clipping
import Scanline.Proofs.Canvas.Drawing

/-
  Boxes are drawn pixel by pixel. Over each pixel of its bounds a box lays its coverage once, or
  nothing where it has no coverage, and over other pixels nothing (`Fill.Boxed.layersOnce`,
  `Fill.Boxed.boxLayers_outside`). Hence a run over a surface that holds the box combines every
  pixel of the bounds with its source pixel by the operator once, mixes in the old pixel by the
  coverage, and leaves every byte of other pixels and between rows (`Dispatch.run_box_exact`).
-/

namespace Scanline

open Cursor Surface

/-- Layers that amount to the coverage `m`: it is laid once, if at all. -/
def LayersOnce (m : Nat) (ms : List Nat) : Prop := ms = [m] ∨ m = 0 ∧ ms = []

/-- A pixel of the format is drawn with the coverage that its layers amount to. -/
theorem LayersOnce.foldl_drawn {m : Nat} {ms : List Nat} (h : LayersOnce m ms) (op : Operator)
    {f : PixelFormat} {dst : UInt32} (hdst : f.stored dst = dst) (src : UInt32) :
    ms.foldl (op.drawn f · src ·) dst = op.drawn f dst src m := by
  obtain rfl | ⟨rfl, rfl⟩ := h
  · rfl
  · rw [List.foldl_nil, Operator.drawn_zero, hdst]

theorem layersOnce_across {a b m x : Nat} (ha : a ≤ x) (hb : x < b) :
    LayersOnce m (across a b m x) := by
  unfold across
  by_cases hm : m = 0
  · exact .inr ⟨hm, if_neg fun h => h.2 hm⟩
  · exact .inl (if_pos ⟨⟨ha, hb⟩, hm⟩)

/-- In each of its columns a tier lays the coverage of the column. -/
theorem CoverageTier.layersOnce (t : CoverageTier) {x0 x1 x : Nat} (hlo : x0 ≤ x) (hhi : x < x1) :
    LayersOnce (t.coverage (x - x0) (x1 - x0)) (t.layers x0 x1 x) := by
  unfold coverage layers
  by_cases hfirst : x = x0
  · rw [if_pos hfirst, if_pos (by omega)]
    exact .inl rfl
  · rw [if_neg hfirst, if_neg (by omega)]
    by_cases hlast : x + 1 = x1
    · rw [if_pos hlast, if_pos (by omega)]
      exact .inl rfl
    · rw [if_neg hlast, if_neg (by omega)]
      exact layersOnce_across hlo hhi

namespace FractionalBox

/-- The coverage in a row is that of its tier. -/
theorem tierCoverage_eq_elim (y : Int) (i w : Nat) (row : Int) (tiers : List CoverageTier) :
    tierCoverage y i w row tiers = (tierAt? y row tiers).elim 0 (·.coverage i w) := by
  induction tiers generalizing row with
  | nil => rfl
  | cons t rest ih =>
    rw [tierCoverage, tierAt?]
    split
    · rfl
    · exact ih (t.stopAfter row)

variable {b : FractionalBox} {y : Int} {x : Nat}

theorem layersOnce (hb : b.Upright) (h : b.bounds.Contains x y) :
    LayersOnce (b.coverageAt x y) (b.layers y x) := by
  obtain ⟨h0, hlt, h1⟩ := hb
  have hwidth := Box.width_eq (b := b.bounds) hlt.le (by omega)
  have hcontains := h
  obtain ⟨hx, hx', hy, hy'⟩ := h
  unfold coverageAt layers tierLayers
  rw [if_pos hcontains, if_pos ⟨hy, hy'⟩, tierCoverage_eq_elim]
  cases tierAt? y b.bounds.y0 b.tiers with
  | none => exact .inr ⟨rfl, rfl⟩
  | some t =>
    have htier := @CoverageTier.layersOnce t b.bounds.x0.toNat b.bounds.x1.toNat x (by omega)
      (by omega)
    rwa [show x - b.bounds.x0.toNat = ((x : Int) - b.bounds.x0).toNat by omega,
      show b.bounds.x1.toNat - b.bounds.x0.toNat = b.bounds.width by omega] at htier

theorem layers_outside (hb : b.Upright) (h : ¬ b.bounds.Contains x y) : b.layers y x = [] := by
  obtain ⟨h0, hlt, -⟩ := hb
  unfold layers
  split
  · rename_i hrow
    have hcolumn : ¬ (b.bounds.x0 ≤ x ∧ x < b.bounds.x1) := fun hx => h ⟨hx.1, hx.2, hrow⟩
    unfold tierLayers
    cases tierAt? y b.bounds.y0 b.tiers with
    | none => rfl
    | some t =>
      change t.layers _ _ x = []
      unfold CoverageTier.layers across
      rw [if_neg (by omega), if_neg (by omega), if_neg (by omega)]
  · rfl

end FractionalBox

namespace Fill

/-- The coverage of a pixel by a box; this is not asked of other fills. -/
def boxCoverage : Fill → Int → Int → Nat
  | alignedBox b => fun _ _ => b.alpha
  | fractionalBox b => b.coverageAt
  | mask _ | analytic _ => fun _ _ => 0

variable {f : Fill} {y : Int} {x : Nat}

/-- A box lays its coverage over each pixel of its bounds, once if at all. -/
theorem Boxed.layersOnce (hf : f.Boxed) (h : f.bounds.Contains x y) :
    LayersOnce (f.boxCoverage x y) (f.boxLayers y x) := by
  cases f with
  | alignedBox b =>
    obtain ⟨hx, hx', hy⟩ : b.bounds.Contains x y := h
    change LayersOnce b.alpha (b.layers y x)
    unfold AlignedBox.layers inRows
    rw [if_pos hy]
    have h0 : 0 ≤ b.bounds.x0 := hf.2.1
    exact layersOnce_across (by omega) (by omega)
  | fractionalBox b => exact FractionalBox.layersOnce hf.1 h
  | mask m => exact hf.elim
  | analytic a => exact hf.elim

/-- A box lays nothing outside of its bounds. -/
theorem Boxed.boxLayers_outside (hf : f.Boxed) (h : ¬ f.bounds.Contains x y) :
    f.boxLayers y x = [] := by
  cases f with
  | alignedBox b =>
    change b.layers y x = []
    unfold AlignedBox.layers inRows across
    split
    · rename_i hrow
      have hcolumn : ¬ (b.bounds.x0 ≤ x ∧ x < b.bounds.x1) := fun hx => h ⟨hx.1, hx.2, hrow⟩
      have h0 : 0 ≤ b.bounds.x0 := hf.2.1
      exact if_neg (by omega)
    · rfl
  | fractionalBox b => exact FractionalBox.layers_outside hf.1 h
  | mask m => exact hf.elim
  | analytic a => exact hf.elim

end Fill

/-- A ready-made pipeline draws a box of a constructor over each of its pixels once: the pixel of
the source is combined with the old one, and the old one is mixed in by the coverage. The pipeline
may read its source in any way that ends at a pixel of one image in every place. All bytes but those
of the pixels of the bounds are kept. -/
theorem Dispatch.run_box_exact {signature : Signature} {d : Dispatch}
    (hd : Dispatch.ofSignature signature = .ok d) {bytes : Array UInt8} {stride width height : Nat}
    {format : PixelFormat} {surface : Surface}
    (hs : Surface.ofBytes bytes stride width height format = .ok surface)
    (haccepts : Pipeline.accepts d.pipeline.dst format) {fill : Fill} (hf : fill.Made)
    (hbox : fill.kind = .alignedBox ∨ fill.kind = .fractionalBox)
    (hkind : fill.kind = d.pipeline.fill) (hin : surface.Holds fill.bounds) {fetch : Fetch}
    {origin : Int × Int} {c₀ : Cursor}
    (hc₀ : Cursor.ofFetch? d.pipeline.fetch fetch origin = some c₀) {R : Region}
    {image : Int → Int → UInt32} (hY : Yields R c₀ image)
    (hplace : ∀ y x, fill.bounds.Contains x y → R.Place y x) :
    ∃ out, d.run ⟨surface, origin⟩ fill fetch = .ok (out, fill) ∧ surface.SameShape out ∧
      (∀ (y : Int) (x : Nat), fill.bounds.Contains x y → ∃ old, surface.pixel? x y = some old ∧
        out.pixel? x y = some (format.stored
          (applyMask (d.pipeline.op.combine format old (image y x)) old (fill.boxCoverage x y)))) ∧
      ∀ i, (∀ (y : Int) (x : Nat), fill.bounds.Contains x y → ¬ surface.PixelByte y x i) →
        out.bytes[i]? = bytes[i]? := by
  have hv := valid_ofBytes hs
  obtain rfl := eq_of_ofBytes hs
  have hboxed := hf.boxed hbox hin rfl
  have hrows := hin.rows (hf.rows_lt hbox).le
  have hcolumns := hin.columns
  obtain ⟨t, ht, hl⟩ := hboxed.draw?_layered d.pipeline.op hv hin hY
    fun y x hy hy' hx hx' => hplace y x ⟨hx, hx', hy, hy'⟩
  have hcan : CanDraw d.pipeline ⟨⟨bytes, stride, width, height, format, 0⟩, origin⟩ fill fetch :=
    ⟨hkind, haccepts, hin, by rw [hc₀]; rfl⟩
  refine ⟨t.surface, ?_, hl.shape, fun y x hx => ?_, fun i hi => ?_⟩
  · rw [(ofSignature_eq_ok hd).1, run_static]
    exact draw_of_canDraw hcan hc₀ ht
  · obtain ⟨hlo, hhi, hy, hy'⟩ := hx
    have hinside : Surface.Inside ⟨bytes, stride, width, height, format, 0⟩ y x :=
      ⟨by omega, by omega, by omega⟩
    obtain ⟨old, hold⟩ := hv.isSome_pixel? hinside
    refine ⟨old, hold, ?_⟩
    rw [hl.pixel?_eq hinside, hold, Option.map_some]
    rw [(hboxed.layersOnce ⟨hlo, hhi, hy, hy'⟩).foldl_drawn d.pipeline.op ?_]
    · rfl
    · rw [pixel?, if_pos hinside.1] at hold
      exact stored_of_readTarget? hold
  · refine hl.getElem?_of_nil hv fun y x _ hb => hboxed.boxLayers_outside fun hx => ?_
    exact hi y x hx hb

/-- A box that covers a part of the pixel in its corner, over rows that are padded by a byte. -/
theorem Dispatch.run_box_exact_padded :
    ∃ d surface b out,
      Dispatch.ofSignature (.ofParts .a8 .prgb32 .srcCopy .fractionalBox .solid) = .ok d ∧
      Surface.ofBytes (.replicate 14 7) 3 2 5 .a8 = .ok surface ∧
      FractionalBox.ofFixed? 200 100 64 512 1200 = some b ∧ b.coverageAt 0 0 = 91 ∧
      d.run ⟨surface, (0, 0)⟩ (.fractionalBox b) (.solid 0xFF112233) =
        .ok (out, .fractionalBox b) ∧
      out.pixel? 0 0 = some 0x60000000 ∧ out.bytes[2]? = some 7 := by
  have hb : FractionalBox.ofFixed? 200 100 64 512 1200 =
      some ⟨⟨0, 0, 2, 5⟩, [⟨91, 150, 150, 1⟩, ⟨121, 200, 200, 3⟩, ⟨83, 137, 137, 1⟩]⟩ := by decide
  have hf : Fill.Made (.fractionalBox ⟨⟨0, 0, 2, 5⟩,
      [⟨91, 150, 150, 1⟩, ⟨121, 200, 200, 3⟩, ⟨83, 137, 137, 1⟩]⟩) := ⟨200, 100, 64, 512, 1200, hb⟩
  obtain ⟨out, hrun, -, hpixel, hkept⟩ := @Dispatch.run_box_exact
    (.ofParts .a8 .prgb32 .srcCopy .fractionalBox .solid) _ rfl (.replicate 14 7) 3 2 5 .a8 _ rfl
    rfl _ hf (.inr rfl) rfl (by decide) (.solid 0xFF112233) (0, 0) _ rfl
    ⟨fun _ => True, fun _ _ => True, fun _ => trivial⟩ _ (yields_solid _ 0xFF112233)
    fun _ _ _ => trivial
  refine ⟨_, _, _, out, rfl, rfl, hb, by decide, hrun, ?_, hkept 2 ?_⟩
  · obtain ⟨old, hold, hnew⟩ := hpixel 0 0 (by decide)
    obtain rfl : 0x07000000 = old := Option.some.inj (by rw [← hold]; decide)
    exact hnew.trans (by decide)
  · rintro y x ⟨hx, hx', -⟩ ⟨hlo, hhi⟩
    change (y - 0).toNat * 3 + 1 * x ≤ 2 at hlo
    change 2 < (y - 0).toNat * 3 + 1 * x + 1 at hhi
    change (x : Int) < 2 at hx'
    omega

end Scanline
