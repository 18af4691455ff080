import Scanline.Proofs.Box.Clipping
import Scanline.Proofs.Canvas.Drawing
import Scanline.Proofs.Fetch.Exact
import Scanline.Proofs.Render.Tiling

/-
  Boxes that are drawn band by band. In each band the part of the box that lies there lays what the
  whole box lays in these rows (`drawBand_layered`). So the bands can be drawn one after the other
  in any order (`foldlM_drawBandAt_layered`), or apart from each other and put together afterwards
  (`drawBands_layered`), and the surface is that of a run that is not split.
  `Dispatch.run_eq_drawBands` says this of the bytes of the surface, and of the bands that they are
  tiles of it.
-/

namespace Scanline

open Cursor Surface

/-- A pipeline has a cursor for the fetch that yields an image in the bounds of a box. -/
structure BoxScene (p : Pipeline) (origin : Int × Int) (fetch : Fetch) (R : Region) (c₀ : Cursor)
    (image : Int → Int → UInt32) (fill : Fill) : Prop where
  boxed : fill.Boxed
  kind : fill.kind = p.fill
  cursor : Cursor.ofFetch? p.fetch fetch origin = some c₀
  yields : Yields R c₀ image
  place : ∀ y x, fill.bounds.y0 ≤ y → y < fill.bounds.y1 → fill.bounds.x0 ≤ x →
    x < fill.bounds.x1 → R.Place y x

/-- A surface that the pipeline accepts holds the bounds of the fill, and its rows are counted by a
word. -/
structure Surface.Takes (p : Pipeline) (fill : Fill) (s : Surface) : Prop where
  valid : s.Valid
  accepts : Pipeline.accepts p.dst s.format
  holds : s.Holds fill.bounds
  rows : (s.height : Int) ≤ maxInt32

variable {p : Pipeline} {origin : Int × Int} {fetch : Fetch} {R : Region} {c₀ : Cursor}
  {image : Int → Int → UInt32} {fill part : Fill} {s t : Surface} {lo hi : Int} {n i : Nat}

theorem Fill.Boxed.isBox (hf : fill.Boxed) :
    fill.kind = .alignedBox ∨ fill.kind = .fractionalBox := by
  cases fill with
  | alignedBox b => exact .inl rfl
  | fractionalBox b => exact .inr rfl
  | mask f => exact hf.elim
  | analytic f => exact hf.elim

/-- A part of the box lies in the bounds of the box. -/
theorem BoxScene.clip (h : BoxScene p origin fetch R c₀ image fill)
    (hpart : fill.clipRows? lo hi = some part) : BoxScene p origin fetch R c₀ image part := by
  obtain ⟨hbounds, hkind⟩ := Fill.bounds_clipRows? hpart h.boxed.isBox
  refine ⟨h.boxed.clipRows? hpart, hkind.trans h.kind, h.cursor, h.yields, ?_⟩
  rw [hbounds]
  exact fun y x hy hy' => h.place y x ((le_max_left _ _).trans hy) (hy'.trans_le (min_le_left _ _))

theorem Surface.Takes.of_shape (h : s.Takes p fill) (hs : s.SameShape t) : t.Takes p fill := by
  refine ⟨hs.valid h.valid, hs.format ▸ h.accepts, ?_, hs.height ▸ h.rows⟩
  have hholds := h.holds
  unfold Holds bottom at *
  rw [hs.width, hs.top, hs.height]
  exact hholds

/-- A band takes the part of the fill that lies in its rows. -/
theorem Surface.Takes.band (h : s.Takes p fill) (hbox : fill.kind = .alignedBox ∨
    fill.kind = .fractionalBox) (hn : 0 < n) (hi : i * n < s.height)
    (hpart : fill.clipRows? (s.band n i).top (s.band n i).bottom = some part) :
    (s.band n i).Takes p part := by
  obtain ⟨hbounds, -⟩ := Fill.bounds_clipRows? hpart hbox
  exact ⟨h.valid.band hn hi, h.accepts, Canvas.holds_band h.holds hbounds,
    height_band_le h.rows n i⟩

/-- A run over a surface that takes the box lays its layers and gives the box back. -/
theorem BoxScene.draw_layered (h : BoxScene p origin fetch R c₀ image fill) (hs : s.Takes p fill) :
    ∃ out, Dispatch.draw p ⟨s, origin⟩ fill fetch = .ok (out, fill) ∧
      s.Layered p.op image fill.boxLayers out := by
  obtain ⟨t, ht, hlayered⟩ := h.boxed.draw?_layered p.op hs.valid hs.holds h.yields h.place
  have hcan : Dispatch.CanDraw p ⟨s, origin⟩ fill fetch :=
    ⟨h.kind, hs.accepts, hs.holds, Option.isSome_iff_exists.mpr ⟨c₀, h.cursor⟩⟩
  exact ⟨t.surface, Dispatch.draw_of_canDraw hcan h.cursor ht, hlayered⟩

namespace Canvas

/-- In a band, the part of the box that lies there lays what the box lays in these rows. -/
theorem drawBand_layered (h : BoxScene p origin fetch R c₀ image fill) (hs : s.Takes p fill)
    (hn : 0 < n) (hi : i * n < s.height) :
    ∃ b, drawBand (.static p) origin fill fetch (s.band n i) = .ok b ∧
      (s.band n i).Layered p.op image fill.boxLayers b := by
  have hrows : ∀ y x, (s.band n i).Inside y x →
      (s.band n i).top ≤ y ∧ y < (s.band n i).bottom := fun y x hin =>
    ⟨hin.2.1, hin.2.2.trans_eq (bottom_eq (height_band_le hs.rows n i)).symm⟩
  unfold drawBand performBand
  cases hpart : fill.clipRows? _ _ with
  | none =>
    refine ⟨_, rfl, (Layered.refl p.op image _).congr fun y x hin => ?_⟩
    exact Fill.boxLayers_eq_nil h.boxed hpart (hrows y x hin).1 (hrows y x hin).2 x
  | some part =>
    obtain ⟨out, hout, hlayered⟩ :=
      (h.clip hpart).draw_layered (hs.band h.boxed.isBox hn hi hpart)
    refine ⟨out, ?_, hlayered.congr fun y x hin => ?_⟩
    · dsimp only
      rw [Dispatch.perform_static, Dispatch.drawJob_of_draw hout]
      rfl
    exact (Fill.boxLayers_clipRows? h.boxed hpart (hrows y x hin).1 (hrows y x hin).2 x).symm

/-- Draws the part of a fill that lies in the `i`-th band of `n` rows, and leaves the rest of the
surface as it is. -/
def drawBandAt (d : Dispatch) (origin : Int × Int) (fill : Fill) (fetch : Fetch) (n : Nat)
    (s : Surface) (i : Nat) : Except Halt Surface :=
  (drawBand d origin fill fetch (s.band (max n 1) i)).map (s.withBand n i)

/-- Bands can be drawn one after the other in any order. -/
theorem foldlM_drawBandAt_layered (h : BoxScene p origin fetch R c₀ image fill) (n : Nat)
    (order : List Nat) (hnodup : order.Nodup) (hs : s.Takes p fill)
    (horder : ∀ i ∈ order, i < s.bandCount (max n 1)) :
    ∃ t, order.foldlM (drawBandAt (.static p) origin fill fetch n) s = .ok t ∧
      s.Layered p.op image (s.inBands n order fill.boxLayers) t := by
  induction order generalizing s with
  | nil =>
    refine ⟨s, rfl, (Layered.refl p.op image s).congr fun y x _ => ?_⟩
    exact if_neg List.not_mem_nil
  | cons i rest ih =>
    obtain ⟨hnot, hrest⟩ := List.nodup_cons.mp hnodup
    have hn : 0 < max n 1 := by omega
    have hi := horder i List.mem_cons_self
    obtain ⟨b, hb, hband⟩ := drawBand_layered h hs hn (mul_lt_of_lt_bandCount hn hi)
    have hst := withBand_layered hs.valid hi hband
    obtain ⟨u, hu, htu⟩ := ih (s := s.withBand n i b) hrest (hs.of_shape hst.shape)
      fun j hj => horder j (List.mem_cons_of_mem i hj)
    refine ⟨u, ?_, (hst.trans htu).congr fun y x _ => ?_⟩
    · rw [List.foldlM_cons, drawBandAt, hb]
      exact hu
    · change (if s.bandOf n y ∈ i :: rest then _ else _) =
        (if s.bandOf n y ∈ [i] then _ else _) ++ if s.bandOf n y ∈ rest then _ else _
      simp only [List.mem_cons, List.not_mem_nil, or_false]
      by_cases heq : s.bandOf n y = i
      · rw [if_pos (.inl heq), if_pos heq, if_neg (heq ▸ hnot), List.append_nil]
      · rw [if_neg heq, List.nil_append]
        exact if_congr (or_iff_right heq) rfl rfl

/-- Bands can be drawn apart from each other and put together. -/
theorem drawBands_layered (h : BoxScene p origin fetch R c₀ image fill) (hs : s.Takes p fill)
    (n : Nat) : ∃ t, drawBands (.static p) ⟨s, origin⟩ fill fetch n = .ok t ∧
      s.Layered p.op image fill.boxLayers t := by
  have hdrawn : Ends False (List.Forall₂ (Layered p.op image fill.boxLayers) (s.bands n))
      ((s.bands n).mapM (drawBand (.static p) origin fill fetch)) := by
    refine Ends.mapM fun b hb => ?_
    obtain ⟨i, rfl, hi⟩ := mem_bands hb
    obtain ⟨b, hb, hband⟩ := drawBand_layered h hs (show 0 < max n 1 by omega) hi
    rw [hb]
    exact hband
  obtain ⟨bands, hbands, hlayered⟩ := hdrawn.exists_eq_ok
  have hredrawn : s.Redrawn n bands := hlayered.imp fun _ _ hband => hband.shape
  refine ⟨s.withBands n bands, ?_, hredrawn.layered hs.valid fun i b hi hb => ?_⟩
  · rw [drawBands_eq_mapM, hbands]
    rfl
  · obtain ⟨hlt, rfl⟩ := List.getElem?_eq_some_iff.mp hb
    have hband := hlayered.get (s.length_bands n ▸ hi) hlt
    rwa [List.get_eq_getElem, List.get_eq_getElem, getElem_bands] at hband

/-- In whatever order all bands are drawn, they make up the surface that is drawn by the layers of
the box. -/
theorem foldlM_drawBandAt_eq (h : BoxScene p origin fetch R c₀ image fill) (hs : s.Takes p fill)
    (hout : s.Layered p.op image fill.boxLayers t) (n : Nat) {order : List Nat}
    (horder : order.Perm (List.range (s.bands n).length)) :
    order.foldlM (drawBandAt (.static p) origin fill fetch n) s = .ok t := by
  have hmem (i : Nat) : i ∈ order ↔ i < s.bandCount (max n 1) := by
    rw [horder.mem_iff, List.mem_range, length_bands]
  obtain ⟨u, hu, hlayered⟩ := foldlM_drawBandAt_layered h n order
    (horder.nodup_iff.mpr List.nodup_range) hs fun i hi => (hmem i).mp hi
  rw [hu]
  refine congrArg Except.ok (hout.unique hs.valid (hlayered.congr fun y x hin => ?_))
  obtain ⟨i, hi, -, hband⟩ := exists_band (show 0 < max n 1 by omega) hin
  exact (if_pos ((hmem _).mpr (bandOf_eq hband ▸ hi))).symm

end Canvas

/-- A box of a constructor that is drawn band by band. The bands of a surface are tiles of it with
the bytes of their rows. Run over each of them with the part of the box that lies there, in any
order or apart from each other, the pipeline leaves the surface that one run leaves. -/
theorem Dispatch.run_eq_drawBands {signature : Signature} {d : Dispatch}
    (hd : Dispatch.ofSignature signature = .ok d) {bytes : Array UInt8} {stride width height : Nat}
    {format : PixelFormat} {surface : Surface}
    (hs : Surface.ofBytes bytes stride width height format = .ok surface)
    (hheight : height < 2 ^ 32) (haccepts : Pipeline.accepts d.pipeline.dst format)
    (hf : fill.Made) (hbox : fill.kind = .alignedBox ∨ fill.kind = .fractionalBox)
    (hkind : fill.kind = d.pipeline.fill) (hin : surface.Holds fill.bounds)
    (hfetch : fetch.Exact d.pipeline.fetch origin fill.bounds.y0 fill.bounds.y1 fill.bounds.x0
      (fill.bounds.x1 - 1)) (n : Nat) :
    (Tiles 0 height (surface.bands n) ∧ ∀ b ∈ surface.bands n,
      b.stride = stride ∧ b.width = width ∧ b.format = format ∧ b.height ≤ max n 1 ∧
        ∀ y j, b.top ≤ y → y < b.bottom → j < stride →
          b.bytes[b.rowStart y + j]? = bytes[y.toNat * stride + j]?) ∧
      ∃ out, d.run ⟨surface, origin⟩ fill fetch = .ok (out, fill) ∧
        Canvas.drawBands d ⟨surface, origin⟩ fill fetch n = .ok out ∧
        ∀ order : List Nat, order.Perm (List.range (surface.bands n).length) →
          order.foldlM (Canvas.drawBandAt d origin fill fetch n) surface = .ok out := by
  have hv := valid_ofBytes hs
  obtain rfl := eq_of_ofBytes hs
  obtain ⟨p, rfl⟩ : ∃ p, d = .static p := ⟨d.pipeline, (Dispatch.ofSignature_eq_ok hd).1⟩
  have hrows : (height : Int) ≤ maxInt32 := by
    have htop : 0 ≤ fill.bounds.y0 := hin.2.2.1
    have hbottom : fill.bounds.y1 ≤ 0 + wrap32 height := hin.2.2.2
    have hlt := hf.rows_lt hbox
    exact natCast_le_of_wrap32_nonneg hheight (by omega)
  obtain ⟨c₀, image, hc₀, hY, -, hplace⟩ := hfetch.exists_cursor
  have hscene : BoxScene p origin fetch c₀.region c₀ image fill :=
    ⟨hf.boxed hbox hin rfl, hkind, hc₀, hY, fun y x hy hy' hx hx' =>
      hplace y x hy hy' hx (Int.le_sub_one_of_lt hx')⟩
  have htakes : Takes p fill ⟨bytes, stride, width, height, format, 0⟩ :=
    ⟨hv, haccepts, hin, hrows⟩
  refine ⟨⟨?_, fun b hb => ?_⟩, ?_⟩
  · have htiles := tiles_bands htakes.rows n
    rwa [bottom_eq htakes.rows, Int.zero_add] at htiles
  · obtain ⟨i, rfl, hi⟩ := Canvas.mem_bands hb
    refine ⟨rfl, rfl, rfl, Nat.min_le_left _ _, fun y j hlo hhi hj => ?_⟩
    rw [bottom_eq (height_band_le htakes.rows _ i)] at hhi
    rw [getElem?_row_band hj hlo hhi, rowStart, Int.sub_zero]
  · obtain ⟨out, hrun, hout⟩ := hscene.draw_layered htakes
    obtain ⟨out', hbands, hout'⟩ := Canvas.drawBands_layered hscene htakes n
    obtain rfl := hout.unique hv hout'
    exact ⟨out', hrun, hbands, fun order horder =>
      Canvas.foldlM_drawBandAt_eq hscene htakes hout n horder⟩

/-- Five rows in bands of two, drawn from the last band to the first with a pattern that starts
again after two pixels. The box begins and ends within a row. -/
theorem Dispatch.run_eq_drawBands_tiled :
    ∃ d p surface b out,
      Dispatch.ofSignature (.ofParts .a8 .a8 .srcOver .fractionalBox .alignedRepeat) = .ok d ∧
      PatternFetch.atPixel? ⟨#[0, 64, 128, 255], 2, 2, 2, .a8⟩ (.both .tile) 1 (-1) = some p ∧
      Surface.ofBytes (.replicate 14 7) 3 2 5 .a8 = .ok surface ∧
      FractionalBox.ofFixed? 200 100 64 512 1200 = some b ∧
      d.run ⟨surface, (0, 0)⟩ (.fractionalBox b) (.pattern p.fetch) =
        .ok (out, .fractionalBox b) ∧
      [2, 1, 0].foldlM (Canvas.drawBandAt d (0, 0) (.fractionalBox b) (.pattern p.fetch) 2)
        surface = .ok out := by
  have hp : PatternFetch.atPixel? ⟨#[0, 64, 128, 255], 2, 2, 2, .a8⟩ (.both .tile) 1 (-1) =
      some ⟨⟨⟨#[0, 64, 128, 255], 2, 2, 2, .a8⟩,
        .placed { tx := 1, ty := 1, rx := 2, ry := 2, extendY := .tile }⟩,
        some .alignedRepeat⟩ := rfl
  have hb : FractionalBox.ofFixed? 200 100 64 512 1200 =
      some ⟨⟨0, 0, 2, 5⟩, [⟨91, 150, 150, 1⟩, ⟨121, 200, 200, 3⟩, ⟨83, 137, 137, 1⟩]⟩ := by decide
  have hf : Fill.Made (.fractionalBox ⟨⟨0, 0, 2, 5⟩,
      [⟨91, 150, 150, 1⟩, ⟨121, 200, 200, 3⟩, ⟨83, 137, 137, 1⟩]⟩) := ⟨200, 100, 64, 512, 1200, hb⟩
  have hplace : ∀ c₀, Cursor.ofFetch? .alignedRepeat (.pattern ⟨⟨#[0, 64, 128, 255], 2, 2, 2, .a8⟩,
      .placed { tx := 1, ty := 1, rx := 2, ry := 2, extendY := .tile }⟩) (0, 0) = some c₀ →
      ∀ y x, 0 ≤ y → y < 5 → 0 ≤ x → x ≤ 2 - 1 → c₀.region.Place y x := by
    intro c₀ hc₀ y x hy hy' hx hx'
    obtain rfl := Option.some.inj hc₀
    change (_ ≤ y + 1 ∧ y + 1 ≤ _) ∧ _ ≤ x + 1 ∧ x + 1 ≤ _
    unfold minInt32 maxInt32
    omega
  obtain ⟨-, out, hrun, -, horder⟩ := @Dispatch.run_eq_drawBands (0, 0) _ _
    (.ofParts .a8 .a8 .srcOver .fractionalBox .alignedRepeat) _ rfl (.replicate 14 7) 3 2 5 .a8 _
    rfl (by decide) rfl hf (.inr rfl) rfl (by decide)
    ⟨.atPixel hp rfl, ⟨by decide, by decide⟩, ⟨#[0, 64, 128, 255], 2, 2, 2, .a8, rfl⟩, hplace⟩ 2
  exact ⟨_, _, _, _, out, rfl, hp, rfl, hb, hrun, horder [2, 1, 0] (by decide)⟩

end Scanline
