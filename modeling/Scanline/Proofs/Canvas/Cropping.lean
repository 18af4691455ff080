import Scanline.Proofs.Analytic.Extraction
import Scanline.Proofs.Canvas.EmptyPattern
import Scanline.Proofs.Canvas.Premultiplied
import Scanline.Proofs.Operator.SimplifySound

/-
  Cutting an analytic fill to the image is cropping it. Rows above and below the image are dropped
  with their buffers, and columns to the right are not drawn; what is left is painted with the sums
  of the cells of whole rows (`Paints.fillAnalytic_painted`). Hence every pixel in the image is what
  it would be if its row were filled alone, on an image that has room for all of it
  (`Canvas.fillAnalytic_eq_row`). All of this is as far as words count the sides of the image: where
  they do not, a fill that has to be drawn is refused.
-/

namespace Scanline

open Cursor Surface

/-! ## Pixels that are read back -/

/-- Two pixels in one format are read alike as sources where they are read alike as targets. -/
theorem readSource?_eq_iff {format : PixelFormat} (hf : format.isDrawable)
    {bytes bytes' : Array UInt8} {start start' x x' : Nat} :
    readSource? format bytes start x = readSource? format bytes' start' x' ↔
      readTarget? format bytes start x = readTarget? format bytes' start' x' := by
  cases format with
  | prgb32 | xrgb32 => exact Iff.rfl
  | a8 =>
    have hsource : Function.LeftInverse (fun p => UInt8.ofNat (alphaOf p))
        fun b => (Channels.splat b.toNat).pack := by
      intro b
      have hb : b.toNat ≤ 255 := Nat.le_of_lt_succ b.toNat_lt
      dsimp only
      rw [← unpack_a, unpack_pack hb hb hb hb]
      exact UInt8.ofNat_toNat
    have htarget : Function.LeftInverse (fun p => UInt8.ofNat (alphaOf p))
        fun b : UInt8 => ofAlpha b.toNat := by
      intro b
      dsimp only
      rw [alphaOf_ofAlpha b.toNat_lt]
      exact UInt8.ofNat_toNat
    exact (Option.map_injective hsource.injective).eq_iff.trans
      (Option.map_injective htarget.injective).eq_iff.symm
  | none | frgb32 | zero32 => cases hf

namespace Image

variable {i j : Image} {x x' y y' : Nat}

/-- The rows of the surface over an image are those of the image. -/
theorem lt_of_inside (h : i.surface.Inside y x) : x < i.width ∧ y < i.height := by
  obtain ⟨hx, -, hy⟩ := h
  change (y : Int) < 0 + i.height at hy
  exact ⟨hx, by omega⟩

/-- Two whole images in one format show the same pixels where drawing finds the same pixels. -/
theorem Whole.pixel?_eq_iff (hi : i.Whole) (hj : j.Whole) (hformat : j.format = i.format)
    (hin : i.surface.Inside y x) (hin' : j.surface.Inside y' x') :
    j.pixel? x' y' = i.pixel? x y ↔ j.surface.pixel? x' y' = i.surface.pixel? x y := by
  obtain ⟨hx, hy⟩ := lt_of_inside hin
  obtain ⟨hx', hy'⟩ := lt_of_inside hin'
  have hsource : i.pixel? x y = readSource? i.format i.bytes (y * i.stride) x :=
    (hi.pixel?_eq_asPattern hy).trans (if_pos hx)
  have hsource' : j.pixel? x' y' = readSource? i.format j.bytes (y' * j.stride) x' :=
    hformat ▸ (hj.pixel?_eq_asPattern hy').trans (if_pos hx')
  have htarget : i.surface.pixel? x y = readTarget? i.format i.bytes (y * i.stride) x :=
    if_pos hx
  have htarget' : j.surface.pixel? x' y' = readTarget? i.format j.bytes (y' * j.stride) x' :=
    hformat ▸ if_pos hx'
  rw [hsource, htarget, hsource', htarget']
  exact readSource?_eq_iff hi.drawable

theorem Whole.isSome_pixel? (hi : i.Whole) (hin : i.surface.Inside y x) :
    ∃ p, i.pixel? x y = some p := by
  obtain ⟨hx, hy⟩ := lt_of_inside hin
  obtain ⟨p, hp⟩ := Option.isSome_iff_exists.mp (hi.readable hx hy)
  exact ⟨p, (hi.pixel?_eq_asPattern hy).trans hp⟩

end Image

/-! ## Rows that are left -/

namespace Canvas

variable {c d : Canvas} {pixel : UInt32} {f : AnalyticFill}

theorem sameRow_dropRows (f : AnalyticFill) (b : Box) (alpha k : Nat) :
    f.SameRow ((b.y0 - f.bounds.y0).toNat + k) (dropRows f b alpha) k :=
  f.sameRow_extract _ k b alpha (Nat.min_le_right _ _) (Nat.min_le_right _ _)

/-- The rows that are left have the coverages that they had. -/
theorem coverages_dropRows {b : Box} {y : Int} (hb : f.bounds.y0 ≤ b.y0) (hy : b.y0 ≤ y)
    (alpha x : Nat) :
    (dropRows f b alpha).coverages y x = f.rule.coverage alpha
      (coverBias + (f.line (y - f.bounds.y0).toNat).sum f.cells (x + 1)) := by
  have hrow : (b.y0 - f.bounds.y0).toNat + (y - b.y0).toNat = (y - f.bounds.y0).toNat := by omega
  have hsum := (sameRow_dropRows f b alpha (y - b.y0).toNat).sum_eq (x + 1)
  rw [hrow] at hsum
  exact congrArg (fun n => f.rule.coverage alpha (coverBias + n)) hsum

/-! ## Solid styles -/

/-- The canvas draws with a solid style and ready-made pipelines, on a whole image of a size that
there can be. -/
structure Paints (c : Canvas) (pixel : UInt32) : Prop where
  own : c.provider.primary = none
  faithful : c.cache.Faithful
  image : c.image.Whole
  sized : c.image.Sized
  style : c.style = .solid pixel

/-- A canvas with ready-made pipelines is one after any calls, if its style is solid then. -/
theorem paints_run {image : Image} (hw : image.Whole) (hs : image.Sized) (fallback : Bool)
    (bandHeight : Nat) {calls : List Call} (hcalls : ∀ call ∈ calls, call.WellFormed)
    (hstyle : (run { image, provider := { fallback }, bandHeight } calls).style = .solid pixel) :
    (run { image, provider := { fallback }, bandHeight } calls).Paints pixel := by
  have hrun := meets_run hw hs fallback bandHeight hcalls
  exact ⟨hrun.own, hrun.faithful, hrun.image.whole, (anyTerms_holds_iff hrun.image.whole).mp
    hrun.image, hstyle⟩

/-- What the operator of the canvas comes down to under a solid pixel. -/
def simplified (c : Canvas) (pixel : UInt32) : Simplified :=
  c.op.simplify c.image.format (Fetch.solid pixel).format

/-- The coverages that an analytic fill is drawn with; there are none where drawing comes down to
nothing. -/
def shade (c : Canvas) (pixel : UInt32) (f : AnalyticFill) (y : Int) (x : Nat) : Nat :=
  if (c.simplified pixel).solid = .skip then 0
  else f.rule.coverage (mul255 f.alpha c.alpha)
    (coverBias + (f.line (y - f.bounds.y0).toNat).sum f.cells (x + 1))

end Canvas

/-! ## Cutting to the image -/

namespace Image

/-- The pixels of the image in the rows of a box and left of its right end. -/
def crop (i : Image) (b : Box) : Int → Nat → Prop :=
  block (max b.y0 0) (min b.y1 i.height) (min b.x1 i.width).toNat

variable {i : Image} {b : Box} {y : Int} {x : Nat}

theorem inside_of_crop (h : i.crop b y x) : i.surface.Inside y x := by
  unfold crop block at h
  refine ⟨?_, ?_, ?_⟩
  · change x < i.width
    omega
  · change 0 ≤ y
    omega
  · change y < 0 + i.height
    omega

/-- What is left of a box that is cut to the image has the pixels that lie in the image. -/
theorem block_clampTo_iff (hx1 : b.x1 ≤ maxInt32) (hy1 : b.y1 ≤ maxInt32)
    (hb : (b.clampTo i.width i.height).isEmpty = false) :
    i.crop b y x ↔ block (b.clampTo i.width i.height).y0 (b.clampTo i.width i.height).y1
      (AnalyticFill.rightEnd (b.clampTo i.width i.height)) y x := by
  obtain ⟨hlt, -, -, -⟩ := Box.clampTo_within hb
  unfold crop block AnalyticFill.rightEnd
  revert hlt
  unfold Box.clampTo clampInt
  dsimp only
  split_ifs <;> omega

/-- Where nothing is left of a box, all of the image in its rows lies left of it. -/
theorem le_of_crop (hx1 : b.x1 ≤ maxInt32) (hy1 : b.y1 ≤ maxInt32) (hx : b.x0 < b.x1)
    (hb : (b.clampTo i.width i.height).isEmpty = true) (h : i.crop b y x) :
    ((x + 1 : Nat) : Int) ≤ max b.x0 0 := by
  unfold crop block at h
  simp only [Box.isEmpty, Bool.or_eq_true, decide_eq_true_eq] at hb
  revert hb
  unfold Box.clampTo clampInt
  dsimp only
  split_ifs <;> omega

end Image

/-- A row of the fill in which the image has a pixel is among those of the fill. -/
theorem AnalyticFill.WellFormed.row_lt {f : AnalyticFill} (hf : f.WellFormed) {i : Image} {y : Int}
    {x : Nat} (h : i.crop f.bounds y x) : (y - f.bounds.y0).toNat < f.bounds.height := by
  have hheight := hf.height
  unfold Image.crop block at h
  omega

namespace Canvas

variable {c d : Canvas} {pixel : UInt32} {f : AnalyticFill}

/-- Where no pixel of the image has coverage, nothing has to be painted. -/
theorem painted_of_shade_eq_zero
    (hz : ∀ y x, c.image.crop f.bounds y x → c.shade pixel f y x = 0) :
    c.image.surface.Painted (c.simplified pixel).op (fun _ _ => (c.simplified pixel).source pixel)
      (c.shade pixel f) (c.image.crop f.bounds) c.image.surface :=
  Painted.zero _ _ Image.inside_of_crop fun {y x} hcrop => hz y x hcrop

namespace Paints

variable (h : c.Paints pixel)

include h in
theorem renderStyle_eq (fill : Fill) :
    c.renderStyle fill = c.render c.op ⟨.solid pixel, some .solid⟩ fill := by
  unfold renderStyle
  rw [h.style]
  rfl

include h in
/-- The canvas draws a fill unless the operator comes down to nothing, or no part of the fill is
left on the image. -/
theorem draws_iff : c.Draws (.fillAnalytic f) ↔ (c.simplified pixel).solid ≠ .skip ∧
    ¬ (mul255 f.alpha c.alpha = 0 ∨
      (f.bounds.clampTo c.image.width c.image.height).isEmpty = true) := by
  have hink : c.ink? (.fillAnalytic f) = some (c.op, ⟨.solid pixel, some .solid⟩) := by
    change c.style.prepare?.map (c.op, ·) = _
    rw [h.style]
    rfl
  constructor
  · rintro ⟨fill, op, source, hfill, hsource, hidle⟩
    cases hink.symm.trans hsource
    exact ⟨fun hskip => hidle (.inr hskip), (Option.ite_none_left_eq_some.mp hfill).1⟩
  · rintro ⟨hskip, hdrawn⟩
    exact ⟨_, _, _, if_neg hdrawn, hink, fun hidle => hskip (hidle.resolve_left nofun)⟩

include h in
/-- A fill that can be drawn on the image is drawn by a ready-made pipeline. -/
theorem renderStyle_analytic (hskip : (c.simplified pixel).solid ≠ .skip) {g left : AnalyticFill}
    (hin : c.image.surface.Holds g.bounds) {t : Stroke}
    (hdraw : g.draw? ⟨(c.simplified pixel).op, c.image.surface,
      .solid ((c.simplified pixel).source pixel)⟩ = some (left, t)) :
    ∃ c', c.renderStyle (.analytic g) = (c', .analytic left, .ok ()) ∧
      c'.image = c.image.withSurface t.surface := by
  have hidle : ¬ c.IdleOn c.op ⟨.solid pixel, some .solid⟩ := not_or.mpr ⟨nofun, hskip⟩
  obtain ⟨p, fetch, cache, asked, -, hkind, haccepts, hop, hsource, hrender⟩ :=
    render_eq_paint h.own h.faithful h.image.drawable hidle (.analytic g)
  -- what stands for a solid source is solid as well
  obtain ⟨rfl, hfetch⟩ : fetch = .solid ((c.simplified pixel).source pixel) ∧
      p.fetch = .solid := by
    unfold Simplified.source simplified
    cases hcolor : (c.op.simplify c.image.format (Fetch.solid pixel).format).solid.color? with
    | some color =>
      rw [hcolor] at hsource
      exact hsource
    | none =>
      rw [hcolor] at hsource
      exact ⟨hsource.1, (Option.some.inj hsource.2).symm⟩
  have hfill : (Fill.analytic g).draw? ⟨p.op, c.image.surface,
      .solid ((c.simplified pixel).source pixel)⟩ = some (.analytic left, t) := by
    change (g.draw? _).map _ = _
    rw [hop]
    exact congrArg _ hdraw
  have hcan : Dispatch.CanDraw p ⟨c.image.surface, c.origin⟩ (.analytic g)
      (.solid ((c.simplified pixel).source pixel)) :=
    ⟨hkind.symm, haccepts, hin, by rw [hfetch]; rfl⟩
  have hjob := Dispatch.drawJob_of_draw
    (Dispatch.draw_of_canDraw hcan (by rw [hfetch]; rfl) hfill)
  have hpaint : paint (.static p) c.image c.origin (.analytic g)
      (.solid ((c.simplified pixel).source pixel)) c.bandHeight =
        (c.image.withSurface t.surface, .analytic left, .ok ()) := by
    unfold paint
    rw [h.image.toSurface_eq h.sized.size_lt]
    dsimp only
    rw [if_neg (by simp [isBanded]), Dispatch.perform_static, hjob]
    rfl
  rw [h.renderStyle_eq, hrender, hpaint]
  exact ⟨_, rfl, rfl⟩

/-- Where nothing is left of the bounds, the image lies left of the cells. -/
theorem shade_eq_zero (hf : f.WellFormed)
    (hempty : (f.bounds.clampTo c.image.width c.image.height).isEmpty = true) {y : Int} {x : Nat}
    (hcrop : c.image.crop f.bounds y x) : c.shade pixel f y x = 0 := by
  unfold shade
  rw [(hf.rows _ (hf.row_lt hcrop)).sum_eq_zero
    (Image.le_of_crop hf.right hf.lower hf.columns hempty hcrop)]
  exact (ite_eq_left_iff.mpr fun _ => AnalyticFill.coverage_coverBias _ _)

include h in
/-- What is left of a fill is painted on the image. -/
theorem draw?_dropRows (hskip : (c.simplified pixel).solid ≠ .skip) (hf : f.WellFormed)
    (hsides : c.image.HasWordSides)
    (hbounds : (f.bounds.clampTo c.image.width c.image.height).isEmpty = false) :
    ∃ left t, (dropRows f (f.bounds.clampTo c.image.width c.image.height)
        (mul255 f.alpha c.alpha)).draw? ⟨(c.simplified pixel).op, c.image.surface,
          .solid ((c.simplified pixel).source pixel)⟩ = some (left, t) ∧
      c.image.surface.Painted (c.simplified pixel).op
        (fun _ _ => (c.simplified pixel).source pixel) (c.shade pixel f) (c.image.crop f.bounds)
        t.surface := by
  have hin := hsides.holds_clampTo f.bounds
  have hcrop := fun y x => Image.block_clampTo_iff (y := y) (x := x) hf.right hf.lower hbounds
  have hcomplete := complete_dropRows hf.complete hf.height hbounds (mul255 f.alpha c.alpha)
  obtain ⟨hlt, hy0, hy1, -⟩ := Box.clampTo_within hbounds
  generalize f.bounds.clampTo c.image.width c.image.height = b at *
  have hheight := hf.height
  obtain ⟨hleft, -⟩ := hin.rows hlt.le
  -- the rows that are left still have their cells behind the cut, and so close
  have hclosed : ∀ r, r < b.height → (dropRows f b (mul255 f.alpha c.alpha)).RowClosed r :=
    fun r hr => (sameRow_dropRows f b _ r).rowClosed (hf.rows _ (by omega)).toRowClosed
  obtain ⟨left, t, hdraw, hpainted⟩ := hcomplete.draw?_painted hclosed (c.simplified pixel).op
    h.image.valid hin ((c.simplified pixel).source pixel)
  refine ⟨left, t, hdraw, hpainted.congr hcrop fun y x hyx => ?_⟩
  rw [coverages_dropRows hy0 ((hcrop y x).mp hyx).1]
  exact if_neg hskip

include h in
/-- Filling paints the pixels of the image in the rows of the fill and left of its right end, with
the coverages of the cells of whole rows. -/
theorem fillAnalytic_painted (hf : f.WellFormed) (hmanages : c.Manages (.fillAnalytic f)) :
    (c.fillAnalytic f).2.2 = .ok () ∧ ∃ t, (c.fillAnalytic f).1.image = c.image.withSurface t ∧
      c.image.surface.Painted (c.simplified pixel).op
        (fun _ _ => (c.simplified pixel).source pixel) (c.shade pixel f) (c.image.crop f.bounds)
        t := by
  by_cases hskip : (c.simplified pixel).solid = .skip
  · have hidle : c.Idle := ⟨⟨.solid pixel, some .solid⟩, by rw [h.style]; rfl, .inr hskip⟩
    obtain ⟨hcanvas, hok⟩ := hidle.fillAnalytic hf.complete hf.height
    refine ⟨hok, c.image.surface, by rw [hcanvas]; rfl, painted_of_shade_eq_zero fun y x _ => ?_⟩
    exact if_pos hskip
  · refine fillAnalytic_cases (P := fun c' result => result = .ok () ∧
      ∃ t, c'.image = c.image.withSurface t ∧ c.image.surface.Painted (c.simplified pixel).op
        (fun _ _ => (c.simplified pixel).source pixel) (c.shade pixel f) (c.image.crop f.bounds) t)
      (fun hundrawn => ?_) (fun hbounds hreaches => ?_) fun halpha hbounds => ?_
    · refine ⟨rfl, c.image.surface, rfl, painted_of_shade_eq_zero fun y x hcrop => ?_⟩
      obtain halpha | hempty := hundrawn
      · rw [shade, if_neg hskip, halpha, FillRule.coverage, Nat.mul_zero, Nat.zero_div]
      · exact shade_eq_zero hf hempty hcrop
    · rw [reaches_clampTo hf.complete hf.height hbounds] at hreaches
      cases hreaches
    · have hdraws := h.draws_iff.mpr ⟨hskip, not_or.mpr ⟨halpha, by simp [hbounds]⟩⟩
      have hsides : c.image.HasWordSides := hmanages.resolve_right (not_not.mpr hdraws)
      obtain ⟨left, t, hdraw, hpainted⟩ := h.draw?_dropRows hskip hf hsides hbounds
      obtain ⟨c', hrender, himage⟩ :=
        h.renderStyle_analytic hskip (hsides.holds_clampTo f.bounds) hdraw
      dsimp only
      rw [hrender]
      exact ⟨rfl, t.surface, himage, hpainted⟩

include h in
/-- After filling the image is whole again, with the same sides; a pixel in the rows of the fill has
been drawn over by its coverage. -/
theorem image_fillAnalytic (hf : f.WellFormed) (hmanages : c.Manages (.fillAnalytic f)) :
    (c.fillAnalytic f).1.image.Whole ∧
      c.image.surface.SameShape (c.fillAnalytic f).1.image.surface ∧
      ∀ {y x : Nat}, c.image.crop f.bounds y x → ∀ q, c.image.surface.pixel? x y = some q →
        (c.fillAnalytic f).1.image.surface.pixel? x y =
          some ((c.simplified pixel).op.drawn c.image.format q
            ((c.simplified pixel).source pixel) (c.shade pixel f y x)) := by
  obtain ⟨-, t, himage, hpainted⟩ := h.fillAnalytic_painted hf hmanages
  rw [himage, Image.surface_withSurface hpainted.shape]
  exact ⟨h.image.withSurface hpainted.shape, hpainted.shape, fun hcrop q hq =>
    hpainted.drawn hcrop q hq⟩

end Paints

/-! ## Rows alone -/

/-- The canvas `d` has the settings of `c`, over an image of one row with at least `x1` columns. -/
structure OneRow (c : Canvas) (x1 : Int) (d : Canvas) : Prop where
  op : d.op = c.op
  alpha : d.alpha = c.alpha
  format : d.image.format = c.image.format
  height : d.image.height = 1
  width : x1 ≤ d.image.width

namespace OneRow

variable {g : AnalyticFill} {y x : Nat} (h : c.OneRow f.bounds.x1 d)

include h in
theorem simplified_eq (pixel : UInt32) : d.simplified pixel = c.simplified pixel := by
  unfold simplified
  rw [h.op, h.format]

include h in
/-- A row alone has the coverages that it has in its fill. -/
theorem shade_eq (hrow : f.IsRow (y - f.bounds.y0).toNat g) (x : Nat) :
    d.shade pixel g 0 x = c.shade pixel f y x := by
  have hsum := hrow.row.sum_eq (x + 1)
  unfold shade
  rw [h.simplified_eq, hrow.rule, hrow.alpha, h.alpha, hrow.bounds]
  exact congrArg _ (congrArg _ (congrArg _ hsum))

include h in
/-- A pixel of a fill becomes what it becomes when its row is filled alone. -/
theorem pixel?_eq (hc : c.Paints pixel) (hd : d.Paints pixel)
    (hc' : c.Manages (.fillAnalytic f)) (hd' : d.Manages (.fillAnalytic g)) (hf : f.WellFormed)
    (hcrop : c.image.crop f.bounds y x) (hg : g.WellFormed)
    (hrow : f.IsRow (y - f.bounds.y0).toNat g)
    (hpixel : d.image.pixel? x 0 = c.image.pixel? x y) :
    (d.fillAnalytic g).1.image.pixel? x 0 = (c.fillAnalytic f).1.image.pixel? x y := by
  have hcrop' : d.image.crop g.bounds (0 : Nat) x := by
    have hheight := h.height
    have hwidth := h.width
    rw [hrow.bounds]
    unfold Image.crop block at hcrop ⊢
    dsimp only
    omega
  have hin := Image.inside_of_crop hcrop
  have hin' := Image.inside_of_crop hcrop'
  obtain ⟨q, hq⟩ := hc.image.valid.isSome_pixel? hin
  have hq' := ((hc.image.pixel?_eq_iff hd.image h.format hin hin').mp hpixel).trans hq
  obtain ⟨hwhole, hshape, hdrawn⟩ := hc.image_fillAnalytic hf hc'
  obtain ⟨hwhole', hshape', hdrawn'⟩ := hd.image_fillAnalytic hg hd'
  have hformat : (d.fillAnalytic g).1.image.format = (c.fillAnalytic f).1.image.format :=
    hshape'.format.trans (h.format.trans hshape.format.symm)
  refine (hwhole.pixel?_eq_iff hwhole' hformat ((hshape.inside_iff y x).mpr hin)
    ((hshape'.inside_iff _ x).mpr hin')).mpr ?_
  have hshade : d.shade pixel g (0 : Nat) x = c.shade pixel f y x := h.shade_eq hrow x
  rw [hdrawn hcrop q hq, hdrawn' hcrop' q hq', h.simplified_eq, h.format, hshade]

end OneRow

/-- Filling crops the fill to the image. A pixel of the image that lies in the rows of the fill and
left of its right end is drawn over by the coverage that the cells of its row add up to. It becomes
what it would if this row were filled alone, in an image of one row with room for all of it and with
the same pixel there, under the same settings. Every byte that belongs to no such pixel is kept. -/
structure Crops (c : Canvas) (pixel : UInt32) (f : AnalyticFill) : Prop where
  ok : (c.fillAnalytic f).2.2 = .ok ()
  drawn : ∀ y x : Nat, c.image.crop f.bounds y x →
    ∃ q, c.image.surface.pixel? x y = some q ∧
      (c.fillAnalytic f).1.image.surface.pixel? x y =
        some ((c.simplified pixel).op.drawn c.image.format q ((c.simplified pixel).source pixel)
          (c.shade pixel f y x))
  alone : ∀ y x : Nat, c.image.crop f.bounds y x →
    ∃ g p, f.row? (y - f.bounds.y0).toNat = some g ∧
      (c.fillAnalytic f).1.image.pixel? x y = some p ∧
      ∀ d : Canvas, d.Paints pixel → d.Manages (.fillAnalytic g) → c.OneRow f.bounds.x1 d →
        d.image.pixel? x 0 = c.image.pixel? x y →
        (d.fillAnalytic g).2.2 = .ok () ∧ (d.fillAnalytic g).1.image.pixel? x 0 = some p
  shape : c.image.surface.SameShape (c.fillAnalytic f).1.image.surface
  kept : ∀ i : Nat, (∀ y x, c.image.crop f.bounds y x → ¬ c.image.surface.PixelByte y x i) →
    (c.fillAnalytic f).1.image.bytes[i]? = c.image.bytes[i]?

theorem Paints.crops (hc : c.Paints pixel) (hf : f.WellFormed)
    (hcounted : AnalyticFill.Counted f.bounds f.bitStride f.cellStride) (halpha : f.alpha ≤ 255)
    (hmanages : c.Manages (.fillAnalytic f)) : c.Crops pixel f := by
  obtain ⟨hok, t, himage, hpainted⟩ := hc.fillAnalytic_painted hf hmanages
  obtain ⟨hwhole, hshape, hdrawn⟩ := hc.image_fillAnalytic hf hmanages
  refine ⟨hok, fun y x hcrop => ?_, fun y x hcrop => ?_, hshape, fun i hi => ?_⟩
  · obtain ⟨q, hq⟩ := hc.image.valid.isSome_pixel? (Image.inside_of_crop hcrop)
    exact ⟨q, hq, hdrawn hcrop q hq⟩
  · have hright : 0 < f.bounds.x1 := by
      unfold Image.crop block at hcrop
      omega
    have hrow := hf.row_lt hcrop
    obtain ⟨g, hg, hgcomplete, hisRow⟩ := hf.complete.row?_eq hcounted halpha hrow
    have hgwell := hisRow.wellFormed hf hgcomplete hrow hright
    obtain ⟨p, hp⟩ :=
      hwhole.isSome_pixel? ((hshape.inside_iff y x).mpr (Image.inside_of_crop hcrop))
    refine ⟨g, p, hg, hp, fun d hd hd' hone hpixel => ?_⟩
    have heq := hone.pixel?_eq hc hd hmanages hd' hf hcrop hgwell hisRow hpixel
    exact ⟨(hd.fillAnalytic_painted hgwell hd').1, heq.trans hp⟩
  · rw [himage]
    exact hpainted.kept i hi

end Canvas

end Scanline
