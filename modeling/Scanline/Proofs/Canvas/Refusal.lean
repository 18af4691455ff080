import Scanline.Proofs.Box.Clipping
import Scanline.Proofs.Canvas.Calls
import Scanline.Proofs.Pipeline.CleanFailure
import Scanline.Proofs.Render.Tiling

/-
  Images with a side that is not a signed word. The sides of an image are unsigned 32-bit words,
  but pipelines see them as signed ones, and a side of `2 ^ 31` or more is then less than zero: no
  bounds that are cut to the image lie inside of what is seen (`Image.Sized.not_holds`). Whatever
  has to be drawn on such an image is refused, band by band or as a whole, and the image stays as
  it is (`Canvas.perform_of_not_manages`). Calls that have nothing to draw end well.
-/

namespace Scanline

open Surface

/-! ## Refused runs -/

theorem Image.Sized.not_holds {i : Image} (hs : i.Sized) (hlong : ¬ i.HasWordSides) {b : Box}
    (hx : 0 ≤ b.x1) (hy : 0 ≤ b.y1) : ¬ i.surface.Holds b := by
  rintro ⟨-, hright, -, hlower⟩
  change b.x1 ≤ wrap32 i.width at hright
  change b.y1 ≤ 0 + wrap32 i.height at hlower
  exact hlong ⟨natCast_le_of_wrap32_nonneg hs.width (hx.trans hright),
    natCast_le_of_wrap32_nonneg hs.height (by omega)⟩

/-- A box of a constructor has a part in rows that it meets. -/
theorem Fill.Made.isSome_clipRows? {f : Fill} (hf : f.Made) {lo hi : Int}
    (hrows : (f.bounds.clipRows lo hi).y0 < (f.bounds.clipRows lo hi).y1) :
    (f.clipRows? lo hi).isSome := by
  cases f with
  | alignedBox b =>
    obtain ⟨alpha, bounds, h⟩ := hf
    obtain ⟨rfl, halpha, hx, -⟩ := AlignedBox.eq_of_ofBounds? h
    have hnonempty : (bounds.clipRows lo hi).isEmpty = false := by
      simp only [Box.isEmpty, Bool.or_eq_false_iff, decide_eq_false_iff_not, not_le]
      exact ⟨hx, hrows⟩
    change ((AlignedBox.ofBounds? (min alpha 255) (bounds.clipRows lo hi)).map _).isSome
    rw [AlignedBox.ofBounds?, if_neg (by simp [(AlignedBox.alpha_mem halpha).1, hnonempty])]
    rfl
  | fractionalBox b =>
    change (b.bounds.clipRows lo hi).y0 < (b.bounds.clipRows lo hi).y1 at hrows
    change ((b.clipRows? lo hi).map _).isSome
    rw [FractionalBox.clipRows?, if_neg (not_le.mpr hrows)]
    rfl
  | mask f => rfl
  | analytic f => rfl

/-- The part of a box in the image begins and ends where the image does. -/
theorem Box.clampTo_mem (b : Box) (w h : Nat) :
    0 ≤ (b.clampTo w h).x1 ∧ 0 ≤ (b.clampTo w h).y0 ∧ 0 ≤ (b.clampTo w h).y1 ∧
      (b.clampTo w h).y1 ≤ h := by
  have hmax : (0 : Int) ≤ maxInt32 := by decide
  have hw : (0 : Int) ≤ min (w : Int) maxInt32 := le_min (Int.natCast_nonneg _) hmax
  have hh : (0 : Int) ≤ min (h : Int) maxInt32 := le_min (Int.natCast_nonneg _) hmax
  exact ⟨(clampInt_mem hw _).1, (clampInt_mem hh _).1, (clampInt_mem hh _).1,
    (clampInt_mem hh _).2.trans (min_le_left _ _)⟩

namespace Canvas

/-- Bands that are drawn one after the other stay as they are if each of them does, and the first
one that is refused ends the run. -/
theorem performBands_refused {d : Dispatch} {origin : Int × Int} {fill : Fill} {fetch : Fetch}
    {e : Halt} {bands : List Surface}
    (hbands : ∀ b ∈ bands, performBand d origin fill fetch b = (b, .ok ()) ∨
      performBand d origin fill fetch b = (b, .error e))
    (hrefused : ∃ b ∈ bands, performBand d origin fill fetch b = (b, .error e)) :
    performBands d origin fill fetch bands = (bands, .error e) := by
  induction bands with
  | nil =>
    obtain ⟨b, hb, -⟩ := hrefused
    cases hb
  | cons b rest ih =>
    rw [performBands]
    obtain hok | herror := hbands b List.mem_cons_self
    · have hrest : ∃ b ∈ rest, performBand d origin fill fetch b = (b, .error e) := by
        obtain ⟨b', hb', herror⟩ := hrefused
        obtain rfl | hb' := List.mem_cons.mp hb'
        · rw [hok] at herror
          cases (Prod.mk.inj herror).2
        · exact ⟨b', hb', herror⟩
      rw [hok, ih (fun b hb => hbands b (List.mem_cons_of_mem _ hb)) hrest]
    · rw [herror]

/-- How a fill ends that has to be drawn on an image with a side that is not a word. The rows of
bands have to be counted before any of them is drawn. -/
def refusal (image : Image) (fill : Fill) (bandHeight : Nat) : Halt :=
  if isBanded fill bandHeight ∧ maxInt32 < image.height then .outOfRange
  else .refused .invalidBuffer

/-- The fill ends at the right and at the bottom behind the origin; a box was made by its
constructor, begins in a row of the image and ends in one as far as words count the rows. -/
structure CutTo (image : Image) (fill : Fill) : Prop where
  right : 0 ≤ fill.bounds.x1
  lower : 0 ≤ fill.bounds.y1
  box : fill.kind = .alignedBox ∨ fill.kind = .fractionalBox →
    fill.Made ∧ 0 ≤ fill.bounds.y0 ∧
      ((image.height : Int) ≤ maxInt32 → fill.bounds.y1 ≤ image.height)

variable {image : Image} {fill : Fill} {p : Pipeline} {origin : Int × Int} {fetch : Fetch}

/-- Some band of the image has rows of a box. -/
theorem CutTo.exists_band (hcut : CutTo image fill)
    (hbox : fill.kind = .alignedBox ∨ fill.kind = .fractionalBox) (hwidth : 0 < image.width)
    (hheight : (image.height : Int) ≤ maxInt32) (n : Nat) :
    ∃ b ∈ image.surface.bands n, (fill.clipRows? b.top b.bottom).isSome := by
  obtain ⟨hmade, htop, hbottom⟩ := hcut.box hbox
  have hrows := hmade.rows_lt hbox
  have hlower := hbottom hheight
  have hin : image.surface.Inside fill.bounds.y0 0 := by
    refine ⟨hwidth, htop, ?_⟩
    change fill.bounds.y0 < 0 + (image.height : Int)
    omega
  obtain ⟨i, hi, -, -, hlo, hhi⟩ := Surface.exists_band (show 0 < max n 1 by omega) hin
  refine ⟨_, List.mem_map.mpr ⟨i, List.mem_range.mpr hi, rfl⟩, hmade.isSome_clipRows? ?_⟩
  rw [bottom_eq (height_band_le (s := image.surface) hheight _ i)]
  unfold Box.clipRows
  dsimp only
  omega

/-- The bands of an image with too many columns are refused. -/
theorem performBands_of_long (hsized : image.Sized) (hlong : ¬ image.HasWordSides)
    (hheight : (image.height : Int) ≤ maxInt32) (hkind : fill.kind = p.fill)
    (haccepts : Pipeline.accepts p.dst image.format) (hcut : CutTo image fill)
    (hbox : fill.kind = .alignedBox ∨ fill.kind = .fractionalBox) (n : Nat) :
    performBands (.static p) origin fill fetch (image.surface.bands n) =
      (image.surface.bands n, .error (.refused .invalidBuffer)) := by
  have hwidth : ¬ (image.width : Int) ≤ maxInt32 := fun hw => hlong ⟨hw, hheight⟩
  have hpart {b : Surface} {part : Fill} (hb : b ∈ image.surface.bands n)
      (hpart : fill.clipRows? b.top b.bottom = some part) :
      performBand (.static p) origin fill fetch b = (b, .error (.refused .invalidBuffer)) := by
    obtain ⟨i, rfl, -⟩ := mem_bands hb
    obtain ⟨hbounds, hpartKind⟩ := Fill.bounds_clipRows? hpart hbox
    have hnot : ¬ (image.surface.band (max n 1) i).Holds part.bounds := by
      rintro ⟨-, hright, -⟩
      rw [hbounds] at hright
      change fill.bounds.x1 ≤ wrap32 image.width at hright
      exact hwidth (natCast_le_of_wrap32_nonneg hsized.width (hcut.right.trans hright))
    have hfits : p.Fits ⟨⟨image.surface.band (max n 1) i, origin⟩, part⟩ :=
      Dispatch.fits_of_accepts (hpartKind.trans hkind) haccepts
    rw [performBand, hpart]
    dsimp only
    rw [Dispatch.perform_static, Dispatch.drawJob_of_not_holds hfits hnot]
    rfl
  refine performBands_refused (fun b hb => ?_) ?_
  · cases hclip : fill.clipRows? b.top b.bottom with
    | none => exact .inl (by rw [performBand, hclip])
    | some part => exact .inr (hpart hb hclip)
  · have hpos : 0 < image.width := by
      unfold maxInt32 at hwidth
      omega
    obtain ⟨b, hb, hsome⟩ := hcut.exists_band hbox hpos hheight n
    obtain ⟨part, hclip⟩ := Option.isSome_iff_exists.mp hsome
    exact ⟨b, hb, hpart hb hclip⟩

/-- Painting on an image with a side that is not a word is refused and leaves it as it was. -/
theorem paint_of_long (hw : image.Whole) (hsized : image.Sized) (hlong : ¬ image.HasWordSides)
    (hkind : fill.kind = p.fill) (haccepts : Pipeline.accepts p.dst image.format)
    (hcut : CutTo image fill) (n : Nat) :
    paint (.static p) image origin fill fetch n =
      (image, fill, .error (refusal image fill n)) := by
  unfold paint refusal
  rw [hw.toSurface_eq hsized.size_lt]
  dsimp only
  by_cases hbanded : isBanded fill n = true
  · rw [if_pos hbanded]
    by_cases htall : maxInt32 < (image.height : Int)
    · rw [if_pos htall, if_pos ⟨hbanded, htall⟩]
    · rw [if_neg htall, if_neg fun h => htall h.2,
        performBands_of_long hsized hlong (not_lt.mp htall) hkind haccepts hcut
          (isBox_of_isBanded hbanded) n, join_bands]
      rfl
  · have hfits : p.Fits ⟨⟨image.surface, origin⟩, fill⟩ :=
      Dispatch.fits_of_accepts hkind haccepts
    have hnot := hsized.not_holds hlong hcut.right hcut.lower
    rw [if_neg hbanded, if_neg fun h => hbanded h.1, Dispatch.perform_static,
      Dispatch.drawJob_of_not_holds hfits hnot]
    rfl

/-! ## Calls that draw -/

/-- The fill that a call makes of its arguments, if it makes one. -/
def fill? (c : Canvas) : Call → Option Fill
  | .fillBox bounds => c.boxFill? bounds
  | .fillRect r => c.rectFill? r
  | .fillMask bounds commands => c.maskFill? bounds commands
  | .fillAnalytic f =>
    let bounds := f.bounds.clampTo c.image.width c.image.height
    if mul255 f.alpha c.alpha = 0 ∨ bounds.isEmpty then none
    else some (.analytic (dropRows f bounds (mul255 f.alpha c.alpha)))
  | .clear => c.clearFill?
  | _ => none

/-- The operator and the source that a call draws with. -/
def ink? (c : Canvas) : Call → Option (Operator × Prepared Fetch)
  | .clear => some (.clear, ⟨.solid 0, some .solid⟩)
  | _ => c.style.prepare?.map (c.op, ·)

/-- The call makes a fill that has to be drawn. -/
def Draws (c : Canvas) (call : Call) : Prop :=
  ∃ fill op source, c.fill? call = some fill ∧ c.ink? call = some (op, source) ∧
    ¬ c.IdleOn op source

/-- Words count the sides of the image, or else there is nothing to draw. -/
def Manages (c : Canvas) (call : Call) : Prop := c.image.HasWordSides ∨ ¬ c.Draws call

variable {c : Canvas} {call : Call}

theorem cutTo_of_rectFill? {r : Rect} (h : c.rectFill? r = some fill) : CutTo c.image fill := by
  obtain ⟨b, hb, rfl⟩ := Option.map_eq_some_iff.mp h
  obtain ⟨hx0, hx⟩ := FractionalBox.columns_of_ofFixed? hb
  obtain ⟨hy0, hx1, hy1⟩ := FractionalBox.bounds_of_ofFixed? hb
  have hmade : Fill.Made (.fractionalBox b) := ⟨_, _, _, _, _, hb⟩
  have hrows : b.bounds.y0 < b.bounds.y1 := hmade.rows_lt (.inr rfl)
  refine ⟨hx0.trans hx.le, hy0.trans hrows.le, fun _ => ⟨hmade, hy0, fun hheight => ?_⟩⟩
  have hlower := truncateToInt32_smallerDouble_le (r.ordered).y1 hheight
  change b.bounds.y1 ≤ c.image.height
  dsimp only at hy1
  omega

/-- A side that is no word counts as negative, and then there is nothing to clear. -/
theorem cutTo_of_clearFill? (h : c.clearFill? = some fill) : CutTo c.image fill := by
  obtain ⟨b, hb, rfl⟩ := clearFill?_eq_some h
  have hlower := wrap32_natCast_le c.image.height
  -- nothing is to be computed from the words of the sides
  generalize wrap32 c.image.width = right at hb
  generalize wrap32 c.image.height = lower at hb hlower
  obtain ⟨rfl, -, hx, hy⟩ := AlignedBox.eq_of_ofBounds? hb
  exact ⟨hx.le, hy.le, fun _ => ⟨⟨_, _, hb⟩, le_rfl, fun _ => hlower⟩⟩

/-- The fills that calls make are cut to the image. -/
theorem cutTo_of_fill? (h : c.fill? call = some fill) : CutTo c.image fill := by
  have hclamp (b : Box) := b.clampTo_mem c.image.width c.image.height
  cases call with
  | fillBox bounds =>
    obtain ⟨b, hb, rfl⟩ := Option.map_eq_some_iff.mp h
    have hbounds := AlignedBox.bounds_of_ofBounds? hb
    obtain ⟨hx1, hy0, hy1, hle⟩ := hclamp bounds
    rw [← hbounds] at hx1 hy0 hy1 hle
    exact ⟨hx1, hy1, fun _ => ⟨⟨_, _, hb⟩, hy0, fun _ => hle⟩⟩
  | fillRect r => exact cutTo_of_rectFill? h
  | fillMask bounds commands =>
    obtain ⟨m, hm, rfl⟩ := Option.map_eq_some_iff.mp h
    have hbounds := MaskFill.bounds_of_ofCommands? hm
    obtain ⟨hx1, -, hy1, -⟩ := hclamp bounds
    rw [← hbounds] at hx1 hy1
    exact ⟨hx1, hy1, fun hbox => nomatch hbox⟩
  | fillAnalytic f =>
    obtain ⟨-, h⟩ := Option.ite_none_left_eq_some.mp h
    obtain rfl := Option.some.inj h
    obtain ⟨hx1, -, hy1, -⟩ := hclamp f.bounds
    exact ⟨hx1, hy1, fun hbox => nomatch hbox⟩
  | clear => exact cutTo_of_clearFill? h
  | setOperator _ | setCompose _ | setAlpha _ | setOrigin _ | setStyle _ | setColor _
  | setImage _ => cases h

/-- The buffers of an analytic fill of the call hold its rows. -/
def Call.Complete : Call → Prop
  | fillAnalytic f => f.Complete ∧ (f.bounds.height : Int) = f.bounds.y1 - f.bounds.y0
  | _ => True

/-- A call without a fill ends well. -/
theorem perform_of_no_fill (h : c.fill? call = none) : (c.perform call).2 = .ok () := by
  have hsome {fill : Option Fill} (h : fill = none) : (c.renderSome fill).2 = .ok () := by
    rw [h]
    rfl
  cases call with
  | fillBox bounds => exact hsome h
  | fillRect r => exact hsome h
  | fillMask bounds commands => exact hsome h
  | fillAnalytic f =>
    have hnone : mul255 f.alpha c.alpha = 0 ∨
        (f.bounds.clampTo c.image.width c.image.height).isEmpty = true := by
      by_contra hsome
      cases (if_neg hsome).symm.trans h
    change (c.fillAnalytic f).2.2 = _
    unfold fillAnalytic
    dsimp only
    rw [if_pos hnone]
  | clear =>
    have hnone : c.clearFill? = none := h
    have hclear : c.clear.2 = .ok () :=
      clear_cases (P := fun out => out.2 = .ok ()) (fun _ => rfl) fun fill hfill =>
        nomatch hnone.symm.trans hfill
    exact hclear
  | setOperator _ | setCompose _ | setAlpha _ | setOrigin _ | setStyle _ | setColor _
  | setImage _ => rfl

/-- A canvas and a result are those that drawing a fill leads to, as far as the image. -/
def EndsAs (c : Canvas) (op : Operator) (source : Prepared Fetch) (fill : Fill) (c' : Canvas)
    (result : Result) : Prop :=
  c'.image = (c.render op source fill).1.image ∧ result = (c.render op source fill).2.2

section
variable {op : Operator} {source : Prepared Fetch}

theorem renderStyle_eq_render (hink : c.style.prepare?.map (c.op, ·) = some (op, source))
    (fill : Fill) : c.renderStyle fill = c.render op source fill := by
  obtain ⟨_, hprepared, heq⟩ := Option.map_eq_some_iff.mp hink
  cases heq
  rw [renderStyle, hprepared]

theorem fillAnalytic_endsAs {f : AnalyticFill} (hf : (Call.fillAnalytic f).Complete)
    (hfill : c.fill? (.fillAnalytic f) = some fill)
    (hink : c.style.prepare?.map (c.op, ·) = some (op, source)) :
    c.EndsAs op source fill (c.fillAnalytic f).1 (c.fillAnalytic f).2.2 := by
  obtain ⟨hdrawn, hfill⟩ := Option.ite_none_left_eq_some.mp hfill
  obtain rfl := Option.some.inj hfill
  refine fillAnalytic_cases (fun hnone => absurd hnone hdrawn) (fun hbounds hreaches => ?_)
    fun _ _ => ?_
  · rw [reaches_clampTo hf.1 hf.2 hbounds] at hreaches
    cases hreaches
  · dsimp only
    rw [renderStyle_eq_render hink]
    exact ⟨rfl, rfl⟩

theorem clear_endsAs (hfill : c.clearFill? = some fill) :
    c.EndsAs .clear ⟨.solid 0, some .solid⟩ fill c.clear.1 c.clear.2 := by
  refine clear_cases (P := fun out => c.EndsAs .clear ⟨.solid 0, some .solid⟩ fill out.1 out.2)
    (fun hnone => ?_) fun fill' hfill' => ?_
  · cases hnone.symm.trans hfill
  · obtain rfl := Option.some.inj (hfill'.symm.trans hfill)
    exact ⟨rfl, rfl⟩

/-- A call with a fill ends as drawing the fill does, and leaves the image that drawing leaves. -/
theorem perform_of_fill (hcall : call.Complete) (hfill : c.fill? call = some fill)
    (hink : c.ink? call = some (op, source)) :
    c.EndsAs op source fill (c.perform call).1 (c.perform call).2 := by
  have hsome (hink : c.style.prepare?.map (c.op, ·) = some (op, source)) {fill? : Option Fill}
      (hfill : fill? = some fill) :
      c.EndsAs op source fill (c.renderSome fill?).1 (c.renderSome fill?).2 := by
    rw [hfill, renderSome, renderStyle_eq_render hink]
    exact ⟨rfl, rfl⟩
  cases call with
  | fillBox bounds => exact hsome hink hfill
  | fillRect r => exact hsome hink hfill
  | fillMask bounds commands => exact hsome hink hfill
  | fillAnalytic f => exact fillAnalytic_endsAs hcall hfill hink
  | clear =>
    cases Option.some.inj hink
    rw [show c.perform .clear = c.clear from rfl]
    exact clear_endsAs hfill
  | setOperator _ | setCompose _ | setAlpha _ | setOrigin _ | setStyle _ | setColor _
  | setImage _ => cases hfill

end

/-- A call that draws nothing ends well, if its source can be made ready. -/
theorem perform_of_not_draws (hcall : call.Complete) (hink : (c.ink? call).isSome)
    (h : ¬ c.Draws call) : (c.perform call).2 = .ok () := by
  cases hfill : c.fill? call with
  | none => exact perform_of_no_fill hfill
  | some fill =>
    obtain ⟨⟨op, source⟩, hink⟩ := Option.isSome_iff_exists.mp hink
    have hidle : c.IdleOn op source :=
      not_not.mp fun hidle => h ⟨fill, op, source, hfill, hink, hidle⟩
    rw [(perform_of_fill hcall hfill hink).2, hidle.render fill]

/-- On an image with a side that is not a word everything that has to be drawn is refused, and the
image stays as it is. -/
theorem perform_of_not_manages (h : ¬ c.Manages call) (hcall : call.Complete)
    (hown : c.provider.primary = none) (hcache : c.cache.Faithful) (hw : c.image.Whole)
    (hsized : c.image.Sized) :
    (c.perform call).1.image = c.image ∧
      ∃ fill, c.fill? call = some fill ∧
        (c.perform call).2 = .error (refusal c.image fill c.bandHeight) := by
  obtain ⟨hlong, hdraws⟩ := not_or.mp h
  obtain ⟨fill, op, source, hfill, hink, hidle⟩ := not_not.mp hdraws
  obtain ⟨p, fetch, cache, asked, -, hkind, haccepts, -, -, hrender⟩ :=
    render_eq_paint hown hcache hw.drawable hidle fill
  obtain ⟨himage, hresult⟩ := perform_of_fill hcall hfill hink
  rw [hrender, paint_of_long hw hsized hlong hkind.symm haccepts (cutTo_of_fill? hfill)]
    at himage hresult
  exact ⟨himage, fill, hfill, hresult⟩

end Canvas

end Scanline
