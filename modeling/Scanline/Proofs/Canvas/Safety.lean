import Scanline.Proofs.Canvas.Refusal
import Scanline.Proofs.Fetch.Safety
import Scanline.Proofs.Pattern.Existence

/-
  Drawing ends well. A style whose coordinates are words is made into a source with a safe cursor
  (`safeTerms_accepts`). A canvas with ready-made pipelines therefore draws every fill with it, by
  any operator and after any calls, and is refused only where words do not count the sides of its
  image (`Canvas.perform_run_eq_ok_iff`). What is left out is what leaves the words: spans of
  patterns and their offset.
-/

namespace Scanline

/-- A pattern over an image has all of its pixels. -/
theorem Image.Whole.readable {i : Image} (h : i.Whole) : i.asPattern.Readable := by
  intro x y hx hy
  have hformat : i.format ≠ .none := by
    intro hnone
    have hdrawable := h.drawable
    rw [hnone] at hdrawable
    cases hdrawable
  refine PatternSource.isSome_pixel?_of_le hformat (fun hheight => ?_) hx hy
  exact h.valid.rows (Nat.pos_of_ne_zero hheight)

/-- The pixels of the style are there, and its coordinates do not leave the words. -/
def Style.Fits : Style → Prop
  | solid _ => True
  | pattern image extend _ transform =>
    image.Whole ∧ image.asPattern.SpansFit extend ∧ PatternFetch.OffsetFits transform
  | gradient table _ _ _ _ => ∃ stops n, table = .ofStops stops n

namespace Canvas

/-- The arguments of the call are as they were made: an image is whole and of a size that there can
be, command masks are at most 255, and an analytic fill has been given its buffers. -/
def Call.WellFormed : Call → Prop
  | setImage image => image.Whole ∧ image.Sized
  | fillMask _ commands => ∀ c ∈ commands, c.Capped
  | fillAnalytic f => (Fill.analytic f).Made ∧ FitsWord f.bounds.y0 ∧ FitsWord f.bounds.y1
  | setOperator _ | setCompose _ | setAlpha _ | setOrigin _ | setStyle _ | setColor _ | fillBox _
  | fillRect _ | clear => True

/-- Any pixels drawn to images of some shapes, with cursors of one sort. -/
def drawingTerms (halts : Prop) (cursor : Cursor → Prop) (shape : PixelFormat → Nat → Nat → Prop)
    (hkept : Cursor.Kept halts (fun _ => True) cursor) (hsolid : ∀ p, cursor (.solid p))
    (hsides : ¬ halts → ∀ {f : PixelFormat} {w h : Nat}, shape f w h →
      (w : Int) ≤ maxInt32 ∧ (h : Int) ≤ maxInt32) : Terms where
  halts := halts
  pixel _ := True
  cursor := cursor
  shape := shape
  op _ := True
  sides_le := hsides
  kept := hkept
  drawn _ _ _ _ _ := trivial
  clear := trivial
  substitute := fun {_ p} _ => hsolid p

/-- Drawing with any source to an image of any size that there can be, which may end early. -/
def anyTerms : Terms :=
  drawingTerms True (fun _ => True)
    (fun f w h => w < 0x100000000 ∧ h < 0x100000000 ∧
      (h * (w * f.bytesPerPixel) : Nat) ≤ maxInt64)
    Cursor.kept_true (fun _ => trivial) fun hhalts => absurd trivial hhalts

/-- Drawing with safe cursors to an image whose sides are words, which ends well. -/
def safeTerms : Terms :=
  drawingTerms False Cursor.Safe (fun _ w h => (w : Int) ≤ maxInt32 ∧ (h : Int) ≤ maxInt32)
    Cursor.kept_safe (fun _ => trivial) fun _ _ _ _ h => h

theorem anyTerms_holds_iff {image : Image} (hw : image.Whole) :
    anyTerms.Holds image ↔ image.Sized := by
  have hbytes : image.bytes.size = image.height * (image.width * image.format.bytesPerPixel) :=
    hw.size
  constructor
  · rintro ⟨-, ⟨hwidth, hheight, hsize⟩, -⟩
    exact ⟨hwidth, hheight, hbytes ▸ hsize⟩
  · rintro ⟨hwidth, hheight, hsize⟩
    exact ⟨hw, ⟨hwidth, hheight, hbytes ▸ hsize⟩, fun _ _ _ _ _ => trivial⟩

theorem anyTerms_accepts (style : Style) : anyTerms.Accepts style :=
  Lands.of_forall fun _ _ _ _ _ => .of_true _

/-- A style whose coordinates fit is made into a source with a safe cursor. -/
theorem safeTerms_accepts {style : Style} (h : style.Fits) : safeTerms.Accepts style := by
  cases style with
  | solid pixel =>
    intro kind origin hkind
    obtain rfl := Option.some.inj hkind
    exact trivial
  | pattern image extend quality transform =>
    obtain ⟨hwhole, hspans, hoffset⟩ := h
    obtain ⟨p, hp⟩ := Option.isSome_iff_exists.mp
      (PatternFetch.isSome_mapped? hspans hoffset quality)
    unfold Terms.Accepts Style.prepare?
    dsimp only
    rw [hp]
    intro kind origin hkind
    exact Fetch.opens_mapped hp hkind hspans hwhole.readable origin
  | gradient table geometry extend quality transform =>
    obtain ⟨stops, n, rfl⟩ := h
    intro kind origin hkind
    exact Fetch.opens_gradient stops n geometry extend quality transform hkind origin

/-- An analytic fill that has been given its buffers has all of its rows. -/
theorem complete_of_made {f : AnalyticFill} (hf : (Fill.analytic f).Made)
    (hy0 : FitsWord f.bounds.y0) (hy1 : FitsWord f.bounds.y1) :
    f.alpha ≤ 255 ∧ f.Complete ∧ (f.bounds.height : Int) = f.bounds.y1 - f.bounds.y0 := by
  obtain ⟨alpha, bounds, rule, bits, bitStride, cells, cellStride, hmade⟩ := hf
  have hcomplete := AnalyticFill.complete_of_ofBuffers? hmade
  have hrows : f.bounds.y0 < f.bounds.y1 := hcomplete.1
  refine ⟨?_, hcomplete, ?_⟩
  · obtain ⟨-, -, rfl⟩ := AnalyticFill.ofBuffers?_eq_some_iff.mp hmade
    exact Nat.min_le_right _ _
  · unfold FitsWord minInt32 maxInt32 at hy0 hy1
    unfold Box.height
    omega

theorem Call.WellFormed.allows {call : Call} (h : call.WellFormed) : anyTerms.Allows call := by
  cases call with
  | setImage image => exact (anyTerms_holds_iff h.1).mpr h.2
  | setStyle style => exact anyTerms_accepts style
  | setColor color => exact anyTerms_accepts _
  | fillMask bounds commands => exact h
  | fillAnalytic f =>
    exact ⟨(complete_of_made h.1 h.2.1 h.2.2).1, fun hhalts => absurd trivial hhalts⟩
  | setOperator _ | setCompose _ | setAlpha _ | setOrigin _ | fillBox _ | fillRect _ | clear =>
    trivial

theorem Call.WellFormed.complete {call : Call} (h : call.WellFormed) : call.Complete := by
  cases call with
  | fillAnalytic f => exact (complete_of_made h.1 h.2.1 h.2.2).2
  | setOperator _ | setCompose _ | setAlpha _ | setOrigin _ | setStyle _ | setColor _
  | setImage _ | fillBox _ | fillRect _ | fillMask _ _ | clear => trivial

/-- A canvas that draws safely ends every call well. -/
theorem Terms.Meets.perform_eq_ok {c : Canvas} (h : safeTerms.Meets c) {call : Call}
    (hcall : call.WellFormed) : (c.perform call).2 = .ok () := by
  have hends {call : Call} (hallows : safeTerms.Allows call) : (c.perform call).2 = .ok () :=
    (h.perform hallows).ends.eq_ok
  cases call with
  | setOperator _ | setCompose _ | setAlpha _ | setOrigin _ | setStyle _ | setColor _
  | setImage _ => rfl
  | fillMask bounds commands => exact hends hcall
  | fillAnalytic f =>
    obtain ⟨halpha, hcomplete⟩ := complete_of_made hcall.1 hcall.2.1 hcall.2.2
    exact hends ⟨halpha, fun _ => hcomplete⟩
  | fillBox _ | fillRect _ | clear => exact hends trivial

/-- After any calls a canvas with ready-made pipelines still has them, over an image that is whole
and of a size that there can be. -/
theorem meets_run {image : Image} (hw : image.Whole) (hs : image.Sized) (fallback : Bool)
    (bandHeight : Nat) {calls : List Call} (hcalls : ∀ call ∈ calls, call.WellFormed) :
    anyTerms.Meets (run { image, provider := { fallback }, bandHeight } calls) := by
  have hmeets : anyTerms.Meets { image, provider := { fallback }, bandHeight } :=
    ⟨rfl, PipelineCache.faithful_empty, (anyTerms_holds_iff hw).mpr hs, trivial, le_rfl,
      anyTerms_accepts _⟩
  exact hmeets.run fun call hcall => (hcalls call hcall).allows

/-- A canvas whose style fits ends a call well if it manages it, and refuses it otherwise. -/
theorem perform_eq_ok_iff {c : Canvas} (h : anyTerms.Meets c) (hstyle : c.style.Fits) {call : Call}
    (hcall : call.WellFormed) :
    ((c.perform call).2 = .ok () ↔ c.Manages call) ∧
      (¬ c.Manages call →
        (c.perform call).1.image = c.image ∧
          ∃ fill, c.fill? call = some fill ∧
            (c.perform call).2 = .error (refusal c.image fill c.bandHeight)) := by
  have hsized : c.image.Sized := (anyTerms_holds_iff h.image.whole).mp h.image
  have hrefused (hmanages : ¬ c.Manages call) :=
    perform_of_not_manages hmanages hcall.complete h.own h.faithful h.image.whole hsized
  refine ⟨⟨fun hok => ?_, ?_⟩, hrefused⟩
  · by_contra hmanages
    obtain ⟨-, fill, -, herror⟩ := hrefused hmanages
    rw [hok] at herror
    cases herror
  · rintro (hsides | hdraws)
    · have hsafe : safeTerms.Meets c :=
        ⟨h.own, h.faithful, ⟨h.image.whole, hsides, h.image.pixels⟩, trivial, h.alpha,
          safeTerms_accepts hstyle⟩
      exact hsafe.perform_eq_ok hcall
    · have haccepts : Lands False safeTerms.Admits c.style.prepare? := safeTerms_accepts hstyle
      have hprepared : c.style.prepare?.isSome := haccepts.isSome not_false
      refine perform_of_not_draws hcall.complete ?_ hdraws
      cases call <;> first | rfl | exact Option.isSome_map.trans hprepared

/-- When drawing ends well. After any calls on a canvas with ready-made pipelines, if the style that
was set last fits, a call ends well unless it has something to draw on an image with a side of
`2 ^ 31` or more. Then it is refused with `invalidBuffer`, or with bands that cannot be counted, and
the image stays as it is. -/
theorem perform_run_eq_ok_iff {image : Image} (hw : image.Whole) (hs : image.Sized)
    (fallback : Bool) (bandHeight : Nat) {calls : List Call}
    (hcalls : ∀ call ∈ calls, call.WellFormed)
    (hstyle : (run { image, provider := { fallback }, bandHeight } calls).style.Fits) {call : Call}
    (hcall : call.WellFormed) :
    let c := run { image, provider := { fallback }, bandHeight } calls
    ((c.perform call).2 = .ok () ↔ c.Manages call) ∧
      (¬ c.Manages call →
        (c.perform call).1.image = c.image ∧
          ∃ fill, c.fill? call = some fill ∧
            (c.perform call).2 = .error (refusal c.image fill c.bandHeight)) :=
  perform_eq_ok_iff (meets_run hw hs fallback bandHeight hcalls) hstyle hcall

/-- A row of two pixels is drawn to through a mask and then, softly lit, with a pattern that is
walked backwards. An image with `2 ^ 31` rows and no columns is refused. -/
theorem perform_run_eq_ok_iff_refused :
    ((run { image := ⟨2, 1, .xrgb32, #[0, 32, 64, 255, 16, 0, 8, 255]⟩
            provider := { fallback := true }, bandHeight := 64 }
        [.setOperator .softLight, .setAlpha 200, .setOrigin (-3, 7),
          .fillMask ⟨-1, 0, 2, 9⟩ [.constant 0 1 99, .forever],
          .setStyle (.pattern ⟨2, 2, .a8, #[0, 64, 128, 255]⟩ ⟨.reflect, .tile⟩ .bilinear
            ⟨-2, 0.5, 0, 1, 0.25, 0⟩)]).perform (.fillRect ⟨0.25, -1, 1.5, 0.5⟩)).2 = .ok () ∧
      ((run { image := ⟨0, 0x80000000, .a8, #[]⟩, provider := { fallback := false }
              bandHeight := 64 } []).perform (.fillMask ⟨0, 0, 0, 1⟩ [.once])).2 =
        .error (.refused .invalidBuffer) := by
  constructor
  · have hw : (⟨2, 1, .xrgb32, #[0, 32, 64, 255, 16, 0, 8, 255]⟩ : Image).Whole := ⟨rfl, rfl⟩
    have hs : (⟨2, 1, .xrgb32, #[0, 32, 64, 255, 16, 0, 8, 255]⟩ : Image).Sized :=
      ⟨by decide, by decide, by decide⟩
    have hstyle : (Style.pattern ⟨2, 2, .a8, #[0, 64, 128, 255]⟩ ⟨.reflect, .tile⟩ .bilinear
        ⟨-2, 0.5, 0, 1, 0.25, 0⟩).Fits :=
      ⟨⟨rfl, rfl⟩, ⟨by decide, by decide⟩, by decide +kernel⟩
    have hcalls : ∀ call ∈ [Call.setOperator .softLight, .setAlpha 200, .setOrigin (-3, 7),
        .fillMask ⟨-1, 0, 2, 9⟩ [.constant 0 1 99, .forever],
        .setStyle (.pattern ⟨2, 2, .a8, #[0, 64, 128, 255]⟩ ⟨.reflect, .tile⟩ .bilinear
          ⟨-2, 0.5, 0, 1, 0.25, 0⟩)], call.WellFormed := by
      simp [Call.WellFormed, MaskCommand.Capped, MaskCommand.forever]
    have hcall : (Call.fillRect ⟨0.25, -1, 1.5, 0.5⟩).WellFormed := trivial
    exact (perform_run_eq_ok_iff hw hs true 64 hcalls hstyle hcall).1.mpr (.inl (by decide +kernel))
  · have hs : (⟨0, 0x80000000, .a8, #[]⟩ : Image).Sized := ⟨by decide, by decide, by decide⟩
    have hcall : (Call.fillMask ⟨0, 0, 0, 1⟩ [.once]).WellFormed := by
      simp [Call.WellFormed, MaskCommand.Capped, MaskCommand.once]
    have hcalls : ∀ call ∈ ([] : List Call), call.WellFormed := List.forall_mem_nil _
    obtain ⟨-, hrefused⟩ := perform_run_eq_ok_iff ⟨rfl, rfl⟩ hs false 64 hcalls trivial hcall
    obtain ⟨-, fill, hfill, herror⟩ :=
      hrefused (not_or.mpr ⟨by decide, not_not.mpr ⟨_, _, _, rfl, rfl, by decide⟩⟩)
    cases hfill
    exact herror

end Canvas

end Scanline
