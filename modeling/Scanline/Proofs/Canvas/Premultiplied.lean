import Scanline.Proofs.Canvas.Calls
import Scanline.Proofs.Fetch.PathIndependence
import Scanline.Proofs.Fetch.Premultiplied

/-
  Canvases over premultiplied pixels. A canvas over a premultiplied image that draws premultiplied
  sources, with operators that work in integers, has a premultiplied image after any sequence of
  calls (`Canvas.premultiplied_run`). The three operators that work in floats are left out.
-/

namespace Scanline

/-- The premultiplied pixel of a color is premultiplied. -/
theorem Color.premultiplied_premultiplied (c : Color) : Premultiplied c.premultiplied := by
  obtain ⟨hb, hg, hr, -⟩ := unpack_le c.argb
  have ha : (unpack c.argb).a ≤ 255 := (unpack_le c.argb).2.2.2
  have hscale {v : Nat} (hv : v ≤ 255) : mul255 v (unpack c.argb).a ≤ (unpack c.argb).a := by
    have hle := mul255_mono hv (Nat.le_refl (unpack c.argb).a)
    rwa [mul255_comm 255, mul255_255 ha] at hle
  exact Channels.Premultiplied.pack ⟨hscale hb, hscale hg, hscale hr⟩

/-! ## Images -/

/-- A row that a pixel is read from starts inside of the bytes. -/
theorem lt_size_of_readSource? {f : PixelFormat} {bytes : Array UInt8} {start x : Nat} {p : UInt32}
    (h : readSource? f bytes start x = some p) : start < bytes.size := by
  have hbyte {i : Nat} {b : UInt8} (hi : start ≤ i) (h : bytes[i]? = some b) :
      start < bytes.size :=
    hi.trans_lt (Array.getElem?_eq_some_iff.mp h).1
  have hword {w : UInt32} (h : readWord? bytes (start + 4 * x) = some w) : start < bytes.size := by
    obtain ⟨b, hb, -⟩ := Option.bind_eq_some_iff.mp h
    exact hbyte (Nat.le_add_right _ _) hb
  cases f with
  | a8 =>
    obtain ⟨b, hb, -⟩ := Option.map_eq_some_iff.mp h
    exact hbyte (Nat.le_add_right _ _) hb
  | xrgb32 | frgb32 =>
    obtain ⟨w, hw, -⟩ := Option.map_eq_some_iff.mp h
    exact hword hw
  | prgb32 | zero32 | none => exact hword h

namespace Image

/-- Every pixel of the image is premultiplied. -/
def Premultiplied (i : Image) : Prop := ∀ x y p, i.pixel? x y = some p → Scanline.Premultiplied p

variable {i : Image}

/-- The pixels of a pattern over an image are those of the image. -/
theorem Whole.pixel?_of_asPattern (h : i.Whole) {x y : Nat} {p : UInt32}
    (hp : i.asPattern.pixel? x y = some p) : i.pixel? x y = some p := by
  obtain ⟨-, hread⟩ := Option.ite_none_right_eq_some.mp hp
  have hlt : y * i.stride < i.height * i.stride := h.size ▸ lt_size_of_readSource? hread
  have hrow := Nat.mul_le_mul_right i.stride (Nat.succ_le_of_lt (Nat.lt_of_mul_lt_mul_right hlt))
  unfold pixel?
  rwa [if_pos (hrow.trans_eq h.size.symm)]

/-- The rows of a whole image are those of the pattern over it. -/
theorem Whole.pixel?_eq_asPattern (h : i.Whole) {x y : Nat} (hy : y < i.height) :
    i.pixel? x y = i.asPattern.pixel? x y :=
  if_pos ((Nat.mul_le_mul_right i.stride (Nat.succ_le_of_lt hy)).trans_eq h.size.symm)

/-- The image shows the pixels that are drawn to. -/
theorem Whole.pixel?_eq (h : i.Whole) (hf : i.format = .prgb32) {x y : Nat} (hy : y < i.height) :
    i.pixel? x y = i.surface.pixel? x y := by
  have hstart : i.surface.rowStart y = y * i.stride := by
    unfold Surface.rowStart surface
    rw [Int.sub_zero, Int.toNat_natCast]
  rw [h.pixel?_eq_asPattern hy]
  unfold PatternSource.pixel? Surface.pixel?
  rw [hstart]
  unfold asPattern surface
  dsimp only
  rw [hf]
  rfl

/-- There are no pixels beyond the sides of a whole image. -/
theorem Whole.premultiplied_of_lt (h : i.Whole)
    (hp : ∀ y < i.height, ∀ x < i.width, ∀ p, i.pixel? x y = some p → Scanline.Premultiplied p) :
    i.Premultiplied := by
  intro x y p hpixel
  obtain ⟨-, hpattern⟩ := Option.ite_none_right_eq_some.mp hpixel
  obtain ⟨hx, hread⟩ := Option.ite_none_right_eq_some.mp hpattern
  have hlt : y * i.stride < i.height * i.stride := h.size ▸ lt_size_of_readSource? hread
  exact hp y (Nat.lt_of_mul_lt_mul_right hlt) x hx p hpixel

theorem Whole.all_surface (h : i.Whole) (hf : i.format = .prgb32) (hp : i.Premultiplied) :
    i.surface.All Scanline.Premultiplied := by
  rintro y x p ⟨-, hy0, hy1⟩ hpixel
  obtain ⟨n, rfl⟩ := Int.eq_ofNat_of_zero_le hy0
  change (n : Int) < 0 + (i.height : Int) at hy1
  exact hp x n p ((h.pixel?_eq hf (by omega)).trans hpixel)

/-- A whole image has every pixel inside of its sides. -/
theorem Whole.exists_pixel (h : i.Whole) (hf : i.format = .prgb32) {R : UInt32 → Prop}
    (hall : i.surface.All R) {x y : Nat} (hx : x < i.width) (hy : y < i.height) :
    ∃ p, i.pixel? x y = some p ∧ R p := by
  have hin : i.surface.Inside y x := by
    refine ⟨hx, Int.natCast_nonneg y, ?_⟩
    change (y : Int) < 0 + (i.height : Int)
    omega
  obtain ⟨p, hp⟩ := h.valid.isSome_pixel? hin
  exact ⟨p, (h.pixel?_eq hf hy).trans hp, hall y x p hin hp⟩

end Image

/-! ## Calls -/

/-- The style draws premultiplied pixels: a premultiplied solid, an image without colors of its own
or with premultiplied pixels, or a gradient over a premultiplied table. -/
def Style.Premultiplied : Style → Prop
  | solid pixel => Scanline.Premultiplied pixel
  | pattern image _ _ _ => image.Whole ∧ (image.format = .prgb32 → image.Premultiplied)
  | gradient table _ _ _ _ => table.Premultiplied

theorem GradientFetch.table_prepare (table : GradientTable) (geometry : GradientGeometry)
    (e : Extend) (q : GradientQuality) (t : Affine) :
    (prepare table geometry e q t).fetch.table = table := by
  cases geometry with
  | linear p0 p1 =>
    change (linear table p0 p1 e q t).fetch.table = table
    unfold linear
    split <;> rfl
  | radial center focal centerRadius focalRadius =>
    change (radial table center focal centerRadius focalRadius e q t).fetch.table = table
    unfold radial
    split <;> rfl
  | conic center angle turns =>
    change (conic table center angle turns q t).fetch.table = table
    unfold conic
    dsimp only
    split <;> rfl

/-- What a premultiplied style is made into reads premultiplied pixels. -/
theorem Style.Premultiplied.fetch {style : Style} (h : style.Premultiplied)
    {source : Prepared Fetch} (hs : style.prepare? = some source) : source.fetch.Premultiplied := by
  cases style with
  | solid pixel =>
    obtain rfl := Option.some.inj hs
    exact h
  | pattern image extend quality transform =>
    obtain ⟨p, hp, rfl⟩ := Option.map_eq_some_iff.mp hs
    obtain ⟨hwhole, hpixels⟩ := h
    change p.fetch.source.Premultiplied
    rw [Fetch.source_of_mapped? hp]
    cases hformat : image.format with
    | prgb32 => exact fun x y q hq => hpixels hformat x y q (hwhole.pixel?_of_asPattern hq)
    | xrgb32 => exact PatternSource.premultiplied_of_format (.inl hformat)
    | a8 => exact PatternSource.premultiplied_of_format (.inr (.inr hformat))
    | none | frgb32 | zero32 => exact absurd hwhole.drawable (by rw [hformat]; decide)
  | gradient table geometry extend quality transform =>
    obtain rfl := Option.some.inj hs
    change (GradientFetch.prepare _ _ _ _ _).fetch.table.Premultiplied
    rwa [GradientFetch.table_prepare]

namespace Canvas

/-- The call sets nothing that is not premultiplied and no operator that works in floats; the
coverages that it draws with are below 256. -/
def Call.Premultiplied : Call → Prop
  | setOperator op => op ≠ .colorDodge ∧ op ≠ .colorBurn ∧ op ≠ .softLight
  | setStyle style => style.Premultiplied
  | setImage image => image.Whole ∧ image.format = .prgb32 ∧ image.Premultiplied
  | fillMask _ commands => ∀ c ∈ commands, c.Capped
  | fillAnalytic f => f.alpha ≤ 255
  | setCompose _ | setAlpha _ | setOrigin _ | setColor _ | fillBox _ | fillRect _ | clear => True

/-- Premultiplied pixels drawn to premultiplied pixels. Drawing may end early. -/
def premultipliedTerms : Terms where
  halts := True
  pixel := Scanline.Premultiplied
  cursor := Cursor.Premultiplied
  shape f _ _ := f = .prgb32
  op o := o.isIntegral
  sides_le hhalts := absurd trivial hhalts
  kept := Cursor.kept_premultiplied
  drawn := by
    rintro o f _ _ s dst src m ho rfl hm hd hs
    have hsimplified : (o.simplify .prgb32 s).op.isIntegral := by
      cases o <;> cases s <;> first | rfl | cases ho
    exact Scanline.Premultiplied.combine_applyMask hsimplified hm hd hs
  clear := rfl
  substitute := by
    intro x p hp
    cases x <;> cases hp
    all_goals
      change Scanline.Premultiplied _
      decide

theorem premultipliedTerms_accepts {style : Style} (h : style.Premultiplied) :
    premultipliedTerms.Accepts style := by
  refine Lands.of_forall fun source hs kind origin _ => ?_
  exact Lands.of_forall fun c hc => Cursor.premultiplied_of_ofFetch? hc (h.fetch hs)

theorem Call.Premultiplied.allows {call : Call} (h : call.Premultiplied) :
    premultipliedTerms.Allows call := by
  cases call with
  | setOperator op =>
    cases op with
    | colorDodge => exact absurd rfl h.1
    | colorBurn => exact absurd rfl h.2.1
    | softLight => exact absurd rfl h.2.2
    | _ => rfl
  | setCompose mode => cases mode <;> rfl
  | setStyle style => exact premultipliedTerms_accepts h
  | setColor color => exact premultipliedTerms_accepts color.premultiplied_premultiplied
  | setImage image =>
    exact ⟨h.1, h.2.1, h.1.all_surface h.2.1 h.2.2⟩
  | fillMask bounds commands => exact h
  | fillAnalytic f => exact ⟨h, fun hhalts => absurd trivial hhalts⟩
  | setAlpha _ | setOrigin _ | fillBox _ | fillRect _ | clear => trivial

/-- Premultiplication is kept: a canvas over a premultiplied image has a premultiplied image after
every sequence of calls that set nothing that is not premultiplied. -/
theorem premultiplied_run {image : Image} (hw : image.Whole) (hf : image.format = .prgb32)
    (hp : image.Premultiplied) (fallback : Bool) (bandHeight : Nat) {calls : List Call}
    (hcalls : ∀ call ∈ calls, call.Premultiplied) :
    let c := run { image, provider := { fallback }, bandHeight } calls
    c.image.Whole ∧ c.image.format = .prgb32 ∧
      ∀ {x y}, x < c.image.width → y < c.image.height →
        ∃ p, c.image.pixel? x y = some p ∧ Scanline.Premultiplied p := by
  have hblack : (Style.solid 0xFF000000).Premultiplied := by
    change Scanline.Premultiplied _
    decide
  have hmeets : premultipliedTerms.Meets { image, provider := { fallback }, bandHeight } :=
    ⟨rfl, PipelineCache.faithful_empty, ⟨hw, hf, hw.all_surface hf hp⟩, rfl, le_rfl,
      premultipliedTerms_accepts hblack⟩
  have hrun := hmeets.run fun call hcall => (hcalls call hcall).allows
  exact ⟨hrun.image.whole, hrun.image.shape,
    fun hx hy => hrun.image.whole.exists_pixel hrun.image.shape hrun.image.pixels hx hy⟩

/-- One pixel, drawn to with the difference of a half transparent color and then darkened. -/
theorem premultiplied_run_difference :
    ∃ p, (run { image := ⟨1, 1, .prgb32, #[0, 32, 64, 128]⟩, provider := { fallback := true }
                bandHeight := 64 }
      [.setOperator .difference, .setAlpha 200, .setStyle (.solid 0x80402010),
        .fillBox ⟨0, 0, 1, 1⟩, .setOperator .darken, .setColor ⟨255, 128, 0, 77⟩,
        .fillMask ⟨0, 0, 1, 1⟩ [.constant 0 1 99, .forever]]).image.pixel? 0 0 = some p ∧
      Scanline.Premultiplied p := by
  have hw : (⟨1, 1, .prgb32, #[0, 32, 64, 128]⟩ : Image).Whole := ⟨rfl, rfl⟩
  have hp : (⟨1, 1, .prgb32, #[0, 32, 64, 128]⟩ : Image).Premultiplied := by
    refine hw.premultiplied_of_lt fun y hy x hx p hpixel => ?_
    obtain rfl : y = 0 := Nat.lt_one_iff.mp hy
    obtain rfl : x = 0 := Nat.lt_one_iff.mp hx
    obtain rfl : 0x80402000 = p := Option.some.inj hpixel
    decide
  have hcalls : ∀ call ∈ [Call.setOperator .difference, .setAlpha 200,
      .setStyle (.solid 0x80402010), .fillBox ⟨0, 0, 1, 1⟩, .setOperator .darken,
      .setColor ⟨255, 128, 0, 77⟩,
      .fillMask ⟨0, 0, 1, 1⟩ [.constant 0 1 99, .forever]], call.Premultiplied := by
    have hsolid : Scanline.Premultiplied 0x80402010 := by decide
    simpa [Call.Premultiplied, Style.Premultiplied, MaskCommand.Capped, MaskCommand.forever]
      using hsolid
  have hrun := premultiplied_run hw rfl hp true 64 hcalls
  exact hrun.2.2 (by decide +kernel) (by decide +kernel)

end Canvas

end Scanline
