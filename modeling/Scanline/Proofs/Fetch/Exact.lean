import Scanline.Proofs.Fetch.PathIndependence

/-
  Fetches that are exact in a range of rows and columns: their coordinates do not overflow there, so
  that the pixel in a row and a column does not depend on how a cursor came to it. A fetch shows
  pixels in a region (`Fetch.Shows`) if its cursor comes everywhere in it and reads these pixels.
-/

namespace Scanline

/-- Every fresh reading of a sound cursor that has all of its pixels gives one, so that the cursor
yields the image of these pixels. -/
theorem Cursor.Sound.exists_image {c₀ : Cursor} (h : c₀.Sound) (hread : c₀.Readable) :
    ∃ image, Yields c₀.region c₀ image ∧ ∀ y x, c₀.pixelAt? y x = some (image y x) := by
  have hpixel : ∀ y x, ∃ p, c₀.pixelAt? y x = some p := fun y x =>
    Option.isSome_iff_exists.mp (h.isSome_pixelAt? hread y x)
  choose image himage using hpixel
  exact ⟨image, h.steady.yields fun y x _ => himage y x, himage⟩

namespace Fetch

/-- A single color, a pattern or a linear gradient that was made ready, for an image at `origin`. In
rows `y0` to `y1` and columns `x0` to `x1` its coordinates do not overflow. -/
structure Exact (fetch : Fetch) (kind : FetchKind) (origin : Int × Int) (y0 y1 x0 x1 : Int) :
    Prop where
  ready : Ready fetch kind
  sides : fetch.SidesBelow (2 ^ 29)
  made : fetch.Made
  place : ∀ c₀, Cursor.ofFetch? kind fetch origin = some c₀ →
    ∀ y x, y0 ≤ y → y < y1 → x0 ≤ x → x ≤ x1 → c₀.region.Place y x

/-- The cursor of an exact fetch yields an image, whose pixels are the ones that fresh cursors
read. -/
theorem Exact.exists_cursor {fetch : Fetch} {kind : FetchKind} {origin : Int × Int}
    {y0 y1 x0 x1 : Int} (h : fetch.Exact kind origin y0 y1 x0 x1) :
    ∃ c₀ image, Cursor.ofFetch? kind fetch origin = some c₀ ∧
      Cursor.Yields c₀.region c₀ image ∧ (∀ y x, c₀.pixelAt? y x = some (image y x)) ∧
      ∀ y x, y0 ≤ y → y < y1 → x0 ≤ x → x ≤ x1 → c₀.region.Place y x := by
  obtain ⟨c₀, hc₀, hsound, hread⟩ := h.ready.hasCursor h.sides origin
  obtain ⟨image, hyields, himage⟩ := hsound.exists_image (hread h.made)
  exact ⟨c₀, image, hc₀, hyields, himage, h.place c₀ hc₀⟩

/-- The fetch has a cursor that goes everywhere in the region, whichever way it is led, and reads one
image there, of pixels as they are described. -/
def Shows (fetch : Fetch) (kind : FetchKind) (origin : Int × Int) (R : Cursor.Region)
    (Pixel : Int → Int → UInt32 → Prop) : Prop :=
  ∃ c₀ image, Cursor.ofFetch? kind fetch origin = some c₀ ∧ Cursor.Yields R c₀ image ∧
    ∀ y x, R.Place y x → Pixel y x (image y x)

theorem Shows.imp {fetch : Fetch} {kind : FetchKind} {origin : Int × Int} {R : Cursor.Region}
    {Pixel Pixel' : Int → Int → UInt32 → Prop} (h : fetch.Shows kind origin R Pixel)
    (himp : ∀ y x p, Pixel y x p → Pixel' y x p) : fetch.Shows kind origin R Pixel' := by
  obtain ⟨c₀, image, hc₀, hyields, himage⟩ := h
  exact ⟨c₀, image, hc₀, hyields, fun y x hplace => himp y x _ (himage y x hplace)⟩

/-- It is enough to know what a sound cursor reads when it is fresh. -/
theorem shows_of_fresh {fetch : Fetch} {kind : FetchKind} {origin : Int × Int} {c₀ : Cursor}
    (hc₀ : Cursor.ofFetch? kind fetch origin = some c₀) (hsound : c₀.Sound)
    {Pixel : Int → Int → UInt32 → Prop}
    (h : ∀ y x, c₀.region.Place y x → ∃ p, c₀.pixelAt? y x = some p ∧ Pixel y x p) :
    fetch.Shows kind origin c₀.region Pixel := by
  have hfresh (y x : Int) (hplace : c₀.region.Place y x) :
      c₀.pixelAt? y x = some ((c₀.pixelAt? y x).getD 0) ∧ Pixel y x ((c₀.pixelAt? y x).getD 0) := by
    obtain ⟨p, hp, hpixel⟩ := h y x hplace
    rw [hp]
    exact ⟨rfl, hpixel⟩
  exact ⟨c₀, _, hc₀, hsound.steady.yields fun y x hplace => (hfresh y x hplace).1,
    fun y x hplace => (hfresh y x hplace).2⟩

/-- A single color is exact everywhere. -/
theorem exact_solid (pixel : UInt32) (origin : Int × Int) (y0 y1 x0 x1 : Int) :
    (solid pixel).Exact .solid origin y0 y1 x0 x1 :=
  ⟨.solid pixel, trivial, trivial, fun c₀ hc₀ _ _ _ _ _ _ => by
    obtain rfl := Option.some.inj hc₀
    trivial⟩

end Fetch

end Scanline
