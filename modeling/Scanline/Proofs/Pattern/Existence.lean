import Scanline.Pattern.Fetch
import Scanline.Proofs.Pattern.Offsets

/-
  Patterns that can be made ready. Where the cells of a source are words, and a map that only moves
  takes it by whole pixels that can be negated as words, the pattern is made ready under the map
  (`PatternFetch.isSome_mapped?`). No other map is refused, whatever its numbers are.
-/

namespace Scanline

/-- The whole pixels of an offset can be negated as words. -/
theorem Placement.isSome_atFraction? {source : PatternSource} {extend : ExtendMode}
    (hs : source.SpansFit extend) {x64 y64 : Int} (hx : wrap32 (x64 / 256) ≠ minInt32)
    (hy : wrap32 (y64 / 256) ≠ minInt32) (quality : PatternQuality) :
    (atFraction? source extend quality x64 y64).isSome := by
  by_cases hpart : x64 % 256 = 0 ∧ y64 % 256 = 0
  · rw [atFraction?_whole hpart quality, atFraction?_nearest hs hx hy]
    rfl
  · cases quality with
    | nearest =>
      rw [atFraction?_nearest hs hx hy]
      rfl
    | bilinear =>
      obtain ⟨base, -, h⟩ := atFraction?_bilinear hs hx hy hpart
      rw [h]
      rfl

theorem SampleAxis.isSome_cells? {e : Extend} {n : Nat} (h : span e n ≤ maxInt32) :
    (cells? e n).isSome := by
  have hn := le_span e n
  have hspan : minInt32 ≤ span e n := by
    unfold minInt32
    omega
  have hword : wrap32 n = n := wrap32_of_range (by unfold minInt32; omega) (hn.trans h)
  unfold cells?
  dsimp only
  rw [hword, word32?_of_fits ⟨by unfold minInt32; omega, by omega⟩, Option.bind_eq_bind,
    Option.bind_some, word32?_of_fits ⟨hspan, h⟩]
  rfl

theorem Sampling.isSome_ofInverse? {source : PatternSource} {extend : ExtendMode}
    (hs : source.SpansFit extend) (quality : PatternQuality) (inv : Affine) :
    (ofInverse? source extend quality inv).isSome := by
  obtain ⟨w, hw⟩ := Option.isSome_iff_exists.mp (SampleAxis.isSome_cells? hs.columns)
  obtain ⟨h, hh⟩ := Option.isSome_iff_exists.mp (SampleAxis.isSome_cells? hs.rows)
  unfold ofInverse?
  rw [hw, hh]
  rfl

namespace PatternFetch

/-- A map that only moves takes a pattern by whole pixels that can be negated as words. -/
def OffsetFits (transform : Affine) : Prop :=
  ∀ inv ∈ transform.inverse?, onlyMoves inv →
    wrap32 (floorToInt64 (-inv.e * 256) / 256) ≠ minInt32 ∧
      wrap32 (floorToInt64 (-inv.f * 256) / 256) ≠ minInt32

instance (transform : Affine) : Decidable (OffsetFits transform) :=
  inferInstanceAs (Decidable (∀ inv ∈ transform.inverse?, _ → _))

theorem isSome_mapped? {source : PatternSource} {extend : ExtendMode} (hs : source.SpansFit extend)
    {transform : Affine} (ht : OffsetFits transform) (quality : PatternQuality) :
    (mapped? source extend quality transform).isSome := by
  unfold mapped?
  cases hinv : transform.inverse? with
  | none => rfl
  | some inv =>
    dsimp only
    split
    · rfl
    · split
      · rename_i hmoves
        obtain ⟨hx, hy⟩ := ht inv hinv hmoves
        unfold atFraction?
        rw [Option.isSome_map]
        exact Placement.isSome_atFraction? hs hx hy quality
      · rw [Option.isSome_map]
        exact Sampling.isSome_ofInverse? hs quality inv

end PatternFetch

end Scanline
