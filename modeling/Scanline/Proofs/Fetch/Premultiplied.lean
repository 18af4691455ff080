import Scanline.Proofs.Operator.Premultiplied
import Scanline.Proofs.Render.Invariants

/-
  Cursors over premultiplied sources. Every way of reading a source keeps its pixels
  premultiplied: weighing columns and rows, mixing four pixels, and dithering, which cuts the color
  channels to the alpha (`Cursor.kept_premultiplied`). A table made of color stops is premultiplied
  (`GradientTable.premultiplied_ofStops`), and so is every pattern that has no colors of its own.
-/

namespace Scanline

/-! ## Sources -/

/-- The pixels of the pattern are premultiplied. -/
def PatternSource.Premultiplied (s : PatternSource) : Prop :=
  ∀ x y p, s.pixel? x y = some p → Scanline.Premultiplied p

/-- Opaque pixels, and pixels with one value in every channel, are premultiplied. -/
theorem PatternSource.premultiplied_of_format {s : PatternSource}
    (hf : s.format = .xrgb32 ∨ s.format = .frgb32 ∨ s.format = .a8) : s.Premultiplied := by
  intro x y p h
  unfold pixel? at h
  split at h
  · obtain hf | hf | hf := hf
    · rw [hf] at h
      obtain ⟨w, -, rfl⟩ := Option.map_eq_some_iff.mp h
      exact premultiplied_withFullAlpha w
    · rw [hf] at h
      obtain ⟨w, -, rfl⟩ := Option.map_eq_some_iff.mp h
      exact premultiplied_withFullAlpha w
    · rw [hf] at h
      obtain ⟨b, -, rfl⟩ := Option.map_eq_some_iff.mp h
      exact (Channels.premultiplied_splat b.toNat).pack
  · cases h

namespace GradientTable

/-- The 16-bit colors of the table are premultiplied, and the pixels are made from them. -/
structure Premultiplied (t : GradientTable) : Prop where
  colors : t.colors = t.fineColors.map narrow
  fine : ∀ c ∈ t.fineColors, c.Premultiplied

theorem narrowChannel_mono {u v : Nat} (h : u ≤ v) : narrowChannel u ≤ narrowChannel v := by
  unfold narrowChannel
  omega

theorem Premultiplied.pixel {t : GradientTable} (h : t.Premultiplied) {i : Nat} {p : UInt32}
    (hp : t.colors[i]? = some p) : Scanline.Premultiplied p := by
  rw [h.colors, Array.getElem?_map] at hp
  obtain ⟨c, hc, rfl⟩ := Option.map_eq_some_iff.mp hp
  exact ((h.fine c (Array.mem_of_getElem? hc)).map fun _ _ => narrowChannel_mono).pack

/-- The channels of a color with 16 bits a channel. -/
def Fine (c : Channels) : Prop := c.b ≤ 65535 ∧ c.g ≤ 65535 ∧ c.r ≤ 65535 ∧ c.a ≤ 65535

theorem fine_widen (c : Color) : Fine (widen c) := by
  have hword (v : UInt8) : v.toNat * 257 ≤ 65535 := by
    have := v.toNat_lt
    omega
  exact ⟨hword _, hword _, hword _, hword _⟩

theorem between_le (w : Float) (u v : Nat) : between w u v ≤ 65535 := by
  unfold between FloatValue.truncateInto
  have := FloatValue.roundInto_mem FloatValue.truncateFinite (le_refl (0 : Int))
    (show (0 : Int) ≤ 65535 by decide)
    (FloatValue.ofFloat (Float.ofNat u + (Float.ofNat v - Float.ofNat u) * w + 0.5))
  dsimp only
  omega

theorem fine_colorAt (stops : List ColorStop) (t : Float) : Fine (colorAt stops t) := by
  unfold colorAt
  cases stops with
  | nil => exact ⟨Nat.zero_le _, Nat.zero_le _, Nat.zero_le _, Nat.zero_le _⟩
  | cons first later =>
    dsimp only
    split
    · exact fine_widen _
    · split
      · exact fine_widen _
      · exact ⟨between_le _ _ _, between_le _ _ _, between_le _ _ _, between_le _ _ _⟩

/-- A color channel is scaled down to the alpha. -/
theorem premultiplied_premultiplyFine {c : Channels} (hc : Fine c) :
    (premultiplyFine c).Premultiplied := by
  have hscale {v : Nat} (hv : v ≤ 65535) : (v * c.a + 32767) / 65535 ≤ c.a := by
    have := Nat.mul_le_mul_right c.a hv
    omega
  exact ⟨hscale hc.1, hscale hc.2.1, hscale hc.2.2.1⟩

theorem premultiplied_ofStops (stops : List ColorStop) (n : Nat) :
    (ofStops stops n).Premultiplied where
  colors := rfl
  fine c hc := by
    obtain ⟨i, -, rfl⟩ := Array.mem_map.mp hc
    exact premultiplied_premultiplyFine (fine_colorAt _ _)

end GradientTable

/-- What is read is premultiplied. -/
def Fetch.Premultiplied : Fetch → Prop
  | solid pixel => Scanline.Premultiplied pixel
  | pattern f => f.source.Premultiplied
  | gradient f => f.table.Premultiplied

/-! ## Reading -/

/-- Dithering keeps every color channel at most at the alpha, whatever is added. -/
theorem premultiplied_round (c : Channels) (d : Nat) : Premultiplied (Dither.round c d) :=
  Channels.Premultiplied.pack
    ⟨Nat.min_le_right _ _, Nat.min_le_right _ _, Nat.min_le_right _ _⟩

theorem TableReader.next?_premultiplied {r : TableReader} (h : r.table.Premultiplied) (i : Nat) :
    Lands True (fun out => Premultiplied out.1 ∧ out.2.table.Premultiplied) (r.next? i) := by
  unfold next?
  cases r.dither with
  | none =>
    cases hp : r.table.colors[i]? with
    | none => trivial
    | some p => exact ⟨h.pixel hp, h⟩
  | some d =>
    cases hc : r.table.fineColors[i]? with
    | none => trivial
    | some c => exact ⟨premultiplied_round c _, h⟩

theorem BilinearCursor.weigh?_premultiplied {c : BilinearCursor} (h : c.source.Premultiplied)
    (x above below : Nat) :
    Lands True (fun out => out.Premultiplied) (c.weigh? x above below) := by
  unfold weigh?
  cases hp : c.source.pixel? x c.rows.index with
  | none => trivial
  | some p =>
    cases hq : c.source.pixel? x c.rows.next.index with
    | none => trivial
    | some q =>
      refine (h _ _ p hp).zipWith (fun u u' v v' hu hv => ?_) (h _ _ q hq)
      exact Nat.add_le_add (Nat.mul_le_mul_right _ hu) (Nat.mul_le_mul_right _ hv)

/-- Mixing four premultiplied pixels weighs their alphas and their color channels alike. -/
theorem MappedCursor.mix_premultiplied (wx wy : Nat) {p00 p01 p10 p11 : Channels}
    (h00 : p00.Premultiplied) (h01 : p01.Premultiplied) (h10 : p10.Premultiplied)
    (h11 : p11.Premultiplied) : (mix wx wy p00 p01 p10 p11).Premultiplied := by
  have hweigh (w : Nat) : ∀ u u' v v', u ≤ u' → v ≤ v' →
      (u * (256 - w) + v * w) / 256 ≤ (u' * (256 - w) + v' * w) / 256 := fun u u' v v' hu hv =>
    Nat.div_le_div_right (Nat.add_le_add (Nat.mul_le_mul_right _ hu) (Nat.mul_le_mul_right _ hv))
  exact (h00.zipWith (hweigh wy) h01).zipWith (hweigh wx) (h10.zipWith (hweigh wy) h11)

theorem MappedCursor.pixel?_premultiplied {c : MappedCursor} (h : c.source.Premultiplied) :
    Lands True Premultiplied c.pixel? := by
  have hpixel (x y : Nat) : Lands True Premultiplied (c.source.pixel? x y) := by
    cases hp : c.source.pixel? x y with
    | none => trivial
    | some p => exact h x y p hp
  unfold pixel?
  split
  · refine (hpixel _ _).bind fun p00 h00 => (hpixel _ _).bind fun p01 h01 => ?_
    refine (hpixel _ _).bind fun p10 h10 => (hpixel _ _).bind fun p11 h11 => ?_
    exact (mix_premultiplied _ _ h00 h01 h10 h11).pack
  · exact hpixel _ _

namespace Cursor

/-- What the cursor reads is premultiplied; a cursor between pixels also carries a column that
is. -/
def Premultiplied : Cursor → Prop
  | solid pixel => Scanline.Premultiplied pixel
  | aligned c => c.source.Premultiplied
  | bilinear c => c.source.Premultiplied ∧ c.left.Premultiplied
  | mapped c => c.source.Premultiplied
  | linear c => c.reader.table.Premultiplied
  | radial c => c.reader.table.Premultiplied
  | conic c => c.reader.table.Premultiplied

theorem start?_bilinear_premultiplied {c : BilinearCursor} (h : (bilinear c).Premultiplied)
    (x : Int) : Lands True Premultiplied ((c.start? x).map bilinear) := by
  have hstart : Lands True (fun c => (bilinear c).Premultiplied) (c.start? x) :=
    (c.weigh?_premultiplied h.1 _ _ _).bind fun left hleft => ⟨h.1, hleft⟩
  exact hstart.map fun c hc => hc

/-- A cursor over a premultiplied source reads premultiplied pixels, wherever it goes. -/
theorem kept_premultiplied : Kept True Scanline.Premultiplied Premultiplied where
  startRow c y h := by cases c <;> exact h
  nextRow c h := by cases c <;> exact h
  start? c x h := by
    cases c with
    | bilinear c => exact start?_bilinear_premultiplied h x
    | _ => exact h
  skip? c x n h := by
    cases c with
    | bilinear c => exact start?_bilinear_premultiplied h x
    | _ => exact h
  next? c h := by
    cases c with
    | solid pixel => exact ⟨h, h⟩
    | aligned c =>
      have hnext : Lands True (fun out => Scanline.Premultiplied out.1 ∧
          out.2.source.Premultiplied) c.next? := by
        unfold AlignedCursor.next?
        cases hp : c.source.pixel? c.columns.index c.rows.index with
        | none => trivial
        | some p => exact ⟨h _ _ p hp, h⟩
      exact hnext.map fun out hout => hout
    | bilinear c =>
      have hnext : Lands True (fun out => Scanline.Premultiplied out.1 ∧
          (bilinear out.2).Premultiplied) c.next? := by
        unfold BilinearCursor.next?
        refine (c.weigh?_premultiplied h.1 _ _ _).bind fun right hright => ?_
        refine (c.weigh?_premultiplied h.1 _ _ _).bind fun left hleft => ⟨?_, h.1, hleft⟩
        refine (hright.zipWith (fun u u' v v' hu hv => ?_) h.2).pack
        exact Nat.div_le_div_right (Nat.add_le_add hu hv)
      exact hnext.map fun out hout => hout
    | mapped c =>
      have hnext : Lands True (fun out => Scanline.Premultiplied out.1 ∧
          out.2.source.Premultiplied) c.next? :=
        (MappedCursor.pixel?_premultiplied h).bind fun p hp => ⟨hp, h⟩
      exact hnext.map fun out hout => hout
    | linear c | radial c | conic c =>
      have hnext : Lands True (fun out => Scanline.Premultiplied out.1 ∧
          out.2.reader.table.Premultiplied) c.next? :=
        (c.reader.next?_premultiplied h _).bind fun out hout => hout
      exact hnext.map fun out hout => hout

theorem source_ofPlacement (k : FetchKind) (source : PatternSource) (p : Placement) :
    (AlignedCursor.ofPlacement k source p).source = source := by
  unfold AlignedCursor.ofPlacement
  split <;> rfl

/-- A placed pattern is read pixel by pixel or between pixels, by whatever kind. -/
theorem ofPattern?_of_placed {k : FetchKind} {source : PatternSource} {p : Placement} {c : Cursor}
    (h : ofPattern? k ⟨source, .placed p⟩ = some c) :
    c = aligned (.ofPlacement k source p) ∨ c = bilinear (.ofPlacement k source p) := by
  unfold ofPattern? at h
  cases k <;> dsimp only at h <;>
    first
      | exact .inl (Option.some.inj h).symm
      | exact .inr (Option.some.inj h).symm
      | cases h

theorem ofPattern?_of_mapped {k : FetchKind} {source : PatternSource} {s : Sampling} {c : Cursor}
    (h : ofPattern? k ⟨source, .mapped s⟩ = some c) : c = mapped (.ofSampling k source s) := by
  unfold ofPattern? at h
  cases k <;> dsimp only at h <;> first | exact (Option.some.inj h).symm | cases h

/-- A cursor over a gradient with the given constants. -/
def ofCourse (reader : TableReader) (folded : Bool) : GradientCourse → Cursor
  | .linear course => linear { reader, course, folded }
  | .radial course => radial { reader, course, folded }
  | .conic course => conic { reader, course }

/-- A cursor over a gradient reads its table, and is folded by its kind. -/
theorem ofGradient?_of_course {k : FetchKind} {table : GradientTable} {course : GradientCourse}
    {origin : Int × Int} {c : Cursor} (h : ofGradient? k ⟨table, course⟩ origin = some c) :
    ∃ dither, c = ofCourse ⟨table, dither⟩ k.isFolded course := by
  unfold ofGradient? at h
  cases course <;> cases k <;> dsimp only at h <;>
    first | exact ⟨_, (Option.some.inj h).symm⟩ | cases h

/-- A cursor over a premultiplied source begins with nothing that is not. -/
theorem premultiplied_of_ofFetch? {k : FetchKind} {fetch : Fetch} {origin : Int × Int}
    {c : Cursor} (h : ofFetch? k fetch origin = some c) (hf : fetch.Premultiplied) :
    c.Premultiplied := by
  cases fetch with
  | solid pixel =>
    obtain ⟨-, hc⟩ := Option.ite_none_right_eq_some.mp h
    exact Option.some.inj hc ▸ hf
  | pattern f =>
    obtain ⟨-, hc⟩ := Option.ite_none_right_eq_some.mp h
    split at hc
    · obtain rfl := Option.some.inj hc
      exact (by decide : Scanline.Premultiplied 0)
    · obtain ⟨source, mode⟩ := f
      have hsource : source.Premultiplied := hf
      cases mode with
      | placed p =>
        obtain rfl | rfl := ofPattern?_of_placed hc
        · rwa [Premultiplied, source_ofPlacement]
        · exact ⟨hsource, Channels.premultiplied_splat 0⟩
      | mapped s =>
        obtain rfl := ofPattern?_of_mapped hc
        exact hsource
  | gradient f =>
    obtain ⟨-, hc⟩ := Option.ite_none_right_eq_some.mp h
    obtain ⟨table, course⟩ := f
    have htable : table.Premultiplied := hf
    obtain ⟨dither, rfl⟩ := ofGradient?_of_course hc
    cases course with
    | linear _ | radial _ | conic _ => exact htable

end Cursor

end Scanline
