import Mathlib.Order.Bounds.Basic
import Scanline.Proofs.Box.Words
import Scanline.Proofs.Fetch.Premultiplied
import Scanline.Proofs.Gradient.Indices
import Scanline.Proofs.Pixel.Rounding

/-
  Gradients of one color. A table works in 16 bits a channel: it widens a color, premultiplies it
  and cuts it down to 8 bits. The two roundings on this way end where the single rounding of a solid
  color ends (`narrowChannel_scale`), so that all pixels of a table with one stop are that solid
  color. `entry32?_eq`: no table, whatever its stops, leaves 32 bits when it premultiplies.
  `ofStops_one` puts this together with the length of the table and with dithering, which meets the
  alpha of the color exactly.
-/

namespace Scanline.GradientTable

/-! ## The length of a table -/

/-- The power of two above `n` is the least one that is larger. -/
theorem isLeast_two_pow {n : Nat} (hn : n ≠ 0) :
    IsLeast {m | (∃ k, m = 2 ^ k) ∧ n < m} (2 ^ (n.log2 + 1)) := by
  refine ⟨⟨⟨_, rfl⟩, Nat.lt_log2_self⟩, ?_⟩
  rintro _ ⟨⟨k, rfl⟩, hk⟩
  exact Nat.pow_le_pow_right (by decide) ((Nat.log2_lt hn).mpr hk)

theorem isLeast_length (size : Nat) :
    IsLeast {n | (∃ k, n = 2 ^ k) ∧ max size 2 ≤ n} (length size) := by
  have hroom (n : Nat) : max size 2 ≤ n ↔ max size 2 - 1 < n := by omega
  simp only [hroom, length_eq]
  exact isLeast_two_pow (n := max size 2 - 1) (by omega)

/-! ## Words -/

/-- `premultiplyFine` in checked words. -/
def premultiplyFine32? (c : Channels) : Option Channels := do
  let scale (v : Nat) : Option Nat := do
    let product ← unsigned32? (v * c.a)
    let rounded ← unsigned32? (product + 32767)
    some (rounded / 65535)
  some ⟨← scale c.b, ← scale c.g, ← scale c.r, c.a⟩

/-- `entry` in checked words. -/
def entry32? (stops : List ColorStop) (n i : Nat) : Option Channels :=
  premultiplyFine32? (colorAt stops (Float.ofNat i / Float.ofNat (n - 1)))

/-- The largest product and what it is rounded with just fit a word. -/
theorem premultiplyFine32?_eq {c : Channels} (hc : Fine c) :
    premultiplyFine32? c = some (premultiplyFine c) := by
  obtain ⟨hb, hg, hr, ha⟩ := hc
  have hscale {v : Nat} (hv : v ≤ 65535) :
      (do let product ← unsigned32? (v * c.a)
          let rounded ← unsigned32? (product + 32767)
          some (rounded / 65535)) = some ((v * c.a + 32767) / 65535) := by
    have hproduct : v * c.a ≤ 65535 * 65535 := Nat.mul_le_mul hv ha
    have hrounded : unsigned32? ((v * c.a : Nat) + 32767) = some (v * c.a + 32767) :=
      unsigned32?_of_eq (by omega) (by omega)
    rw [unsigned32?_of_eq (Int.natCast_mul v c.a).symm (by omega), Option.bind_eq_bind,
      Option.bind_some, hrounded]
    rfl
  rw [premultiplyFine32?]
  simp only [hscale hb, hscale hg, hscale hr]
  rfl

theorem entry32?_eq (stops : List ColorStop) (n i : Nat) :
    entry32? stops n i = some (entry stops n i) :=
  premultiplyFine32?_eq (fine_colorAt stops _)

/-! ## Two roundings -/

/-- What lies within half a step of a widened value is cut down to the value. -/
theorem narrowChannel_of_near {r v : Nat} (hr : r ≤ 255) (hlo : 257 * r ≤ v + 128)
    (hhi : v ≤ 257 * r + 128) : narrowChannel v = r := by
  unfold narrowChannel
  omega

theorem narrowChannel_widen {v : Nat} (hv : v ≤ 255) : narrowChannel (v * 257) = v :=
  narrowChannel_of_near hv (by omega) (by omega)

/-- Premultiplying in 16 bits and cutting down to 8 is premultiplying in 8 bits. -/
theorem narrowChannel_scale {v a : Nat} (hv : v ≤ 255) (ha : a ≤ 255) :
    narrowChannel ((v * 257 * (a * 257) + 32767) / 65535) = mul255 v a := by
  have hp : v * a ≤ 65025 := Nat.mul_le_mul hv ha
  have hproduct : v * 257 * (a * 257) = v * a * 66049 := by ring
  have hdiv := div255_eq hp
  rw [hproduct, mul255]
  -- Both sides are multiples of 1/255; the finer one is at most 128/257 of a step away.
  exact narrowChannel_of_near (div255_le hp) (by omega) (by omega)

/-- The color of a table with one stop, with 16 bits a channel. -/
theorem narrow_premultiplyFine_widen (c : Color) :
    narrow (premultiplyFine (widen c)) = c.premultiplied := by
  have hb := c.b.toNat_lt
  have hg := c.g.toNat_lt
  have hr := c.r.toNat_lt
  have ha := c.a.toNat_lt
  have hargb : unpack c.argb = ⟨c.b.toNat, c.g.toNat, c.r.toNat, c.a.toNat⟩ :=
    unpack_pack (Nat.le_of_lt_succ hb) (Nat.le_of_lt_succ hg) (Nat.le_of_lt_succ hr)
      (Nat.le_of_lt_succ ha)
  rw [Color.premultiplied, premultiply, hargb, narrow]
  simp only [premultiplyFine, widen, Channels.map]
  rw [narrowChannel_scale (by omega) (by omega), narrowChannel_scale (by omega) (by omega),
    narrowChannel_scale (by omega) (by omega), narrowChannel_widen (by omega)]

/-! ## One stop -/

/-- Whatever is added, dithering keeps the alpha of a widened color. -/
theorem alphaOf_round {c : Channels} {a : UInt8} (hc : c.a = a.toNat * 257) (d : Nat) :
    alphaOf (Dither.round c d) = a.toNat := by
  have ha := a.toNat_lt
  have halpha : c.a / 256 = a.toNat := by omega
  have hround : unpack (Dither.round c d) = _ := Channels.unpack_pack_min _
  rw [← unpack_a, hround]
  show min (c.a / 256) 255 = a.toNat
  omega

theorem fineColors_one {s : ColorStop} {size : Nat} {c : Channels}
    (hc : c ∈ (ofStops [s] size).fineColors) : c = premultiplyFine (widen s.color) := by
  obtain ⟨i, -, rfl⟩ := Array.mem_map.mp hc
  rfl

/-- A gradient of one color is that solid color, wherever its stop is. The table is as long as asked
for, every pixel is the solid color, every 16-bit color is premultiplied without leaving 32 bits,
and dithering gives premultiplied pixels with the alpha of the color. -/
theorem ofStops_one (s : ColorStop) (size : Nat) :
    let t := ofStops [s] size
    IsLeast {n | (∃ k, n = 2 ^ k) ∧ max size 2 ≤ n} t.size ∧
      (∀ p ∈ t.colors, p = s.color.premultiplied) ∧
      (t.fineColors.size = t.size ∧ ∀ i < t.size, entry32? [s] t.size i = t.fineColors[i]?) ∧
      ∀ c ∈ t.fineColors, c.Premultiplied ∧ ∀ d ≤ 255,
        Scanline.Premultiplied (Dither.round c d) ∧ alphaOf (Dither.round c d) = s.color.a.toNat := by
  intro t
  have hsize : t.size = length size := size_ofStops [s] size
  refine ⟨hsize ▸ isLeast_length size, ?_, ⟨fineColors_size [s] size, ?_⟩, ?_⟩
  · intro p hp
    obtain ⟨c, hc, rfl⟩ := Array.mem_map.mp hp
    rw [fineColors_one hc]
    exact narrow_premultiplyFine_widen s.color
  · intro i hi
    have hentry : t.fineColors[i]? = some (entry [s] (length size) i) := by
      simp [t, ofStops, hsize ▸ hi]
    rw [hentry, hsize]
    exact entry32?_eq [s] (length size) i
  · intro c hc
    refine ⟨(premultiplied_ofStops [s] size).fine c hc, fun d _ => ⟨premultiplied_round c d, ?_⟩⟩
    rw [fineColors_one hc]
    exact alphaOf_round rfl d

/-- Half transparent red in the middle of a table that is asked to have three entries. -/
theorem ofStops_one_halfRed :
    let s : ColorStop := ⟨0.5, ⟨255, 0, 0, 128⟩⟩
    let c := premultiplyFine (widen s.color)
    (ofStops [s] 3).colors[2]? = some 0x80800000 ∧
      entry32? [s] (ofStops [s] 3).size 2 = (ofStops [s] 3).fineColors[2]? ∧
      c ∈ (ofStops [s] 3).fineColors ∧ c.Premultiplied ∧
      Scanline.Premultiplied (Dither.round c 255) ∧ alphaOf (Dither.round c 255) = 128 := by
  intro s c
  obtain ⟨-, hcolors, ⟨-, hwords⟩, hfine⟩ := ofStops_one s 3
  have hsize : (ofStops [s] 3).size = 4 := (size_ofStops [s] 3).trans (by decide)
  have hc : c ∈ (ofStops [s] 3).fineColors :=
    Array.mem_map.mpr ⟨0, Array.mem_range.mpr (by decide), rfl⟩
  obtain ⟨hpremultiplied, hround⟩ := hfine c hc
  refine ⟨?_, hwords 2 (by omega), hc, hpremultiplied, hround 255 le_rfl⟩
  have htwo : 2 < (ofStops [s] 3).colors.size := by
    rw [size] at hsize
    omega
  have hred : Color.premultiplied ⟨255, 0, 0, 128⟩ = 0x80800000 := by decide
  rw [Array.getElem?_eq_getElem htwo, hcolors _ (Array.getElem_mem htwo), hred]

end Scanline.GradientTable
