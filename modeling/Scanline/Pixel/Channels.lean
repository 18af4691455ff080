/-
  Packed pixels and their channels. A packed pixel is `a * 2^24 + r * 2^16 + g * 2^8 + b`; its
  channels are held as numbers, so that products and sums of channels have room.
  `unpack_pack`: channels up to 255 survive packing. `pack_unpack`: so does every packed pixel.
-/

namespace Scanline

/-- The four channels of a pixel. -/
structure Channels where
  b : Nat
  g : Nat
  r : Nat
  a : Nat
  deriving DecidableEq, Repr

/-- A product of two 8-bit values divided by 255, rounded to nearest. -/
def div255 (v : Nat) : Nat := (v + 128 + (v + 128) / 256) / 256

/-- The product of two 8-bit values that stand for fractions of 255. -/
def mul255 (x y : Nat) : Nat := div255 (x * y)

/-- The sum of two 8-bit values, at most 255. -/
def addSat (x y : Nat) : Nat := if x + y < 256 then x + y else 255

namespace Channels

def map (f : Nat → Nat) (c : Channels) : Channels := ⟨f c.b, f c.g, f c.r, f c.a⟩

def zipWith (f : Nat → Nat → Nat) (c d : Channels) : Channels :=
  ⟨f c.b d.b, f c.g d.g, f c.r d.r, f c.a d.a⟩

/-- The same value in every channel. -/
def splat (v : Nat) : Channels := ⟨v, v, v, v⟩

/-- The packed pixel of the channels, each cut at 255. -/
def pack (c : Channels) : UInt32 :=
  UInt32.ofNat
    (min c.b 255 + min c.g 255 * 0x100 + min c.r 255 * 0x10000 + min c.a 255 * 0x1000000)

end Channels

/-- The channels of a packed pixel. -/
def unpack (p : UInt32) : Channels :=
  ⟨p.toNat % 256, p.toNat / 0x100 % 256, p.toNat / 0x10000 % 256, p.toNat / 0x1000000⟩

/-- The alpha channel of a packed pixel. -/
def alphaOf (p : UInt32) : Nat := p.toNat / 0x1000000

/-- A packed pixel with the given alpha and no color. -/
def ofAlpha (a : Nat) : UInt32 := UInt32.ofNat (a % 256 * 0x1000000)

/-- The pixel with its alpha set to 255. -/
def withFullAlpha (p : UInt32) : UInt32 := p ||| 0xFF000000

theorem alphaOf_lt (p : UInt32) : alphaOf p < 256 := by
  have := p.toNat_lt
  unfold alphaOf; omega

theorem unpack_le (p : UInt32) :
    (unpack p).b ≤ 255 ∧ (unpack p).g ≤ 255 ∧ (unpack p).r ≤ 255 ∧ alphaOf p ≤ 255 := by
  have := alphaOf_lt p
  simp only [unpack]
  omega

/-- What has been multiplied by 255 comes back from dividing by it. -/
theorem div255_mul_255 {v : Nat} (h : v ≤ 255) : div255 (v * 255) = v := by
  unfold div255
  omega

theorem unpack_a (p : UInt32) : (unpack p).a = alphaOf p := rfl

theorem unpack_pack {c : Channels} (hb : c.b ≤ 255) (hg : c.g ≤ 255) (hr : c.r ≤ 255)
    (ha : c.a ≤ 255) : unpack c.pack = c := by
  obtain ⟨b, g, r, a⟩ := c
  simp only [unpack, Channels.pack, UInt32.toNat_ofNat', Channels.mk.injEq] at *
  omega

theorem pack_unpack (p : UInt32) : (unpack p).pack = p := by
  have := p.toNat_lt
  apply UInt32.toNat.inj
  simp only [unpack, Channels.pack, UInt32.toNat_ofNat']
  omega

theorem alphaOf_ofAlpha {a : Nat} (h : a < 256) : alphaOf (ofAlpha a) = a := by
  simp only [alphaOf, ofAlpha, UInt32.toNat_ofNat']
  omega

end Scanline
