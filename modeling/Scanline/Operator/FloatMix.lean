import Scanline.Numeric.Extremes

/-
  The three color mixes that divide or take a root. They are evaluated in single precision on
  8-bit channels and give back 8-bit values.
-/

namespace Scanline.FloatMix

/-- The part of a float before the point, for floats from zero on. -/
def whole (x : Float32) : Nat := x.toUInt32.toNat

/-- The nearest number from 0 to 255; a half goes up. -/
def nearestByte (x : Float32) : Nat :=
  let n := whole x
  min 255 (if 0.5 ≤ x - Float32.ofNat n then n + 1 else n)

/-- `d * sa * sa / (sa - s)`, at most `sa * da`: brightens the destination. -/
def dodge (s d sa da : Nat) : Nat :=
  let fs := Float32.ofNat s
  let fd := Float32.ofNat d
  let fsa := Float32.ofNat sa
  let fda := Float32.ofNat da
  whole (smaller (fd * fsa * fsa / larger (fsa - fs) 0.001) (fsa * fda))

/-- `sa * da` less `(da - d) * sa * sa / s`, at least 0: darkens the destination. -/
def burn (s d sa da : Nat) : Nat :=
  let fs := Float32.ofNat s
  let fd := Float32.ofNat d
  let fsa := Float32.ofNat sa
  let fda := Float32.ofNat da
  let sada := fsa * fda
  whole (sada - smaller sada ((fda - fd) * fsa * fsa / larger fs 0.001))

/-- Darkens or brightens the destination softly, depending on the source. -/
def softLight (s d sa da : Nat) : Nat :=
  let fs := Float32.ofNat s / 255
  let fd := Float32.ofNat d / 255
  let fsa := Float32.ofNat sa / 255
  let fda := Float32.ofNat da / 255
  let c := fd / larger fda 0.001
  let k := 2 * fs - fsa
  let x :=
    if k ≤ 0 then c * (1 - c)
    else if 4 * c ≤ 1 then ((16 * c - 12) * c + 4) * c - c
    else c.sqrt - c
  nearestByte ((fd + fs * (1 - fda) + k * fda * x) * 255)

end Scanline.FloatMix
