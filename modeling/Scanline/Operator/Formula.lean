import Scanline.Operator.Basic
import Scanline.Operator.FloatMix
import Scanline.Pixel.Channels

/-
  The arithmetic of the operators. A formula is either a pair of factors, a saturated sum, or a
  mix worked out for each color channel with a rule for alpha. It acts on whole pixels
  (`onColor`) and on alpha alone (`onAlpha`).
-/

namespace Scanline

/-- How an operator computes a pixel from the source `s`, the destination `d` and their alphas
`sa` and `da`. -/
inductive Formula where
  /-- Every channel is `(s * fs + d * fd) / 255`, with factors that depend on the alphas. -/
  | weighted (fs fd : Nat → Nat → Nat)
  /-- Every channel is the saturated sum of `s * 255 / 255` and `d * 255 / 255`. -/
  | saturatedSum
  /-- A color channel is `color s d sa da`, the alpha `alpha sa da`. -/
  | mixed (color : Nat → Nat → Nat → Nat → Nat) (alpha : Nat → Nat → Nat)
  /-- Every channel is `255 - da`. -/
  | invertedAlpha

namespace Formula

/-- A mix that treats alpha like a color. -/
def uniform (color : Nat → Nat → Nat → Nat → Nat) : Formula :=
  mixed color fun sa da => color sa da sa da

/-- The result on whole pixels. -/
def onColor (f : Formula) (dst src : UInt32) : UInt32 :=
  let s := unpack src
  let d := unpack dst
  match f with
  | weighted fs fd =>
    let ws := fs s.a d.a
    let wd := fd s.a d.a
    (s.zipWith (fun cs cd => div255 (cs * ws + cd * wd)) d).pack
  | saturatedSum =>
    (s.zipWith (fun cs cd => addSat (div255 (cs * 255)) (div255 (cd * 255))) d).pack
  | mixed color alpha =>
    Channels.pack
      ⟨color s.b d.b s.a d.a, color s.g d.g s.a d.a, color s.r d.r s.a d.a, alpha s.a d.a⟩
  | invertedAlpha => (Channels.splat (255 - d.a)).pack

/-- The result on the alphas of two pixels, as a pixel without color. -/
def onAlpha (f : Formula) (dst src : UInt32) : UInt32 :=
  let sa := alphaOf src
  let da := alphaOf dst
  ofAlpha <| min 255 <| match f with
    | weighted fs fd => div255 (sa * fs sa da + da * fd sa da)
    | saturatedSum => addSat (div255 (sa * 255)) (div255 (da * 255))
    | mixed _ alpha => alpha sa da
    | invertedAlpha => 255 - da

/-- A saturated sum adds the channels as they are. -/
theorem onColor_saturatedSum (dst src : UInt32) :
    saturatedSum.onColor dst src = ((unpack src).zipWith addSat (unpack dst)).pack := by
  obtain ⟨hsb, hsg, hsr, hsa⟩ := unpack_le src
  obtain ⟨hdb, hdg, hdr, hda⟩ := unpack_le dst
  simp only [onColor, Channels.zipWith, div255_mul_255, unpack_a, *]

theorem onAlpha_saturatedSum (dst src : UInt32) :
    saturatedSum.onAlpha dst src = ofAlpha (min 255 (addSat (alphaOf src) (alphaOf dst))) := by
  have hs := Nat.le_of_lt_succ (alphaOf_lt src)
  have hd := Nat.le_of_lt_succ (alphaOf_lt dst)
  simp only [onAlpha, div255_mul_255, hs, hd]

end Formula

namespace ColorMix

/-- `sa + da - sa * da` for alphas as fractions of 255, rounded once. -/
def unionAlpha (sa da : Nat) : Nat := div255 (sa * 255 + da * (255 - sa))

/-- `sa + da - sa * da` with the product rounded. -/
def coveredAlpha (sa da : Nat) : Nat := da + sa - mul255 sa da

/-- Cuts a product of two 8-bit values to its range and divides it by 255. -/
def div255Clamped (v : Int) : Nat := div255 (min v.toNat 65025)

def minus (s d _sa da : Nat) : Nat := min 255 (d - s + mul255 s (255 - da))

def minusAlpha (sa da : Nat) : Nat := da + mul255 sa (255 - da)

def modulate (s d _sa _da : Nat) : Nat := mul255 s d

def multiply (s d sa da : Nat) : Nat :=
  min 255 (div255 (d * (s + 255 - sa) + s * (255 - da)))

def screen (s d _sa _da : Nat) : Nat := s + mul255 d (255 - s)

/-- Multiplies or screens; `chosen` says which. -/
def contrast (chosen : Bool) (s d sa da : Nat) : Nat :=
  let sum : Int := (d + s) * 255
  let cross : Int := (d : Int) * sa + s * da - 2 * s * d
  div255Clamped (if chosen then sum - cross else sum + cross - sa * da)

def overlay (s d sa da : Nat) : Nat := contrast (2 * d < da) s d sa da

def hardLight (s d sa da : Nat) : Nat := contrast (2 * s < sa) s d sa da

def darken (s d sa da : Nat) : Nat :=
  min (d + mul255 s (255 - da)) (s + mul255 d (255 - sa))

def lighten (s d sa da : Nat) : Nat :=
  max (d + mul255 s (255 - da)) (s + mul255 d (255 - sa))

def colorDodge (s d sa da : Nat) : Nat :=
  min 255 (div255 (FloatMix.dodge s d sa da + s * (255 - da) + d * (255 - sa)))

def colorBurn (s d sa da : Nat) : Nat :=
  min 255 (div255 (FloatMix.burn s d sa da + s * (255 - da) + d * (255 - sa)))

def linearBurn (s d sa da : Nat) : Nat := min 255 (d + s - mul255 sa da)

def linearLight (s d sa da : Nat) : Nat :=
  let light : Int := max 0 (min ((d : Int) * sa + 2 * s * da - sa * da) (sa * da))
  div255Clamped (light + s * (255 - da) + d * (255 - sa))

def pinLight (s d sa da : Nat) : Nat :=
  let sum : Int := (d + s) * 255
  let darker : Int := sum - s * da
  let lighter : Int := sum + s * da - d * sa
  div255Clamped (if 2 * s ≤ sa then min darker lighter else max darker (lighter - da * sa))

def difference (s d sa da : Nat) : Nat := d + s - 2 * div255 (min (s * da) (d * sa))

def exclusion (s d _sa _da : Nat) : Nat := d + s - 2 * mul255 s d

end ColorMix

namespace Operator
open Formula

/-- The arithmetic of each operator. -/
def formula : Operator → Formula
  | srcOver => weighted (fun _ _ => 255) (fun sa _ => 255 - sa)
  | srcCopy => weighted (fun _ _ => 255) (fun _ _ => 0)
  | srcIn => weighted (fun _ da => da) (fun _ _ => 0)
  | srcOut => weighted (fun _ da => 255 - da) (fun _ _ => 0)
  | srcAtop => weighted (fun _ da => da) (fun sa _ => 255 - sa)
  | dstOver => weighted (fun _ da => 255 - da) (fun _ _ => 255)
  | dstCopy => weighted (fun _ _ => 0) (fun _ _ => 255)
  | dstIn => weighted (fun _ _ => 0) (fun sa _ => sa)
  | dstOut => weighted (fun _ _ => 0) (fun sa _ => 255 - sa)
  | dstAtop => weighted (fun _ da => 255 - da) (fun sa _ => sa)
  | xor => weighted (fun _ da => 255 - da) (fun sa _ => 255 - sa)
  | clear => weighted (fun _ _ => 0) (fun _ _ => 0)
  | plus => saturatedSum
  | minus => mixed ColorMix.minus ColorMix.minusAlpha
  | modulate => uniform ColorMix.modulate
  | multiply => uniform ColorMix.multiply
  | screen => uniform ColorMix.screen
  | overlay => uniform ColorMix.overlay
  | darken => uniform ColorMix.darken
  | lighten => uniform ColorMix.lighten
  | colorDodge => mixed ColorMix.colorDodge ColorMix.unionAlpha
  | colorBurn => mixed ColorMix.colorBurn ColorMix.unionAlpha
  | linearBurn => uniform ColorMix.linearBurn
  | linearLight => uniform ColorMix.linearLight
  | pinLight => uniform ColorMix.pinLight
  | hardLight => uniform ColorMix.hardLight
  | softLight => mixed FloatMix.softLight ColorMix.unionAlpha
  | difference => mixed ColorMix.difference ColorMix.coveredAlpha
  | exclusion => mixed ColorMix.exclusion ColorMix.coveredAlpha
  | alphaInv => invertedAlpha

/-- Combines two premultiplied pixels. -/
def onColor (op : Operator) (dst src : UInt32) : UInt32 := op.formula.onColor dst src

/-- Combines the alphas of two pixels. -/
def onAlpha (op : Operator) (dst src : UInt32) : UInt32 := op.formula.onAlpha dst src

/-- The operator's arithmetic as it stands in the description of a record. -/
def describeKernel (op : Operator) : String := s!"CompOpKernel({op.label})"

end Operator

/-- Mixes two 8-bit values by the coverage `m` of 255, in 32-bit words. A coverage beyond 255 goes
around them. -/
def mixChannel (m r d : Nat) : Nat :=
  let v : UInt32 := .ofNat r * .ofNat m + .ofNat d * (255 - .ofNat m) + 128
  ((v + v >>> 8) >>> 8).toNat

/-- Mixes the result of an operator with the destination by the coverage `m` of 255. -/
def applyMask (res dst : UInt32) (m : Nat) : UInt32 :=
  if m = 255 then res
  else if m = 0 then dst
  else ((unpack res).zipWith (mixChannel m) (unpack dst)).pack

/-- Up to a coverage of 255 the words have room for the mix. -/
theorem mixChannel_eq {m r d : Nat} (hm : m ≤ 255) (hr : r ≤ 255) (hd : d ≤ 255) :
    mixChannel m r d = div255 (r * m + d * (255 - m)) := by
  have word {v : Nat} (hv : v ≤ 255) : (UInt32.ofNat v).toNat = v :=
    UInt32.toNat_ofNat_of_lt (Nat.lt_of_le_of_lt hv (by decide))
  have hrest : (255 - UInt32.ofNat m).toNat = 255 - m := by
    have hle : UInt32.ofNat m ≤ 255 := by
      rw [UInt32.le_iff_toNat_le, word hm]
      exact hm
    rw [UInt32.toNat_sub_of_le _ _ hle, word hm]
    rfl
  have hrm : r * m ≤ 255 * 255 := Nat.mul_le_mul hr hm
  have hdm : d * (255 - m) ≤ 255 * 255 := Nat.mul_le_mul hd (Nat.sub_le _ _)
  unfold mixChannel div255
  simp only [UInt32.toNat_shiftRight, UInt32.toNat_add, UInt32.toNat_mul, hrest, word hr, word hm,
    word hd, UInt32.reduceToNat, Nat.reduceMod, Nat.shiftRight_eq_div_pow]
  omega

end Scanline
