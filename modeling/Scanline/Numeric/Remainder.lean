import Scanline.Numeric.FloatValue

/-
  The exact remainder of two doubles: `x` less the multiple of `y` that leaves the sign of `x`
  and a size below that of `y`. No rounding takes place, since the result is always a double.
-/

namespace Scanline

/-- The double `± r * 2^e`, for numbers that have one. -/
def exactDouble (negative : Bool) (r : Nat) (e : Int) : Float :=
  let sign : Nat := if negative then 1 <<< 63 else 0
  let scaled (k : Int) : Nat := if 0 ≤ k then r <<< k.toNat else r >>> (-k).toNat
  let bits :=
    if r = 0 then 0
    else
      let top : Int := r.log2 + e
      if top < -1022 then scaled (e + 1074)
      else (top + 1023).toNat <<< 52 + scaled (e - top + 52) % 1 <<< 52
  Float.ofBits (UInt64.ofNat (sign + bits))

/-- The remainder of `x` by `y`, with the sign of `x`. -/
def floatRemainder (x y : Float) : Float :=
  match FloatValue.ofFloat x, FloatValue.ofFloat y with
  | .finite negative mx ex, .finite _ my ey =>
    if my = 0 then 0 / 0
    else
      let e := min ex ey
      exactDouble negative (mx <<< (ex - e).toNat % my <<< (ey - e).toNat) e
  | .finite .., .infinite _ => x
  | _, _ => 0 / 0

end Scanline
