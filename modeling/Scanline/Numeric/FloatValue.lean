import Scanline.Numeric.Word

/-
  What floats stand for. The bits of a float are taken apart into a sign, a whole number and a
  power of two; rounding to integers is then exact arithmetic. Numbers out of range go to the
  nearer end of the range, and what is not a number goes to zero.
-/

namespace Scanline

/-- The meaning of a float. -/
inductive FloatValue where
  | undefined
  | infinite (negative : Bool)
  /-- The number `± m * 2^e`. -/
  | finite (negative : Bool) (m : Nat) (e : Int)
  deriving DecidableEq, Repr

namespace FloatValue

/-- Reads bits that hold a sign, `expBits` bits of exponent and `manBits` bits of mantissa. -/
def ofBits (expBits manBits bits : Nat) : FloatValue :=
  let man := bits % 1 <<< manBits
  let exp := bits >>> manBits % 1 <<< expBits
  let negative := bits >>> (manBits + expBits) % 2 == 1
  let least : Int := 2 - (1 <<< (expBits - 1) : Nat) - manBits
  if exp = 1 <<< expBits - 1 then
    if man = 0 then infinite negative else undefined
  else if exp = 0 then finite negative man least
  else finite negative (man + 1 <<< manBits) (exp - 1 + least)

def ofFloat (x : Float) : FloatValue := ofBits 11 52 x.toBits.toNat

def ofFloat32 (x : Float32) : FloatValue := ofBits 8 23 x.toBits.toNat

/-- The whole part of `m * 2^e`, and whether something is left over. -/
def wholePart (m : Nat) (e : Int) : Nat × Bool :=
  if 0 ≤ e then (m <<< e.toNat, false)
  else
    let d := 1 <<< (-e).toNat
    (m / d, m % d != 0)

/-- The number toward zero. -/
def truncateFinite (negative : Bool) (m : Nat) (e : Int) : Int :=
  let n : Int := (wholePart m e).1
  if negative then -n else n

/-- The largest integer that is not above the number. -/
def floorFinite (negative : Bool) (m : Nat) (e : Int) : Int :=
  let (n, rest) := wholePart m e
  if negative then -(if rest then n + 1 else n : Nat) else n

/-- The nearest integer, the even one of two. -/
def nearestFinite (negative : Bool) (m : Nat) (e : Int) : Int :=
  let n : Nat :=
    if 0 ≤ e then m <<< e.toNat
    else
      let d := 1 <<< (-e).toNat
      let q := m / d
      let r := 2 * (m % d)
      if r < d then q else if d < r then q + 1 else if q % 2 = 0 then q else q + 1
  if negative then -(n : Int) else n

/-- Rounds into `lo` to `hi`. -/
def roundInto (round : Bool → Nat → Int → Int) (lo hi : Int) : FloatValue → Int
  | undefined => 0
  | infinite negative => if negative then lo else hi
  | finite negative m e => clampInt lo hi (round negative m e)

/-- Toward zero, into `lo` to `hi`. -/
def truncateInto (lo hi : Int) (v : FloatValue) : Int := v.roundInto truncateFinite lo hi

/-- Downward, into `lo` to `hi`. -/
def floorInto (lo hi : Int) (v : FloatValue) : Int := v.roundInto floorFinite lo hi

/-- To the nearest integer, a half to the even one, into `lo` to `hi`. -/
def nearestInto (lo hi : Int) (v : FloatValue) : Int := v.roundInto nearestFinite lo hi

theorem roundInto_mem (round : Bool → Nat → Int → Int) {lo hi : Int} (hlo : lo ≤ 0)
    (hhi : 0 ≤ hi) (v : FloatValue) :
    lo ≤ v.roundInto round lo hi ∧ v.roundInto round lo hi ≤ hi := by
  cases v with
  | undefined => exact ⟨hlo, hhi⟩
  | infinite negative => cases negative <;> simp [roundInto] <;> omega
  | finite negative m e => exact clampInt_mem (by omega) _

end FloatValue

/-- A double as a 32-bit integer, toward zero. -/
def truncateToInt32 (x : Float) : Int := (FloatValue.ofFloat x).truncateInto minInt32 maxInt32

/-- A double as a 64-bit integer, downward. -/
def floorToInt64 (x : Float) : Int := (FloatValue.ofFloat x).floorInto minInt64 maxInt64

end Scanline
