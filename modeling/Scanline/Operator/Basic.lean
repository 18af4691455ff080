/-
  Compositing operators. Twenty-nine of them can be asked for; `alphaInv` only arises when an
  operator on alpha alone is replaced by a cheaper one.
  `ofId?_id`: every operator is read back from its id.
-/

namespace Scanline

/-- How a source pixel is combined with a destination pixel. -/
inductive Operator where
  | srcOver
  | srcCopy
  | srcIn
  | srcOut
  | srcAtop
  | dstOver
  | dstCopy
  | dstIn
  | dstOut
  | dstAtop
  | xor
  | clear
  | plus
  | minus
  | modulate
  | multiply
  | screen
  | overlay
  | darken
  | lighten
  | colorDodge
  | colorBurn
  | linearBurn
  | linearLight
  | pinLight
  | hardLight
  | softLight
  | difference
  | exclusion
  /-- The destination alpha `a` becomes `255 - a`. -/
  | alphaInv
  deriving DecidableEq, Repr

namespace Operator

/-- All operators; the place of an operator is its id. -/
def all : List Operator :=
  [srcOver, srcCopy, srcIn, srcOut, srcAtop, dstOver, dstCopy, dstIn, dstOut, dstAtop, xor, clear,
    plus, minus, modulate, multiply, screen, overlay, darken, lighten, colorDodge, colorBurn,
    linearBurn, linearLight, pinLight, hardLight, softLight, difference, exclusion, alphaInv]

def id : Operator → Nat
  | srcOver => 0
  | srcCopy => 1
  | srcIn => 2
  | srcOut => 3
  | srcAtop => 4
  | dstOver => 5
  | dstCopy => 6
  | dstIn => 7
  | dstOut => 8
  | dstAtop => 9
  | xor => 10
  | clear => 11
  | plus => 12
  | minus => 13
  | modulate => 14
  | multiply => 15
  | screen => 16
  | overlay => 17
  | darken => 18
  | lighten => 19
  | colorDodge => 20
  | colorBurn => 21
  | linearBurn => 22
  | linearLight => 23
  | pinLight => 24
  | hardLight => 25
  | softLight => 26
  | difference => 27
  | exclusion => 28
  | alphaInv => 29

def ofId? (i : Nat) : Option Operator := all[i]?

def label : Operator → String
  | srcOver => "SrcOver"
  | srcCopy => "SrcCopy"
  | srcIn => "SrcIn"
  | srcOut => "SrcOut"
  | srcAtop => "SrcAtop"
  | dstOver => "DstOver"
  | dstCopy => "DstCopy"
  | dstIn => "DstIn"
  | dstOut => "DstOut"
  | dstAtop => "DstAtop"
  | xor => "Xor"
  | clear => "Clear"
  | plus => "Plus"
  | minus => "Minus"
  | modulate => "Modulate"
  | multiply => "Multiply"
  | screen => "Screen"
  | overlay => "Overlay"
  | darken => "Darken"
  | lighten => "Lighten"
  | colorDodge => "ColorDodge"
  | colorBurn => "ColorBurn"
  | linearBurn => "LinearBurn"
  | linearLight => "LinearLight"
  | pinLight => "PinLight"
  | hardLight => "HardLight"
  | softLight => "SoftLight"
  | difference => "Difference"
  | exclusion => "Exclusion"
  | alphaInv => "AlphaInv"

/-- Whether a caller may ask for the operator. -/
def isPublic (op : Operator) : Bool := op != alphaInv

theorem ofId?_id (op : Operator) : ofId? op.id = some op := by cases op <;> rfl

end Operator

end Scanline
