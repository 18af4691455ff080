import Scanline.Operator.Basic

/-
  What an operator reads and when it leaves the destination alone, as one record an operator
  with the word that packs it.
-/

namespace Scanline

/-- How coverage may enter an operator. -/
inductive Masking where
  /-- `f(s, d) + d * (1 - sa)`: scaling the source is enough. -/
  | scaleSource
  /-- `f(s, d)`: the result is mixed with the destination. -/
  | mixResult
  /-- Neither of the two forms. -/
  | other
  deriving DecidableEq, Repr

/-- What an operator reads, and when it changes nothing. -/
structure OperatorTraits where
  masking : Masking
  dstColor : Bool := false
  dstAlpha : Bool := false
  srcColor : Bool := false
  srcAlpha : Bool := false
  /-- Nothing changes where the destination is transparent. -/
  idleOnClearDst : Bool := false
  /-- Nothing changes where the destination is opaque. -/
  idleOnFullDst : Bool := false
  /-- A transparent source changes nothing. -/
  idleOnClearSrc : Bool := false
  /-- A source with full alpha changes nothing. -/
  idleOnFullSrc : Bool := false
  /-- Nothing ever changes. -/
  idle : Bool := false
  deriving DecidableEq, Repr

namespace OperatorTraits

/-- Whether the destination is read at all. -/
def readsDst (t : OperatorTraits) : Bool := t.dstColor || t.dstAlpha

/-- Whether the source is read at all. -/
def readsSrc (t : OperatorTraits) : Bool := t.srcColor || t.srcAlpha

/-- Whether color and alpha of both sides are read. -/
def readsAll (t : OperatorTraits) : Bool := t.dstColor && t.dstAlpha && t.srcColor && t.srcAlpha

/-- The traits as a word, one bit each. -/
def bits (t : OperatorTraits) : UInt32 :=
  (match t.masking with
    | .scaleSource => 0x00000001
    | .mixResult => 0x00000002
    | .other => 0x00000004)
    ||| (if t.dstColor then 0x00000100 else 0) ||| (if t.dstAlpha then 0x00000200 else 0)
    ||| (if t.srcColor then 0x00000400 else 0) ||| (if t.srcAlpha then 0x00000800 else 0)
    ||| (if t.idleOnClearDst then 0x00010000 else 0)
    ||| (if t.idleOnFullDst then 0x00020000 else 0)
    ||| (if t.idleOnClearSrc then 0x00040000 else 0)
    ||| (if t.idleOnFullSrc then 0x00080000 else 0)
    ||| (if t.idle then 0x80000000 else 0)

/-- Color and alpha of both sides are read, and nothing is promised yet about idling. -/
def reading (masking : Masking) : OperatorTraits :=
  { masking, dstColor := true, dstAlpha := true, srcColor := true, srcAlpha := true }

end OperatorTraits

namespace Operator
open OperatorTraits

def traits : Operator → OperatorTraits
  | srcCopy => { masking := .mixResult, srcColor := true, srcAlpha := true }
  | srcIn =>
    { masking := .mixResult, dstAlpha := true, srcColor := true, srcAlpha := true
      idleOnClearDst := true }
  | srcOut => { masking := .mixResult, dstAlpha := true, srcColor := true, srcAlpha := true }
  | srcAtop => { reading .scaleSource with idleOnClearDst := true, idleOnClearSrc := true }
  | dstOver => { reading .scaleSource with idleOnFullDst := true, idleOnClearSrc := true }
  | dstCopy => { masking := .other, dstColor := true, dstAlpha := true, idle := true }
  | dstIn =>
    { masking := .mixResult, dstColor := true, dstAlpha := true, srcAlpha := true
      idleOnFullSrc := true }
  | dstOut =>
    { masking := .scaleSource, dstColor := true, dstAlpha := true, srcAlpha := true
      idleOnClearSrc := true }
  | dstAtop => reading .mixResult
  | clear => { masking := .other, idleOnClearDst := true }
  | minus | pinLight => { reading .other with idleOnClearSrc := true }
  | modulate => { reading .mixResult with idleOnClearDst := true }
  | multiply => { reading .scaleSource with idleOnClearDst := true, idleOnClearSrc := true }
  | alphaInv => { masking := .other, dstAlpha := true }
  | srcOver | xor | plus | screen | overlay | darken | lighten | colorDodge | colorBurn
  | linearBurn | linearLight | hardLight | softLight | difference | exclusion =>
    { reading .scaleSource with idleOnClearSrc := true }

end Operator

end Scanline
