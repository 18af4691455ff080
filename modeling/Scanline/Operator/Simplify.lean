import Scanline.Operator.Basic
import Scanline.Pixel.Format

/-
  Cheaper operators. What is known about the two formats often lets an operator be replaced by
  another one, by other formats, or by a solid source: an opaque source drawn over anything is a
  copy, clearing is a copy of a transparent color. `simplify` holds the rules; `simplify?` reads
  the same answers from a table (`simplify?_eq_some`).

  In the rules `P` is `prgb32`, `X` is `xrgb32`, `A` is `a8`, `F` is `frgb32` and `Z` is `zero32`.
-/

namespace Scanline

/-- What becomes of the source after simplification. -/
inductive Substitute where
  /-- The source is used as it is. -/
  | keep
  /-- Transparent black stands for the source. -/
  | transparent
  /-- Opaque black stands for the source. -/
  | opaqueBlack
  /-- Opaque white stands for the source. -/
  | opaqueWhite
  /-- Nothing is drawn. -/
  | skip
  deriving DecidableEq, Repr

namespace Substitute

/-- All substitutes; the place of one is its id. -/
def all : List Substitute := [keep, transparent, opaqueBlack, opaqueWhite, skip]

def id : Substitute → Nat
  | keep => 0
  | transparent => 1
  | opaqueBlack => 2
  | opaqueWhite => 3
  | skip => 4

def ofId? (i : Nat) : Option Substitute := all[i]?

def label : Substitute → String
  | keep => "None"
  | transparent => "Transparent"
  | opaqueBlack => "OpaqueBlack"
  | opaqueWhite => "OpaqueWhite"
  | skip => "AlwaysNop"

/-- The premultiplied color that stands for the source. -/
def color? : Substitute → Option UInt32
  | transparent => some 0x00000000
  | opaqueBlack => some 0xFF000000
  | opaqueWhite => some 0xFFFFFFFF
  | keep | skip => none

theorem ofId?_id (x : Substitute) : ofId? x.id = some x := by cases x <;> rfl

end Substitute

/-- An operator with the formats it runs on and what becomes of its source. -/
structure Simplified where
  op : Operator
  dst : PixelFormat
  src : PixelFormat
  solid : Substitute
  deriving DecidableEq, Repr

namespace Simplified

/-- The answer for an operation that never changes the destination. -/
def nothing : Simplified := ⟨.dstCopy, .none, .none, .skip⟩

/-- The source is kept. -/
def keeping (op : Operator) (d s : PixelFormat) : Simplified := ⟨op, d, s, .keep⟩

/-- The record packed in a word: destination, source, operator from bit 8, substitute from
bit 16. -/
def bits (x : Simplified) : UInt32 :=
  UInt32.ofNat x.dst.id ||| UInt32.ofNat x.src.id <<< 4 ||| UInt32.ofNat x.op.id <<< 8
    ||| UInt32.ofNat x.solid.id <<< 16

/-- The part of the word that a signature shares. -/
def signatureBits (x : Simplified) : UInt32 := x.bits &&& 0x3FFF

/-- The record as text. -/
def describe (x : Simplified) : String :=
  s!"CompOpSimplifyInfo \x7b comp_op: {x.op.label}, dst_format: {x.dst.label}, src_format: {x.src.label}, solid_id: {x.solid.label} \x7d"

end Simplified

namespace Simplify
open Operator PixelFormat Simplified

/-- `dca = 0`, `da = 0`; a destination without alpha becomes opaque black. -/
def clear (d s : PixelFormat) : Simplified :=
  match d with
  | prgb32 => ⟨srcCopy, prgb32, prgb32, .transparent⟩
  | xrgb32 => ⟨srcCopy, prgb32, prgb32, .opaqueBlack⟩
  | a8 => ⟨srcCopy, a8, prgb32, .transparent⟩
  | _ => keeping .clear d s

/-- `dca = sca`, `da = sa`. -/
def copySrc (d s : PixelFormat) : Simplified :=
  match d, s with
  | prgb32, zero32 | prgb32, frgb32 | xrgb32, frgb32 => keeping srcCopy prgb32 prgb32
  | xrgb32, prgb32 | xrgb32, zero32 | xrgb32, xrgb32 => keeping srcCopy prgb32 xrgb32
  | a8, zero32 => clear a8 zero32
  | a8, xrgb32 | a8, frgb32 => ⟨srcCopy, a8, prgb32, .opaqueWhite⟩
  | _, _ => keeping srcCopy d s

/-- `dca = sca + dca * (1 - sa)`, `da = sa + da * (1 - sa)`. -/
def overDst (d s : PixelFormat) : Simplified :=
  match d, s with
  | prgb32, zero32 | xrgb32, zero32 | a8, zero32 => nothing
  | prgb32, xrgb32 | xrgb32, xrgb32 => copySrc prgb32 xrgb32
  | prgb32, frgb32 | xrgb32, frgb32 => copySrc prgb32 frgb32
  | xrgb32, prgb32 => keeping srcOver prgb32 prgb32
  | a8, xrgb32 => copySrc a8 xrgb32
  | a8, frgb32 => copySrc a8 frgb32
  | _, _ => keeping srcOver d s

/-- `dca = dca + sca * (1 - da)`, `da = da + sa * (1 - da)`. -/
def underDst (d s : PixelFormat) : Simplified :=
  match d, s with
  | prgb32, zero32 => nothing
  | prgb32, frgb32 => keeping dstOver prgb32 prgb32
  | xrgb32, _ => nothing
  | a8, s => overDst a8 s
  | _, _ => keeping dstOver d s

/-- `dca = sca * da`, `da = sa * da`. -/
def srcInside (d s : PixelFormat) : Simplified :=
  match d, s with
  | prgb32, zero32 | prgb32, frgb32 => keeping srcIn prgb32 prgb32
  | xrgb32, s => copySrc xrgb32 s
  | a8, zero32 => clear a8 zero32
  | a8, xrgb32 | a8, frgb32 => nothing
  | _, _ => keeping srcIn d s

/-- `dca = dca * sa`, `da = da * sa`. -/
def dstInside (d s : PixelFormat) : Simplified :=
  match d, s with
  | prgb32, zero32 => copySrc prgb32 zero32
  | prgb32, xrgb32 | prgb32, frgb32 => nothing
  | xrgb32, prgb32 => keeping dstIn prgb32 prgb32
  | xrgb32, zero32 | xrgb32, xrgb32 | xrgb32, frgb32 => nothing
  | a8, s => srcInside a8 s
  | _, _ => keeping dstIn d s

/-- `dca = sca * (1 - da)`, `da = sa * (1 - da)`. -/
def srcOutside (d s : PixelFormat) : Simplified :=
  match d, s with
  | prgb32, zero32 => clear prgb32 zero32
  | prgb32, frgb32 => keeping srcOut prgb32 prgb32
  | xrgb32, s => clear xrgb32 s
  | a8, zero32 => clear a8 zero32
  | a8, xrgb32 | a8, frgb32 => ⟨alphaInv, a8, xrgb32, .opaqueWhite⟩
  | _, _ => keeping srcOut d s

/-- `dca = dca * (1 - sa)`, `da = da * (1 - sa)`. -/
def dstOutside (d s : PixelFormat) : Simplified :=
  match d, s with
  | prgb32, zero32 | xrgb32, zero32 | a8, zero32 => nothing
  | prgb32, xrgb32 | prgb32, frgb32 => clear prgb32 s
  | xrgb32, xrgb32 | xrgb32, frgb32 => clear xrgb32 s
  | a8, xrgb32 | a8, frgb32 => clear a8 s
  | _, _ => keeping dstOut d s

/-- `dca = sca * da + dca * (1 - sa)`, `da = da`. -/
def srcOnTop (d s : PixelFormat) : Simplified :=
  match d, s with
  | prgb32, zero32 => nothing
  | prgb32, xrgb32 | prgb32, frgb32 => srcInside prgb32 s
  | xrgb32, prgb32 | xrgb32, zero32 => overDst xrgb32 s
  | xrgb32, xrgb32 | xrgb32, frgb32 => copySrc xrgb32 s
  | a8, _ => nothing
  | _, _ => keeping srcAtop d s

/-- `dca = dca * sa + sca * (1 - da)`, `da = sa`. -/
def dstOnTop (d s : PixelFormat) : Simplified :=
  match d, s with
  | prgb32, zero32 => clear prgb32 zero32
  | prgb32, xrgb32 | prgb32, frgb32 => underDst prgb32 s
  | xrgb32, prgb32 => dstInside xrgb32 prgb32
  | xrgb32, zero32 => clear xrgb32 zero32
  | xrgb32, xrgb32 | xrgb32, frgb32 => nothing
  | a8, s => copySrc a8 s
  | _, _ => keeping dstAtop d s

/-- `dca = sca * (1 - da) + dca * (1 - sa)`, `da = sa + da - 2 * sa * da`. -/
def exclusive (d s : PixelFormat) : Simplified :=
  match d, s with
  | prgb32, zero32 | xrgb32, zero32 | a8, zero32 => nothing
  | prgb32, xrgb32 | prgb32, frgb32 => srcOutside prgb32 s
  | xrgb32, prgb32 => dstOutside xrgb32 prgb32
  | xrgb32, xrgb32 | xrgb32, frgb32 => clear xrgb32 s
  | a8, xrgb32 | a8, frgb32 => ⟨alphaInv, a8, xrgb32, .opaqueWhite⟩
  | _, _ => keeping xor d s

/-- `dca = sca + dca`, `da = sa + da`. -/
def plus (d s : PixelFormat) : Simplified :=
  match d, s with
  | prgb32, zero32 | xrgb32, zero32 | a8, zero32 => nothing
  | prgb32, frgb32 | xrgb32, prgb32 | xrgb32, xrgb32 | xrgb32, frgb32 =>
    keeping .plus prgb32 prgb32
  | a8, xrgb32 | a8, frgb32 => ⟨.plus, a8, prgb32, .opaqueWhite⟩
  | _, _ => keeping .plus d s

/-- `dca = dca - sca`, `da = da + sa * (1 - da)`. -/
def minus (d s : PixelFormat) : Simplified :=
  match d, s with
  | prgb32, zero32 | xrgb32, zero32 => nothing
  | prgb32, frgb32 | xrgb32, prgb32 | xrgb32, frgb32 | xrgb32, xrgb32 =>
    keeping .minus prgb32 prgb32
  | a8, s => overDst a8 s
  | _, _ => keeping .minus d s

/-- `dca = dca * sca`, `da = da * sa`. -/
def modulate (d s : PixelFormat) : Simplified :=
  match d, s with
  | prgb32, zero32 => ⟨srcCopy, prgb32, prgb32, .transparent⟩
  | prgb32, frgb32 => keeping .modulate prgb32 prgb32
  | xrgb32, zero32 => ⟨srcCopy, prgb32, prgb32, .opaqueBlack⟩
  | xrgb32, frgb32 | xrgb32, xrgb32 => keeping .modulate xrgb32 prgb32
  | a8, s => dstInside a8 s
  | d, a8 => dstInside d a8
  | _, _ => keeping .modulate d s

def multiply (d s : PixelFormat) : Simplified :=
  match d, s with
  | prgb32, zero32 | xrgb32, zero32 => nothing
  | prgb32, frgb32 => keeping .multiply prgb32 xrgb32
  | xrgb32, frgb32 | xrgb32, xrgb32 => modulate xrgb32 xrgb32
  | a8, s => underDst a8 s
  | d, a8 => underDst d a8
  | _, _ => keeping .multiply d s

def screen (d s : PixelFormat) : Simplified :=
  match d, s with
  | prgb32, zero32 | xrgb32, zero32 => nothing
  | prgb32, frgb32 | xrgb32, prgb32 | xrgb32, frgb32 => keeping .screen prgb32 prgb32
  | xrgb32, xrgb32 => keeping .screen prgb32 xrgb32
  | a8, s => overDst a8 s
  | d, a8 => overDst d a8
  | _, _ => keeping .screen d s

def overlay (d s : PixelFormat) : Simplified :=
  match d, s with
  | prgb32, zero32 | xrgb32, zero32 => nothing
  | prgb32, frgb32 => keeping .overlay prgb32 xrgb32
  | xrgb32, frgb32 => keeping .overlay xrgb32 xrgb32
  | a8, s => overDst a8 s
  | _, _ => keeping .overlay d s

/-- What a blend mode becomes where one side has no color. -/
inductive Colorless where
  /-- Drawn under the destination when either side is `a8`. -/
  | underEither
  /-- Drawn over the destination when either side is `a8`. -/
  | overEither
  /-- Drawn over the destination when the destination is `a8`. -/
  | overDst
  deriving DecidableEq, Repr

/-- The rules that the remaining blend modes share. An opaque source counts as `pf` over a `P`
destination and as `xf` over an `X` one. -/
def blend (op : Operator) (pf xf : PixelFormat) (colorless : Colorless) (d s : PixelFormat) :
    Simplified :=
  match d, s with
  | prgb32, zero32 | xrgb32, zero32 => nothing
  | prgb32, frgb32 => keeping op prgb32 pf
  | xrgb32, frgb32 => keeping op xrgb32 xf
  | d, s =>
    match colorless with
    | .underEither => if d = a8 ∨ s = a8 then underDst d s else keeping op d s
    | .overEither => if d = a8 ∨ s = a8 then overDst d s else keeping op d s
    | .overDst => if d = a8 then overDst d s else keeping op d s

end Simplify

namespace Operator
open PixelFormat

/-- The operator to run in place of `op` on a destination and a source of the given formats. -/
def simplify (op : Operator) (d s : PixelFormat) : Simplified :=
  match op with
  | srcOver => Simplify.overDst d s
  | srcCopy => Simplify.copySrc d s
  | srcIn => Simplify.srcInside d s
  | srcOut => Simplify.srcOutside d s
  | srcAtop => Simplify.srcOnTop d s
  | dstOver => Simplify.underDst d s
  | dstCopy => .nothing
  | dstIn => Simplify.dstInside d s
  | dstOut => Simplify.dstOutside d s
  | dstAtop => Simplify.dstOnTop d s
  | xor => Simplify.exclusive d s
  | clear => Simplify.clear d s
  | plus => Simplify.plus d s
  | minus => Simplify.minus d s
  | modulate => Simplify.modulate d s
  | multiply => Simplify.multiply d s
  | screen => Simplify.screen d s
  | overlay => Simplify.overlay d s
  | darken | colorBurn | linearBurn => Simplify.blend op xrgb32 xrgb32 .underEither d s
  | lighten | linearLight | pinLight | hardLight =>
    Simplify.blend op xrgb32 xrgb32 .overEither d s
  | colorDodge => Simplify.blend op prgb32 xrgb32 .overEither d s
  | softLight => Simplify.blend op xrgb32 xrgb32 .overDst d s
  | difference | exclusion => Simplify.blend op prgb32 prgb32 .overDst d s
  | alphaInv => ⟨alphaInv, d, s, .opaqueWhite⟩

/-- Every answer of `simplify`, by the ids of operator, destination and source. -/
def simplifyTable : List (List (List Simplified)) :=
  all.map fun op => PixelFormat.all.map fun d => PixelFormat.all.map fun s => op.simplify d s

/-- The answer of `simplify` as the table has it. -/
def simplify? (op : Operator) (d s : PixelFormat) : Option Simplified := do
  let ofOp ← simplifyTable[op.id]?
  let ofDst ← ofOp[d.id]?
  ofDst[s.id]?

theorem simplify?_eq_some (op : Operator) (d s : PixelFormat) :
    op.simplify? d s = some (op.simplify d s) := by
  have ho := ofId?_id op
  have hd := PixelFormat.ofId?_id d
  have hs := PixelFormat.ofId?_id s
  simp only [ofId?, PixelFormat.ofId?] at ho hd hs
  simp [simplify?, simplifyTable, ho, hd, hs]

end Operator

end Scanline
