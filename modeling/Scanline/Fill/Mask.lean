import Scanline.Geometry.Box

/-
  Mask fills. A list of commands is cut into groups by its markers; a group holds the spans of a
  row and is used for as many rows as its marker says. A span has one coverage for all of its
  pixels or a byte of coverage for each of them.
-/

namespace Scanline

/-- A command of a mask fill. -/
inductive MaskCommand where
  /-- Ends a group, which is used for `count` rows; 0 and the largest count never run out. -/
  | marker (count : Nat)
  /-- Columns `x0` to `x1` with one coverage. -/
  | constant (x0 x1 mask : Nat)
  /-- Columns `x0` to `x1` with a byte of coverage each. In the `k`-th row of a group the bytes
  start `k * advance` bytes into the data. Coverage that is not `scaled` is still to be multiplied
  by the alpha of the fill. -/
  | varying (x0 x1 : Nat) (data : Array UInt8) (advance : Nat) (scaled : Bool)
  deriving DecidableEq, Repr

namespace MaskCommand

/-- The largest count of a marker. -/
def endless : Nat := 4294967295

/-- A marker for one row. -/
def once : MaskCommand := marker 1

/-- A marker for all remaining rows. -/
def forever : MaskCommand := marker endless

/-- A span with one coverage, at most 255. -/
def capped (x0 x1 mask : Nat) : MaskCommand := constant x0 x1 (min mask 255)

def label : MaskCommand → String
  | marker _ => "EndOrRepeat"
  | constant .. => "CMask"
  | varying _ _ _ _ true => "VMaskA8WithGa"
  | varying _ _ _ _ false => "VMaskA8WithoutGa"

/-- The columns of a command; a marker has none. -/
def span? : MaskCommand → Option (Nat × Nat)
  | marker _ => none
  | constant x0 x1 _ | varying x0 x1 _ _ _ => some (x0, x1)

/-- The columns of a command that lie left of `width`, if there are any. -/
def clippedSpan? (c : MaskCommand) (width : Nat) : Option (Nat × Nat) := do
  let (x0, x1) ← c.span?
  if x0 < min x1 width then some (x0, min x1 width) else none

/-- Whether a command has coverage for row `k` of its group. -/
def hasRow (width k : Nat) (c : MaskCommand) : Bool :=
  match c with
  | varying _ _ data advance _ =>
    match c.clippedSpan? width with
    | some (x0, x1) => k * advance + (x1 - x0) ≤ data.size
    | none => true
  | _ => true

end MaskCommand

/-- Rows of mask commands. -/
structure MaskFill where
  bounds : Box
  /-- The coverage of the whole fill. -/
  alpha : Nat
  commands : List MaskCommand
  deriving DecidableEq, Repr

/-- A mask fill, unless it covers nothing. -/
def MaskFill.ofCommands? (alpha : Nat) (bounds : Box) (commands : List MaskCommand) :
    Option MaskFill :=
  if alpha = 0 ∨ bounds.y1 ≤ bounds.y0 ∨ commands = [] then none
  else some ⟨bounds, min alpha 255, commands⟩

end Scanline
