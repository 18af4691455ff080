import Scanline.Fill.Mask
import Scanline.Render.Stroke

/-
  Drawing mask fills. The commands fall into groups; each group draws rows until its count or its
  mask data runs out, and the next group goes on with the row after that.
-/

namespace Scanline

namespace MaskCommand

/-- The groups of a list of commands, each with the count of its marker. A last group without a
marker counts once. -/
def groups : List MaskCommand → List (List MaskCommand × Nat)
  | [] => []
  | marker count :: rest => ([], count) :: groups rest
  | c :: rest =>
    match groups rest with
    | [] => [([c], 1)]
    | (spans, count) :: later => (c :: spans, count) :: later

/-- How many rows a group may draw; nothing for one that never runs out. -/
def limit? (count : Nat) : Option Nat := if count = 0 ∨ count = endless then none else some count

/-- The coverage of the pixels of a span in row `k` of its group, if the data is long enough. -/
def coverages? (alpha k length : Nat) (data : Array UInt8) (advance : Nat) (scaled : Bool) :
    Option (List Nat) :=
  if k * advance + length ≤ data.size then
    some ((data.extract (k * advance) (k * advance + length)).toList.map fun m =>
      if scaled then m.toNat else mul255 m.toNat alpha)
  else none

/-- Takes the stroke to column `x0`; `stand?` is where it stands, if a span has been drawn in the
row. -/
def moveTo? (s : Stroke) (stand? : Option Nat) (x0 : Nat) : Option Stroke :=
  match stand? with
  | some x => if x = x0 then some s else if x < x0 then s.skip? x0 (x0 - x) else s.start? x0
  | none => s.start? x0

/-- Draws a command in row `y`, which is row `k` of its group. -/
def draw? (c : MaskCommand) (alpha k : Nat) (y : Int) (s : Stroke) (x0 x1 : Nat) : Option Stroke :=
  match c with
  | marker _ => some s
  | constant _ _ mask => s.span? y x0 x1 mask
  | varying _ _ data advance scaled => do
    let ms ← coverages? alpha k (x1 - x0) data advance scaled
    s.varied? y x0 ms

/-- Draws the spans of a group in row `y`, which is row `k` of the group. -/
def drawSpans? (alpha k : Nat) (y : Int) (s : Stroke) (stand? : Option Nat) :
    List MaskCommand → Option Stroke
  | [] => some s
  | c :: rest =>
    match c.clippedSpan? s.surface.width with
    | none => drawSpans? alpha k y s stand? rest
    | some (x0, x1) => do
      let s ← moveTo? s stand? x0
      let s ← c.draw? alpha k y s x0 x1
      drawSpans? alpha k y s (some x1) rest

end MaskCommand

namespace MaskFill
open MaskCommand

/-- Draws the rows of one group: at most `left` rows up to row `stop`, the next one being row `k`
of the group. Gives the stroke and the rows that remain. -/
def drawGroup? (alpha : Nat) (spans : List MaskCommand) (limit : Option Nat) (stop : Int)
    (s : Stroke) (k : Nat) : Nat → Option (Stroke × Nat)
  | 0 => some (s, 0)
  | left + 1 =>
    if spans.all (hasRow s.surface.width k) then do
      let s ← drawSpans? alpha k (stop - (left + 1 : Nat)) s none spans
      if limit.any (· ≤ k + 1) then some (s.nextRow, left)
      else drawGroup? alpha spans limit stop s.nextRow (k + 1) left
    else some (s, left + 1)

/-- Draws groups in order while rows are left. -/
def drawGroups? (alpha : Nat) (stop : Int) (s : Stroke) (left : Nat) :
    List (List MaskCommand × Nat) → Option Stroke
  | [] => some s
  | (spans, count) :: rest => do
    let (s, left) ← drawGroup? alpha spans (limit? count) stop s 0 left
    drawGroups? alpha stop s left rest

/-- Draws the fill. -/
def draw? (m : MaskFill) (s : Stroke) : Option Stroke :=
  drawGroups? m.alpha m.bounds.y1 (s.startRow m.bounds.y0) (m.bounds.y1 - m.bounds.y0).toNat
    (groups m.commands)

end MaskFill

end Scanline
