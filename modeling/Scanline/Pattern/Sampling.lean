import Scanline.Geometry.Affine
import Scanline.Numeric.Remainder
import Scanline.Pattern.Placement

/-
  Patterns under an affine map. Each axis has a position in 32.32 fixed point that is linear in
  the destination coordinates, with the constants that keep it inside the pattern. Positions on
  an axis that repeats or reflects are kept within one period, and an axis walked backwards is
  mirrored so that its step is never negative.
-/

namespace Scanline

/-- One axis of a mapped pattern. -/
structure SampleAxis where
  /-- Advance for each destination column, in 32.32 fixed point. -/
  step : Int := 0
  /-- Advance for each destination row. -/
  rowStep : Int := 0
  /-- The position at the destination origin. -/
  start : Int := 0
  /-- What is taken off a cell beyond `last`. -/
  period : Int := 0
  /-- The largest cell that needs no correction. -/
  last : Int := 0
  /-- The smallest cell; smaller ones become this one. -/
  least : Int := 0
  /-- The largest cell; larger ones become `corner`. -/
  greatest : Int := 0
  corner : Int := 0
  /-- The modulus that cells are reduced by when a span starts. -/
  modulus : Int := 0
  deriving DecidableEq, Repr

/-- Both axes of a mapped pattern. -/
structure Sampling where
  x : SampleAxis
  y : SampleAxis
  deriving DecidableEq, Repr

namespace SampleAxis

/-- The step, the row step and the start of an axis before they are rounded. -/
structure Course where
  step : Float
  rowStep : Float
  start : Float

/-- How many cells of `n` pass until the axis starts again. -/
def span (e : Extend) (n : Int) : Int := if e = .reflect then 2 * n else n

/-- The course of an axis walked forward, and whether it had to be mirrored. -/
def forward (e : Extend) (n : Int) (c : Course) : Course × Bool :=
  if e != .pad && c.step < 0 then
    (⟨-c.step, -c.rowStep, Float.ofInt (span e n) - c.start⟩, true)
  else (c, false)

/-- The course within one period: no step is longer than the period. -/
def within (e : Extend) (n : Int) (c : Course) : Course :=
  if e = .pad then c
  else
    let p := Float.ofInt (span e n)
    { c with
      start := floatRemainder c.start p
      step := if p ≤ c.step then floatRemainder c.step p else c.step }

/-- The corrections of an axis of `n` cells, before its course is known. -/
def corrections (e : Extend) (n : Int) (mirrored : Bool) : SampleAxis :=
  match e with
  | .pad =>
    { last := maxInt32, greatest := n - 1, corner := n - 1, modulus := maxInt32 }
  | .tile =>
    if mirrored then
      { period := n, last := -1, least := minInt32, greatest := -1, corner := n - 1, modulus := n }
    else
      { period := n, last := n - 1, least := minInt32, greatest := n - 1, modulus := n }
  | .reflect =>
    { period := 2 * n, last := n - 1, least := minInt32, greatest := n - 1, corner := n - 1
      modulus := 2 * n }

/-- The course of one axis, taken half a cell back for a bilinear fetch. -/
def course (e : Extend) (n : Int) (bilinear : Bool) (c : Course) : Course × Bool :=
  let (c, mirrored) := forward e n c
  let c := if bilinear then { c with start := c.start - 0.5 } else c
  (within e n c, mirrored)

/-- Numbers in 32.32 fixed point, not yet rounded. -/
def scaled (c : Course) : Course :=
  let unit : Float := 4294967296
  ⟨c.step * unit, c.rowStep * unit, c.start * unit⟩

/-- Whether a number has a place among 64-bit integers. -/
def fits (v : Float) : Bool := -9223372036854775808 ≤ v && v ≤ 9223372036854775808

def Course.allFit (c : Course) : Bool := fits c.step && fits c.rowStep && fits c.start

/-- The axis with its course rounded down. -/
def withCourse (a : SampleAxis) (c : Course) : SampleAxis :=
  { a with
    step := floorToInt64 c.step, rowStep := floorToInt64 c.rowStep, start := floorToInt64 c.start }

/-- The cells of an axis as a 32-bit word, if what follows from it for the rule of the axis is a
word as well. -/
def cells? (e : Extend) (n : Nat) : Option Int := do
  let n := wrap32 n
  let _ ← word32? (n - 1)
  let _ ← word32? (span e n)
  some n

end SampleAxis

namespace Sampling
open SampleAxis

/-- Both axes under the map `inv` from the destination to the pattern. A map whose numbers do not
fit leaves the sampling at the first pixel. -/
def ofInverse? (source : PatternSource) (extend : ExtendMode) (quality : PatternQuality)
    (inv : Affine) : Option Sampling := do
  let bilinear := quality == .bilinear
  let w ← cells? extend.x source.width
  let h ← cells? extend.y source.height
  let (cx, mx) := course extend.x w bilinear ⟨inv.a, inv.c, inv.e + 0.5 * (inv.a + inv.c)⟩
  let (cy, my) := course extend.y h bilinear ⟨inv.b, inv.d, inv.f + 0.5 * (inv.b + inv.d)⟩
  let ax := corrections extend.x w mx
  let ay := corrections extend.y h my
  let cx := scaled cx
  let cy := scaled cy
  some (if cx.allFit && cy.allFit then ⟨ax.withCourse cx, ay.withCourse cy⟩ else ⟨ax, ay⟩)

/-- The fetch kind of a mapped pattern; small patterns have one of their own. -/
def kind (source : PatternSource) (quality : PatternQuality) : FetchKind :=
  match quality with
  | .bilinear => .affineBilinear
  | .nearest =>
    if max (wrap32 source.width) (wrap32 source.height) < 32767 ∧ source.stride ≤ 32767 then
      .affineNearestShort
    else .affineNearest

end Sampling

end Scanline
