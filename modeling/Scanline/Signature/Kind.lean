/-
  The kinds of fills and fetches that a pipeline can be made of, each with an id.
  `FetchKind.ofId?_id` and `FillKind.ofId?_id`: every kind is read back from its id.
-/

namespace Scanline

/-- How the pixels to draw are selected. -/
inductive FillKind where
  | none
  /-- A box of whole pixels. -/
  | alignedBox
  /-- A box in steps of 1/256 pixel. -/
  | fractionalBox
  /-- Rows of mask commands. -/
  | mask
  /-- Rows of coverage changes. -/
  | analytic
  deriving DecidableEq, Repr

namespace FillKind

/-- All kinds; the place of a kind is its id. -/
def all : List FillKind := [none, alignedBox, fractionalBox, mask, analytic]

def id : FillKind → Nat
  | none => 0
  | alignedBox => 1
  | fractionalBox => 2
  | mask => 3
  | analytic => 4

def ofId? (i : Nat) : Option FillKind := all[i]?

def label : FillKind → String
  | none => "None"
  | alignedBox => "BoxA"
  | fractionalBox => "BoxU"
  | mask => "Mask"
  | analytic => "Analytic"

theorem ofId?_id (k : FillKind) : ofId? k.id = some k := by cases k <;> rfl

end FillKind

/-- How source pixels are produced. In the names of patterns and gradients `Pad` continues the
edge and `Fold` repeats or reflects. -/
inductive FetchKind where
  | solid
  | alignedBlit
  | alignedPad
  | alignedRepeat
  | alignedFold
  | fractionalXPad
  | fractionalXFold
  | fractionalYPad
  | fractionalYFold
  | fractionalXYPad
  | fractionalXYFold
  | affineNearest
  | affineNearestShort
  | affineBilinear
  | affineBilinearShort
  | linearPad
  | linearFold
  | linearDitherPad
  | linearDitherFold
  | radialPad
  | radialFold
  | radialDitherPad
  | radialDitherFold
  | conic
  | conicDither
  deriving DecidableEq, Repr

namespace FetchKind

/-- All kinds; the place of a kind is its id. -/
def all : List FetchKind :=
  [solid, alignedBlit, alignedPad, alignedRepeat, alignedFold, fractionalXPad, fractionalXFold,
    fractionalYPad, fractionalYFold, fractionalXYPad, fractionalXYFold, affineNearest,
    affineNearestShort, affineBilinear, affineBilinearShort, linearPad, linearFold,
    linearDitherPad, linearDitherFold, radialPad, radialFold, radialDitherPad, radialDitherFold,
    conic, conicDither]

def id : FetchKind → Nat
  | solid => 0
  | alignedBlit => 1
  | alignedPad => 2
  | alignedRepeat => 3
  | alignedFold => 4
  | fractionalXPad => 5
  | fractionalXFold => 6
  | fractionalYPad => 7
  | fractionalYFold => 8
  | fractionalXYPad => 9
  | fractionalXYFold => 10
  | affineNearest => 11
  | affineNearestShort => 12
  | affineBilinear => 13
  | affineBilinearShort => 14
  | linearPad => 15
  | linearFold => 16
  | linearDitherPad => 17
  | linearDitherFold => 18
  | radialPad => 19
  | radialFold => 20
  | radialDitherPad => 21
  | radialDitherFold => 22
  | conic => 23
  | conicDither => 24

def ofId? (i : Nat) : Option FetchKind := all[i]?

def label : FetchKind → String
  | solid => "Solid"
  | alignedBlit => "PatternAlignedBlit"
  | alignedPad => "PatternAlignedPad"
  | alignedRepeat => "PatternAlignedRepeat"
  | alignedFold => "PatternAlignedRoR"
  | fractionalXPad => "PatternFxPad"
  | fractionalXFold => "PatternFxRoR"
  | fractionalYPad => "PatternFyPad"
  | fractionalYFold => "PatternFyRoR"
  | fractionalXYPad => "PatternFxFyPad"
  | fractionalXYFold => "PatternFxFyRoR"
  | affineNearest => "PatternAffineNNAny"
  | affineNearestShort => "PatternAffineNNOpt"
  | affineBilinear => "PatternAffineBIAny"
  | affineBilinearShort => "PatternAffineBIOpt"
  | linearPad => "LinearNNPad"
  | linearFold => "LinearNNRoR"
  | linearDitherPad => "LinearDitherPad"
  | linearDitherFold => "LinearDitherRoR"
  | radialPad => "RadialNNPad"
  | radialFold => "RadialNNRoR"
  | radialDitherPad => "RadialDitherPad"
  | radialDitherFold => "RadialDitherRoR"
  | conic => "ConicNN"
  | conicDither => "ConicDither"

/-- The kind whose id is `n` larger, if there is one. -/
def after? (k : FetchKind) (n : Nat) : Option FetchKind := ofId? (k.id + n)

def isSolid (k : FetchKind) : Bool := k == solid

/-- Whether pixels come from a pattern. -/
def isPattern (k : FetchKind) : Bool := alignedBlit.id ≤ k.id && k.id ≤ affineBilinearShort.id

/-- Whether pixels come from a gradient. -/
def isGradient (k : FetchKind) : Bool := linearPad.id ≤ k.id

/-- Whether a gradient is dithered. -/
def isDithered : FetchKind → Bool
  | linearDitherPad | linearDitherFold | radialDitherPad | radialDitherFold | conicDither => true
  | _ => false

/-- Whether a gradient repeats or reflects beyond its ends. -/
def isFolded : FetchKind → Bool
  | linearFold | linearDitherFold | radialFold | radialDitherFold => true
  | _ => false

theorem ofId?_id (k : FetchKind) : ofId? k.id = some k := by cases k <;> rfl

end FetchKind

end Scanline
