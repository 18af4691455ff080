import Scanline.Numeric.Word
import Scanline.Pattern.Extend
import Scanline.Pattern.Source
import Scanline.Signature.Basic

/-
  Patterns that are only moved. A placement holds the offset from a destination coordinate to a
  pattern coordinate, brought into the period of an axis that repeats or reflects, and for a
  fractional offset the weights of the four pixels that are mixed.
  `reduce?_of_period_pos`: an offset is brought into a period by the remainder.
-/

namespace Scanline

/-- How a pattern is sampled. -/
inductive PatternQuality where
  | nearest
  | bilinear
  deriving DecidableEq, Repr

namespace PatternQuality

def all : List PatternQuality := [nearest, bilinear]

def label : PatternQuality → String
  | nearest => "Nearest"
  | bilinear => "Bilinear"

end PatternQuality

/-- The weights of the pixels at the upper left, upper right, lower left and lower right. -/
structure BilinearWeights where
  a : Nat := 0
  b : Nat := 0
  c : Nat := 0
  d : Nat := 0
  deriving DecidableEq, Repr

/-- The weights of a pattern that is moved right by `wx` and down by `wy` parts of 256. -/
def BilinearWeights.ofFractions (wx wy : Nat) : BilinearWeights where
  a := wy * wx / 256
  b := (wy * (256 - wx) + 255) / 256
  c := (256 - wy) * wx / 256
  d := ((256 - wy) * (256 - wx) + 255) / 256

/-- Where a moved pattern lies. -/
structure Placement where
  /-- What is added to a column of the destination. -/
  tx : Int := 0
  /-- What is added to a row of the destination. -/
  ty : Int := 0
  /-- After how many columns the pattern starts again, 0 if it does not. -/
  rx : Int := 0
  /-- After how many rows the pattern starts again, 0 if it does not. -/
  ry : Int := 0
  extendY : Extend := .pad
  weights : BilinearWeights := {}
  deriving DecidableEq, Repr

namespace Placement

/-- The rule of an axis with `n` cells: a single cell looks the same under every rule. -/
def axisExtend (e : Extend) (n : Nat) : Extend := if n ≤ 1 then .pad else e

/-- After how many of `n` cells an axis starts again, as a 32-bit word. -/
def period (e : Extend) (n : Nat) : Int :=
  match e with
  | .pad => 0
  | .tile => wrap32 n
  | .reflect => wrap32 (2 * n)

/-- An offset brought into the period of its axis. The word of a side that is too long for it may
be zero, by which nothing can be divided, or below zero, which moves an offset to the left of the
axis once. -/
def reduce? (e : Extend) (n : Nat) (t : Int) : Option Int :=
  match e with
  | .pad => some t
  | .tile | .reflect =>
    let r := period e n
    if 0 < r then some (t % r)
    else if r = 0 then none
    else if 0 ≤ t then some t
    else if t = r then some 0
    else word32? (t + r)

/-- The placement at an offset with the fetch kind that runs it; `base` is the kind for an axis
that pads. An offset has to be a 32-bit word. -/
def ofOffset? (source : PatternSource) (base : FetchKind) (extend : ExtendMode) (tx ty : Int)
    (fractional : Bool) (weights : BilinearWeights) : Option (Placement × FetchKind) := do
  let ex := axisExtend extend.x source.width
  let ey := axisExtend extend.y source.height
  let step := if fractional && ex != .pad then 1 else ex.index
  let tx ← reduce? ex source.width (← word32? tx)
  let ty ← reduce? ey source.height (← word32? ty)
  let rx := period ex source.width
  let ry := period ey source.height
  some ({ tx, ty, rx, ry, extendY := ey, weights }, (base.after? step).getD base)

/-- A pattern with its upper left corner at `x`, `y`. -/
def atPixel? (source : PatternSource) (extend : ExtendMode) (x y : Int) :
    Option (Placement × FetchKind) :=
  ofOffset? source .alignedPad extend (-x) (-y) false {}

/-- A pattern with its upper left corner at `x64 / 256`, `y64 / 256`. -/
def atFraction? (source : PatternSource) (extend : ExtendMode) (quality : PatternQuality)
    (x64 y64 : Int) : Option (Placement × FetchKind) := do
  let wx := (x64 % 256).toNat
  let wy := (y64 % 256).toNat
  let tx ← word32? (-wrap32 (x64 / 256))
  let ty ← word32? (-wrap32 (y64 / 256))
  if wx = 0 ∧ wy = 0 then ofOffset? source .alignedPad extend tx ty false {}
  else
    match quality with
    | .nearest =>
      ofOffset? source .alignedPad extend (if 128 ≤ wx then tx - 1 else tx)
        (if 128 ≤ wy then ty - 1 else ty) false {}
    | .bilinear =>
      let base : FetchKind :=
        if wy = 0 then .fractionalXPad else if wx = 0 then .fractionalYPad else .fractionalXYPad
      ofOffset? source base extend (tx - 1) (ty - 1) true (.ofFractions wx wy)

theorem reduce?_of_period_pos {e : Extend} {n : Nat} (h : 0 < period e n) (t : Int) :
    reduce? e n t = some (t % period e n) := by
  cases e with
  | pad => simp [period] at h
  | tile => simp [reduce?, h]
  | reflect => simp [reduce?, h]

end Placement

end Scanline
