import Scanline.Pattern.Placement

/-
  Walks over a placed pattern, one axis each: which row or column of the pattern the current
  row or column of the destination falls on. A walk starts anywhere and then moves by one.
-/

namespace Scanline

/-- The row of a placed pattern. -/
structure RowWalk where
  ty : Int
  period : Int
  height : Int
  extend : Extend
  /-- The row, not yet brought into the pattern. -/
  y : Int := 0
  deriving DecidableEq, Repr

namespace RowWalk

/-- A walk over the rows of a source. Without a period the rows pad. -/
def ofSource (source : PatternSource) (ty period : Int) (extend : Extend) : RowWalk where
  ty := ty
  period := period
  height := source.height
  extend := if period = 0 then .pad else extend

/-- Goes to the destination row `y`. -/
def start (w : RowWalk) (y : Int) : RowWalk :=
  let y := wrap32 (y + w.ty)
  { w with y := if w.extend = .pad then y else y % w.period }

/-- The row of the pattern. -/
def index (w : RowWalk) : Nat :=
  (if w.extend = .pad then clampInt 0 (w.height - 1) w.y
    else if w.y < w.height then w.y
    else w.period - 1 - w.y).toNat

/-- Goes one row down. -/
def next (w : RowWalk) : RowWalk :=
  let y := succ32 w.y
  { w with y := if w.extend ≠ .pad ∧ w.period ≤ y then 0 else y }

end RowWalk

/-- How the columns of a placed pattern continue. -/
inductive ColumnRule where
  | pad
  | tile
  /-- Tiles or reflects, depending on the period; mirrored columns are kept negative. -/
  | fold
  deriving DecidableEq, Repr

/-- The column of a placed pattern. -/
structure ColumnWalk where
  rule : ColumnRule
  tx : Int
  period : Int
  width : Int
  /-- The column, not yet brought into the pattern. -/
  x : Int := 0
  deriving DecidableEq, Repr

namespace ColumnWalk

/-- A walk over the columns of a source. Without a period the columns pad. -/
def ofSource (source : PatternSource) (rule : ColumnRule) (tx period : Int) : ColumnWalk where
  rule := if period = 0 then .pad else rule
  tx := tx
  period := period
  width := source.width

/-- Goes to the destination column `x`. -/
def start (w : ColumnWalk) (x : Int) : ColumnWalk :=
  let x := wrap32 (x + w.tx)
  { w with
    x :=
      match w.rule with
      | .pad => x
      | .tile => x % w.width
      | .fold =>
        let x := x % w.period
        if w.width ≤ x then x - w.period else x }

/-- The column of the pattern. -/
def index (w : ColumnWalk) : Nat :=
  (match w.rule with
    | .pad => clampInt 0 (w.width - 1) w.x
    | .tile => w.x
    | .fold => foldSign w.x).toNat

/-- Goes one column to the right. -/
def next (w : ColumnWalk) : ColumnWalk :=
  let x := succ32 w.x
  { w with
    x :=
      match w.rule with
      | .pad => x
      | .tile => if w.width ≤ x then 0 else x
      | .fold => if w.width ≤ x then x - w.period else x }

end ColumnWalk

end Scanline
