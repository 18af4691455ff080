import Scanline.Fetch.Cursor
import Scanline.Render.Surface

/-
  Strokes: a surface, an operator and a cursor over the fetch that move along a row together.
  Every fill is made of the same few movements. `none` stands for a step outside of the surface or
  of the fetch.
-/

namespace Scanline

/-- What is drawn to, how, and from where. -/
structure Stroke where
  op : Operator
  surface : Surface
  cursor : Cursor

namespace Stroke

/-- Goes to row `y` of the fetch. -/
def startRow (s : Stroke) (y : Int) : Stroke := { s with cursor := s.cursor.startRow y }

/-- Goes to the next row of the fetch. -/
def nextRow (s : Stroke) : Stroke := { s with cursor := s.cursor.nextRow }

/-- Starts a span at column `x`. -/
def start? (s : Stroke) (x : Int) : Option Stroke := do
  let cursor ← s.cursor.start? x
  some { s with cursor }

/-- Moves on over `n` columns to column `x`. -/
def skip? (s : Stroke) (x : Int) (n : Nat) : Option Stroke := do
  let cursor ← s.cursor.skip? x n
  some { s with cursor }

/-- Draws the next pixel of the fetch in column `x` of row `y` with coverage `m`. -/
def dab? (s : Stroke) (y : Int) (x m : Nat) : Option Stroke := do
  let (p, cursor) ← s.cursor.next?
  let surface ← s.surface.draw? s.op x y p m
  some { s with surface, cursor }

/-- Draws `n` pixels from column `x` on with coverage `m`. -/
def dabs? (s : Stroke) (y : Int) (x m : Nat) : Nat → Option Stroke
  | 0 => some s
  | n + 1 => do
    let s ← s.dab? y x m
    s.dabs? y (x + 1) m n

/-- Draws the source pixel `p` in `n` columns from column `x` on with coverage `m`. -/
def repeat? (s : Stroke) (y : Int) (x : Nat) (p : UInt32) (m : Nat) : Nat → Option Stroke
  | 0 => some s
  | n + 1 => do
    let surface ← s.surface.draw? s.op x y p m
    repeat? { s with surface } y (x + 1) p m n

/-- Sets `n` columns from column `x` on to the pixel `p`. -/
def store? (s : Stroke) (y : Int) (x : Nat) (p : UInt32) : Nat → Option Stroke
  | 0 => some s
  | n + 1 => do
    let surface ← s.surface.setPixel? x y p
    store? { s with surface } y (x + 1) p n

/-- Draws columns `x0` to `x1` with coverage `m`; without coverage they are passed over. A solid
source is not read again for every column, and a full copy of one is stored as it is. -/
def span? (s : Stroke) (y : Int) (x0 x1 m : Nat) : Option Stroke :=
  if x1 ≤ x0 then some s
  else if m = 0 then s.skip? x1 (x1 - x0)
  else
    match s.cursor.solid? with
    | some p =>
      if s.op = .srcCopy ∧ m = 255 then s.store? y x0 p (x1 - x0)
      else s.repeat? y x0 p m (x1 - x0)
    | none => s.dabs? y x0 m (x1 - x0)

/-- Draws a pixel for each coverage of a list, from column `x` on. -/
def varied? (s : Stroke) (y : Int) (x : Nat) : List Nat → Option Stroke
  | [] => some s
  | m :: rest => do
    let s ← s.dab? y x m
    s.varied? y (x + 1) rest

/-- Storing the pixel is what drawing a full copy of it comes to. -/
theorem store?_eq_repeat? (s : Stroke) (hop : s.op = .srcCopy) (y : Int) (x : Nat) (p : UInt32)
    (n : Nat) : s.store? y x p n = s.repeat? y x p 255 n := by
  induction n generalizing s x with
  | zero => rfl
  | succ n ih =>
    have hdraw : s.surface.draw? s.op x y p 255 = s.surface.setPixel? x y p := if_pos ⟨hop, rfl⟩
    unfold store? repeat?
    rw [hdraw]
    exact congrArg _ (funext fun surface => ih { s with surface } hop (x + 1))

/-- A solid source gives the same pixel every time it is read. -/
theorem repeat?_eq_dabs? (s : Stroke) {p : UInt32} (hp : s.cursor = .solid p) (y : Int)
    (x m n : Nat) :
    s.repeat? y x p m n = s.dabs? y x m n := by
  induction n generalizing s x with
  | zero => rfl
  | succ n ih =>
    have hdab : s.dab? y x m = (s.surface.draw? s.op x y p m).bind fun surface =>
        some { s with surface } := by
      obtain ⟨op, surface, cursor⟩ := s
      cases hp
      rfl
    unfold repeat? dabs?
    rw [hdab]
    cases s.surface.draw? s.op x y p m with
    | none => rfl
    | some surface => exact ih { s with surface } hp (x + 1)

/-- A span is drawn pixel by pixel, whatever its source is. -/
theorem span?_eq (s : Stroke) (y : Int) (x0 x1 m : Nat) :
    s.span? y x0 x1 m =
      if x1 ≤ x0 then some s
      else if m = 0 then s.skip? x1 (x1 - x0)
      else s.dabs? y x0 m (x1 - x0) := by
  unfold span?
  cases hsolid : s.cursor.solid? with
  | none => rfl
  | some p =>
    have hcursor : s.cursor = .solid p := by
      cases hc : s.cursor <;> rw [hc] at hsolid <;> cases hsolid
      rfl
    dsimp only
    rw [← s.repeat?_eq_dabs? hcursor]
    split
    · rfl
    · split
      · rfl
      · split
        · rename_i hcopy
          rw [s.store?_eq_repeat? hcopy.1, hcopy.2]
        · rfl

end Stroke

end Scanline
