/-
  What lies beyond the edges of a pattern or a gradient: the edge itself, the same again, or its
  mirror image. A pattern has one such rule for each axis.
-/

namespace Scanline

/-- How one axis continues beyond its ends. -/
inductive Extend where
  | pad
  | tile
  | reflect
  deriving DecidableEq, Repr

namespace Extend

def all : List Extend := [pad, tile, reflect]

def label : Extend → String
  | pad => "Pad"
  | tile => "Repeat"
  | reflect => "Reflect"

/-- The place of the rule among the fetch kinds that differ by it. -/
def index : Extend → Nat
  | pad => 0
  | tile => 1
  | reflect => 2

/-- Where a coordinate falls on an axis of `n` cells that continues by the rule. -/
def coordinate (e : Extend) (n v : Int) : Int :=
  match e with
  | pad => if v < 0 then 0 else if n - 1 < v then n - 1 else v
  | tile => v % n
  | reflect => if v % (2 * n) < n then v % (2 * n) else 2 * n - 1 - v % (2 * n)

end Extend

/-- How both axes continue. -/
structure ExtendMode where
  x : Extend
  y : Extend
  deriving DecidableEq, Repr

namespace ExtendMode

/-- The same rule on both axes. -/
def both (e : Extend) : ExtendMode := ⟨e, e⟩

def all : List ExtendMode := Extend.all.flatMap fun x => Extend.all.map fun y => ⟨x, y⟩

/-- One word where the axes agree, and both axes named otherwise. -/
def label (m : ExtendMode) : String :=
  if m.x = m.y then m.x.label else s!"{m.x.label}X{m.y.label}Y"

end ExtendMode

end Scanline
