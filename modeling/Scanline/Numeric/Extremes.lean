/-
  The larger and the smaller of two floats. Of equal ones the first is taken, and a NaN never
  wins against a number.
-/

namespace Scanline

/-- The larger of two doubles. -/
def largerDouble (x y : Float) : Float := if x.isNaN then y else if x < y then y else x

/-- The smaller of two doubles. -/
def smallerDouble (x y : Float) : Float := if x.isNaN then y else if y < x then y else x

/-- The larger of two single floats. -/
def larger (x y : Float32) : Float32 := if x.isNaN then y else if x < y then y else x

/-- The smaller of two single floats. -/
def smaller (x y : Float32) : Float32 := if x.isNaN then y else if y < x then y else x

end Scanline
