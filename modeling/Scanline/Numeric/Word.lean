/-
  Words. Coordinates and positions are integers; where a sum may leave its word it is brought back
  by `wrap32` or `wrap64`, and a step to the right that would leave it stays put. Sizes of buffers
  are natural numbers that are counted in words: one that no word holds ends the operation.
-/

namespace Scanline

def minInt32 : Int := -2147483648
def maxInt32 : Int := 2147483647
def minInt64 : Int := -9223372036854775808
def maxInt64 : Int := 9223372036854775807

/-- The 32-bit signed word that agrees with `v` modulo `2^32`. -/
def wrap32 (v : Int) : Int := Int.bmod v 0x100000000

/-- The 64-bit signed word that agrees with `v` modulo `2^64`. -/
def wrap64 (v : Int) : Int := Int.bmod v 0x10000000000000000

/-- `v` itself, if it is a 32-bit word. -/
def word32? (v : Int) : Option Int := if minInt32 ≤ v ∧ v ≤ maxInt32 then some v else none

/-- `n` itself, if a size can be counted in a 64-bit word. -/
def size64? (n : Nat) : Option Nat := if n < 0x10000000000000000 then some n else none

/-- The sum of two 32-bit words, or the end of the range that it passes. -/
def addSat32 (v w : Int) : Int := max minInt32 (min (v + w) maxInt32)

/-- The next 32-bit word, or the same one at the end of the range. -/
def succ32 (v : Int) : Int := min (v + 1) maxInt32

/-- `v` brought into `lo` to `hi`. -/
def clampInt (lo hi v : Int) : Int := if v < lo then lo else if hi < v then hi else v

/-- The distance of a coordinate from zero, where `-1` and `0` both lie at distance 0. -/
def foldSign (v : Int) : Int := if v < 0 then -v - 1 else v

theorem wrap32_of_range {v : Int} (hlo : minInt32 ≤ v) (hhi : v ≤ maxInt32) : wrap32 v = v := by
  unfold minInt32 at hlo
  unfold maxInt32 at hhi
  unfold wrap32
  rw [Int.bmod_eq_of_le] <;> omega

theorem wrap64_of_range {v : Int} (hlo : minInt64 ≤ v) (hhi : v ≤ maxInt64) : wrap64 v = v := by
  unfold minInt64 at hlo
  unfold maxInt64 at hhi
  unfold wrap64
  rw [Int.bmod_eq_of_le] <;> omega

theorem word32?_eq_some {v w : Int} :
    word32? v = some w ↔ v = w ∧ minInt32 ≤ v ∧ v ≤ maxInt32 := by
  unfold word32?
  split
  · rename_i h
    simp [h]
  · rename_i h
    simp [h]

theorem size64?_eq_some {n m : Nat} :
    size64? n = some m ↔ n = m ∧ n < 0x10000000000000000 := by
  unfold size64?
  split
  · rename_i h
    simp [h]
  · rename_i h
    simp [h]

theorem clampInt_mem {lo hi : Int} (h : lo ≤ hi) (v : Int) :
    lo ≤ clampInt lo hi v ∧ clampInt lo hi v ≤ hi := by
  unfold clampInt
  repeat' split
  all_goals omega

end Scanline
