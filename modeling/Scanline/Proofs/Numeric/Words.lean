import Scanline.Numeric.Word

/-
  Signed words and places in rows. A wrapped integer is in the range of its word. In rows of equal
  length a place determines its row and its column.
-/

namespace Scanline

theorem wrap32_mem (v : Int) : minInt32 ≤ wrap32 v ∧ wrap32 v ≤ maxInt32 := by
  simp only [minInt32, maxInt32, wrap32, Int.bmod]
  split <;> omega

/-- A word that was wrapped before wraps to the same sum. -/
theorem wrap64_add (v w : Int) : wrap64 (wrap64 v + w) = wrap64 (v + w) :=
  Int.bmod_add_bmod

/-- A walk of wrapped words with a fixed step, taken on from column `x` by `n` columns. -/
theorem wrap64_walk (v step x n : Int) :
    wrap64 (wrap64 (v + step * x) + step * n) = wrap64 (v + step * (x + n)) := by
  rw [wrap64_add, Int.mul_add, Int.add_assoc]

theorem wrap64_walk_one (v step x : Int) :
    wrap64 (wrap64 (v + step * x) + step) = wrap64 (v + step * (x + 1)) := by
  rw [← wrap64_walk, Int.mul_one]

/-- A count that does not fit its word is seen as a smaller one. -/
theorem wrap32_natCast_le (n : Nat) : wrap32 n ≤ n := by
  simp only [wrap32, Int.bmod]
  split <;> omega

/-- A count of 32 bits that is seen as a positive word fits the word. -/
theorem natCast_le_of_wrap32_nonneg {n : Nat} (h : n < 0x100000000) (hle : 0 ≤ wrap32 n) :
    (n : Int) ≤ maxInt32 := by
  simp only [wrap32, Int.bmod] at hle
  unfold maxInt32
  split at hle <;> omega

/-- Two places with columns inside of their rows are the same only in the same row and column. -/
theorem row_column_unique {n r r' x x' : Nat} (hx : x < n) (hx' : x' < n)
    (h : r * n + x = r' * n + x') : r = r' ∧ x = x' := by
  have hdiv {r x : Nat} (hx : x < n) : (r * n + x) / n = r ∧ (r * n + x) % n = x := by
    rw [Nat.mul_comm, Nat.mul_add_div (by omega), Nat.mul_add_mod, Nat.div_eq_of_lt hx,
      Nat.mod_eq_of_lt hx]
    exact ⟨rfl, rfl⟩
  obtain ⟨hr, hc⟩ := hdiv (r := r) hx
  obtain ⟨hr', hc'⟩ := hdiv (r := r') hx'
  exact ⟨by rw [← hr, h, hr'], by rw [← hc, h, hc']⟩

end Scanline
