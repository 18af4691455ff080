import Scanline.Gradient.Cursor
import Scanline.Proofs.Pattern.Coordinates

/-
  Indices of gradient tables. A table has a power of two of entries, so that the exclusive or with
  the mirror counts an index from the other end. `tableIndex_eq`: an index is brought into the table
  as the extend rule says, so that every position of a linear gradient falls on an entry
  (`tableIndex_lt`). A position that is wrapped loses whole periods only
  (`Extend.coordinate_wrap64`).
-/

namespace Scanline

/-- The mirror image of an index below a power of two. -/
theorem xor_mirror {t k : Nat} (ht : t < 2 ^ k) : t ^^^ (2 ^ k - 1) = 2 ^ k - 1 - t := by
  have hindex : (BitVec.ofNat k t).toNat = t := by
    rw [BitVec.toNat_ofNat, Nat.mod_eq_of_lt ht]
  calc t ^^^ (2 ^ k - 1) = (BitVec.ofNat k t ^^^ BitVec.allOnes k).toNat := by
        rw [BitVec.toNat_xor, BitVec.toNat_allOnes, hindex]
    _ = (~~~BitVec.ofNat k t).toNat := by rw [BitVec.xor_allOnes]
    _ = 2 ^ k - 1 - t := by rw [BitVec.toNat_not, hindex]

theorem GradientTable.length_eq (size : Nat) : length size = 2 ^ ((max size 2 - 1).log2 + 1) :=
  Nat.one_shiftLeft _

theorem GradientTable.size_two_pow (stops : List ColorStop) (n : Nat) :
    ∃ k, (ofStops stops n).size = 2 ^ k :=
  ⟨_, (size_ofStops stops n).trans (length_eq n)⟩

theorem GradientTable.size_pos (stops : List ColorStop) (n : Nat) : 0 < (ofStops stops n).size := by
  obtain ⟨k, hk⟩ := size_two_pow stops n
  exact hk ▸ Nat.two_pow_pos k

theorem GradientTable.fineColors_size (stops : List ColorStop) (n : Nat) :
    (ofStops stops n).fineColors.size = (ofStops stops n).colors.size := by
  simp [ofStops]

/-- Masking an index with a power of two brings it into a period. -/
theorem index_and_mask {k : Nat} (hk : k ≤ 32) (i : Int) :
    (i % 0x100000000).toNat &&& (2 ^ k - 1) = (i % (2 ^ k : Nat)).toNat := by
  have hdvd : ((2 ^ k : Nat) : Int) ∣ 0x100000000 := by
    exact_mod_cast (Nat.pow_dvd_pow 2 hk : 2 ^ k ∣ 2 ^ 32)
  have hpos : (0 : Int) < (2 ^ k : Nat) := by exact_mod_cast Nat.two_pow_pos k
  have hlow := Int.emod_nonneg i (show (0x100000000 : Int) ≠ 0 by decide)
  rw [Nat.and_two_pow_sub_one_eq_mod, ← Int.emod_emod_of_dvd i hdvd]
  have hcast : (((i % 0x100000000).toNat % 2 ^ k : Nat) : Int) = i % 0x100000000 % (2 ^ k : Nat) := by
    rw [Int.natCast_emod, Int.toNat_of_nonneg hlow]
  omega

/-- In a table with a power of two of entries an index is the coordinate of the rule. -/
theorem tableIndex_eq (e : Extend) {n k : Nat} (hn : n = 2 ^ k) (hk : k < 32) (i : Int) :
    tableIndex (e ≠ .pad) (GradientFetch.indexRange e n).1 (GradientFetch.indexRange e n).2 i =
      (e.coordinate n i).toNat := by
  have hpos : 0 < n := hn ▸ Nat.two_pow_pos k
  cases e with
  | pad =>
    have hlast : ((n - 1 : Nat) : Int) = n - 1 := by omega
    change (clampInt 0 ((n - 1 : Nat) : Int) i).toNat = _
    rw [hlast]
    rfl
  | tile =>
    have hmask : (i % 0x100000000).toNat &&& (n - 1) = (i % (n : Int)).toNat := by
      rw [hn, index_and_mask hk.le]
    change min ((i % 0x100000000).toNat &&& (n - 1))
      (((i % 0x100000000).toNat &&& (n - 1)) ^^^ 0) = (i % (n : Int)).toNat
    rw [hmask, Nat.xor_zero, Nat.min_self]
  | reflect =>
    have htwo : 2 * n = 2 ^ (k + 1) := by rw [hn, Nat.pow_succ, Nat.mul_comm]
    have hmask : (i % 0x100000000).toNat &&& (2 * n - 1) = (i % (2 * n : Int)).toNat := by
      rw [htwo, index_and_mask hk, ← htwo]
      rfl
    have h0 := Int.emod_nonneg i (show (2 * n : Int) ≠ 0 by omega)
    have hlt := Int.emod_lt_of_pos i (show (0 : Int) < 2 * n by omega)
    have hxor : (i % (2 * n : Int)).toNat ^^^ (2 * n - 1) =
        2 * n - 1 - (i % (2 * n : Int)).toNat := by
      rw [htwo]
      exact xor_mirror (by omega)
    change min ((i % 0x100000000).toNat &&& (2 * n - 1))
        (((i % 0x100000000).toNat &&& (2 * n - 1)) ^^^ (2 * n - 1)) =
      (if i % (2 * n : Int) < n then i % (2 * n : Int) else 2 * n - 1 - i % (2 * n : Int)).toNat
    rw [hmask, hxor]
    split <;> omega

/-- A position falls on an entry of a table with a power of two of entries. -/
theorem tableIndex_lt (e : Extend) {n k : Nat} (hn : n = 2 ^ k) (i : Int) :
    tableIndex (e ≠ .pad) (GradientFetch.indexRange e n).1 (GradientFetch.indexRange e n).2 i <
      n := by
  have hpos : 0 < n := hn ▸ Nat.two_pow_pos k
  cases e with
  | pad =>
    have hclamp := clampInt_mem (Int.natCast_nonneg (n - 1)) i
    change (clampInt 0 ((n - 1 : Nat) : Int) i).toNat < n
    omega
  | tile =>
    change min ((i % 0x100000000).toNat &&& (n - 1)) _ < n
    have hmask := @Nat.and_le_right (i % 0x100000000).toNat (n - 1)
    omega
  | reflect =>
    have htwo : 2 * n = 2 ^ (k + 1) := by rw [hn, Nat.pow_succ, Nat.mul_comm]
    have hmask := @Nat.and_le_right (i % 0x100000000).toNat (2 * n - 1)
    change min ((i % 0x100000000).toNat &&& (2 * n - 1))
      (((i % 0x100000000).toNat &&& (2 * n - 1)) ^^^ (2 * n - 1)) < n
    have hxor := @xor_mirror ((i % 0x100000000).toNat &&& (2 * n - 1)) (k + 1) (by omega)
    rw [← htwo] at hxor
    rw [hxor]
    omega

/-- What is lost when a position is wrapped is whole periods of a table of up to `2 ^ 31` entries
that starts again. -/
theorem Extend.coordinate_wrap64 {e : Extend} (he : e ≠ .pad) {n k : Nat} (hn : n = 2 ^ k)
    (hk : k < 32) (v : Int) :
    e.coordinate n (wrap64 v / 0x100000000) = e.coordinate n (v / 0x100000000) := by
  -- A wrapped position lost a multiple of `2 ^ 32` entries, which the period divides.
  have hspan : SampleAxis.span e n ∣ 2 ^ 32 := by
    unfold SampleAxis.span
    split
    · rw [hn]
      exact_mod_cast (Nat.pow_succ' ▸ Nat.pow_dvd_pow 2 hk : 2 * 2 ^ k ∣ 2 ^ 32)
    · rw [hn]
      exact_mod_cast Nat.pow_dvd_pow 2 hk.le
  have hlow : wrap64 v / 0x100000000 % 2 ^ 32 = v / 0x100000000 % 2 ^ 32 := by
    unfold wrap64 Int.bmod
    dsimp only
    split <;> omega
  refine coordinate_congr he ?_
  rw [← Int.emod_emod_of_dvd _ hspan, hlow, Int.emod_emod_of_dvd _ hspan]

end Scanline
