import Scanline.Render.AnalyticFill

/-
  The marked groups of a row. `runs` lists them as maximal runs: `RunsOf` says what a list of runs
  must be for a given set of groups, and `runsOf_runs` that the bits of a row give such a list.
-/

namespace Scanline

namespace AnalyticFill

/-- The bits of a row in order, the lowest of each word first. -/
def marks (words : List UInt64) : List Bool :=
  words.flatMap fun w => (List.range 64).map w.toNat.testBit

/-- The runs of marked groups, each as its first group and the group after its last. `i` is the
number of the first group, and `first` the start of a run that is still open. -/
def runsFrom (i : Nat) (first : Option Nat) : List Bool → List (Nat × Nat)
  | [] => first.toList.map fun a => (a, i)
  | true :: rest => runsFrom (i + 1) (some (first.getD i)) rest
  | false :: rest => first.toList.map (fun a => (a, i)) ++ runsFrom (i + 1) none rest

/-- The runs of marked groups in a row. -/
def runs (words : List UInt64) : List (Nat × Nat) := runsFrom 0 none (marks words)

/-- The list has the maximal runs of marked groups from group `lo` on, in order, each as its first
group and the group after its last. -/
def RunsOf (marked : Nat → Prop) (lo : Nat) : List (Nat × Nat) → Prop
  | [] => ∀ g, lo ≤ g → ¬ marked g
  | (a, b) :: rest =>
    lo ≤ a ∧ a < b ∧ (∀ g, lo ≤ g → g < a → ¬ marked g) ∧ (∀ g, a ≤ g → g < b → marked g) ∧
      ¬ marked b ∧ RunsOf marked (b + 1) rest

/-- A group without a mark in front of the runs changes nothing. -/
theorem RunsOf.lower {marked : Nat → Prop} {lo : Nat} {runs : List (Nat × Nat)}
    (h : RunsOf marked (lo + 1) runs) (hlo : ¬ marked lo) : RunsOf marked lo runs := by
  have hgap {g : Nat} (hg : lo ≤ g) : g = lo ∨ lo + 1 ≤ g := by omega
  cases runs with
  | nil => exact fun g hg => (hgap hg).elim (fun h => h ▸ hlo) (h g)
  | cons run rest =>
    obtain ⟨hle, hlt, hbefore, hrest⟩ := h
    refine ⟨by omega, hlt, fun g hg hga => ?_, hrest⟩
    exact (hgap hg).elim (fun h => h ▸ hlo) fun hg => hbefore g hg hga

/-- The scan of the marks from group `i` on, without and with a run that is still open. -/
theorem runsOf_runsFrom {marked : Nat → Prop} (ms : List Bool) (i : Nat)
    (h : ∀ k, marked (i + k) ↔ ms[k]? = some true) :
    RunsOf marked i (runsFrom i none ms) ∧
      ∀ lo a, lo ≤ a → a < i → (∀ g, lo ≤ g → g < a → ¬ marked g) →
        (∀ g, a ≤ g → g < i → marked g) → RunsOf marked lo (runsFrom i (some a) ms) := by
  induction ms generalizing i with
  | nil =>
    have hnone : ∀ g, i ≤ g → ¬ marked g := by
      intro g hg
      obtain ⟨k, rfl⟩ := Nat.exists_eq_add_of_le hg
      simp [h]
    refine ⟨hnone, fun lo a hlo ha hbefore hrun => ?_⟩
    exact ⟨hlo, ha, hbefore, hrun, hnone i (Nat.le_refl i), fun g hg => hnone g (by omega)⟩
  | cons m ms ih =>
    have hrest : ∀ k, marked (i + 1 + k) ↔ ms[k]? = some true := by
      intro k
      rw [Nat.add_assoc, Nat.add_comm 1 k, h, List.getElem?_cons_succ]
    have hhead : marked i ↔ m = true := by simpa using h 0
    obtain ⟨hclosed, hopen⟩ := ih (i + 1) hrest
    cases m with
    | true =>
      refine ⟨?_, fun lo a hlo ha hbefore hrun => ?_⟩
      · refine hopen i i (Nat.le_refl i) (by omega) (fun g hg hgi => by omega) fun g hg hgi => ?_
        obtain rfl : g = i := by omega
        exact hhead.mpr rfl
      · refine hopen lo a hlo (by omega) hbefore fun g hg hgi => ?_
        by_cases hgi' : g = i
        · exact hgi' ▸ hhead.mpr rfl
        · exact hrun g hg (by omega)
    | false =>
      have hi : ¬ marked i := by simp [hhead]
      exact ⟨hclosed.lower hi, fun lo a hlo ha hbefore hrun =>
        ⟨hlo, ha, hbefore, hrun, hi, hclosed⟩⟩

theorem length_bitsOfWord (w : UInt64) : ((List.range 64).map w.toNat.testBit).length = 64 := by
  rw [List.length_map, List.length_range]

/-- The `g`-th mark is a bit of one word. -/
theorem getElem?_marks (words : List UInt64) (g : Nat) :
    (marks words)[g]? = (words[g / 64]?).map fun w => w.toNat.testBit (g % 64) := by
  induction words generalizing g with
  | nil => rfl
  | cons w words ih =>
    rw [marks, List.flatMap_cons]
    by_cases hg : g < 64
    · rw [List.getElem?_append_left (by rwa [length_bitsOfWord]), Nat.div_eq_of_lt hg,
        Nat.mod_eq_of_lt hg, List.getElem?_map, List.getElem?_range hg]
      rfl
    · obtain ⟨k, rfl⟩ := Nat.exists_eq_add_of_le (Nat.le_of_not_lt hg)
      rw [List.getElem?_append_right (by rw [length_bitsOfWord]; omega), length_bitsOfWord,
        Nat.add_sub_cancel_left, Nat.add_mod_left, Nat.add_div_left k (by omega),
        List.getElem?_cons_succ]
      exact ih k

/-- The bit of group `g` in row `r` is set. -/
def Marked (f : AnalyticFill) (r g : Nat) : Prop :=
  g / 64 < f.bitStride ∧
    ∃ w, f.bits[r * f.bitStride + g / 64]? = some w ∧ w.toNat.testBit (g % 64)

theorem Marked.lt {f : AnalyticFill} {r g : Nat} (h : f.Marked r g) : g < 64 * f.bitStride := by
  have := h.1
  omega

/-- The words of a row. -/
def rowWords (f : AnalyticFill) (r : Nat) : List UInt64 :=
  (f.bits.extract (r * f.bitStride) ((r + 1) * f.bitStride)).toList

theorem getElem?_rowWords {f : AnalyticFill} {r k : Nat}
    (hsize : (r + 1) * f.bitStride ≤ f.bits.size) :
    (f.rowWords r)[k]? = if k < f.bitStride then f.bits[r * f.bitStride + k]? else none := by
  rw [rowWords, Array.getElem?_toList, Array.getElem?_extract, Nat.min_eq_left hsize, Nat.succ_mul,
    Nat.add_sub_cancel_left]

theorem runsOf_runs {f : AnalyticFill} {r : Nat} (hsize : (r + 1) * f.bitStride ≤ f.bits.size) :
    RunsOf (f.Marked r) 0 (runs (f.rowWords r)) := by
  refine (runsOf_runsFrom _ 0 fun g => ?_).1
  rw [Nat.zero_add, getElem?_marks, getElem?_rowWords hsize, Marked]
  split
  · rename_i hg
    simp only [hg, true_and, Option.map_eq_some_iff]
  · rename_i hg
    simp [hg]

end AnalyticFill

end Scanline
