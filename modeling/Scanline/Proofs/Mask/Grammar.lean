import Mathlib.Order.Nat
import Scanline.Render.MaskFill

/-
  The grammar of mask commands, apart from how they are drawn. Markers cut a list of commands into
  groups (`Grouped`), a group offers rows as long as its count and its data last (`Offers`), and the
  rows that the groups offer are counted through (`Offered`).

  `grouped_iff`: the groups that are drawn are the ones of the grammar. `getElem?_plan`: the plan of
  a fill, which says for every row what is drawn in it, lists the rows that are offered.
-/

namespace Scanline

namespace MaskCommand

/-- A command that is not a marker. -/
def IsSpan : MaskCommand → Prop
  | marker _ => False
  | constant .. | varying .. => True

/-- The groups of a list of commands, each with the count of its marker. A last group without a
marker counts once. -/
inductive Grouped : List MaskCommand → List (List MaskCommand × Nat) → Prop
  | nil : Grouped [] []
  | last {spans : List MaskCommand} (hne : spans ≠ []) (hs : ∀ c ∈ spans, c.IsSpan) :
      Grouped spans [(spans, 1)]
  | marked {spans rest : List MaskCommand} {gs : List (List MaskCommand × Nat)}
      (hs : ∀ c ∈ spans, c.IsSpan) (count : Nat) (h : Grouped rest gs) :
      Grouped (spans ++ marker count :: rest) ((spans, count) :: gs)

/-- The data of a command is long enough for row `k` of its group, as far as its columns lie left of
`width`. -/
def HasBytes (width k : Nat) (c : MaskCommand) : Prop :=
  match c with
  | varying x0 x1 data advance _ =>
    x0 < min x1 width → k * advance + (min x1 width - x0) ≤ data.size
  | marker _ | constant .. => True

instance (width k : Nat) (c : MaskCommand) : Decidable (c.HasBytes width k) :=
  match c with
  | varying .. => inferInstanceAs (Decidable (_ → _))
  | marker _ | constant .. => inferInstanceAs (Decidable True)

/-- A group has a `k`-th row: its count allows it, and so does the data of its spans. -/
def Offers (width : Nat) (spans : List MaskCommand) (count k : Nat) : Prop :=
  (count = 0 ∨ count = endless ∨ k < count) ∧ ∀ c ∈ spans, c.HasBytes width k

instance (width : Nat) (spans : List MaskCommand) (count k : Nat) :
    Decidable (Offers width spans count k) := inferInstanceAs (Decidable (_ ∧ _))

/-- Where the groups offer their rows one after the other, the `n`-th one is row `k` of a group with
the given spans. A group offers rows until it has none for the first time. -/
inductive Offered (width : Nat) :
    List (List MaskCommand × Nat) → Nat → List MaskCommand → Nat → Prop
  | own {spans : List MaskCommand} {count k : Nat} {gs : List (List MaskCommand × Nat)}
      (h : ∀ j ≤ k, Offers width spans count j) : Offered width ((spans, count) :: gs) k spans k
  | later {spans spans' : List MaskCommand} {count n i k : Nat}
      {gs : List (List MaskCommand × Nat)} (h : ∀ j < n, Offers width spans count j)
      (hend : ¬ Offers width spans count n) (h' : Offered width gs i spans' k) :
      Offered width ((spans, count) :: gs) (n + i) spans' k

/-! ## Groups -/

theorem groups_cons_span {c : MaskCommand} (hc : c.IsSpan) (rest : List MaskCommand) :
    groups (c :: rest) = match groups rest with
      | [] => [([c], 1)]
      | (spans, count) :: later => (c :: spans, count) :: later := by
  cases c with
  | marker count => exact hc.elim
  | constant x0 x1 mask => rfl
  | varying x0 x1 data advance scaled => rfl

theorem groups_last {spans : List MaskCommand} (hne : spans ≠ []) (hs : ∀ c ∈ spans, c.IsSpan) :
    groups spans = [(spans, 1)] := by
  induction spans with
  | nil => exact absurd rfl hne
  | cons c rest ih =>
    rw [groups_cons_span (hs c List.mem_cons_self)]
    by_cases hrest : rest = []
    · subst hrest
      rfl
    · rw [ih hrest fun c' hc' => hs c' (List.mem_cons_of_mem _ hc')]

theorem groups_marked {spans : List MaskCommand} (hs : ∀ c ∈ spans, c.IsSpan) (count : Nat)
    (rest : List MaskCommand) :
    groups (spans ++ marker count :: rest) = (spans, count) :: groups rest := by
  induction spans with
  | nil => rfl
  | cons c spans ih =>
    rw [List.cons_append, groups_cons_span (hs c List.mem_cons_self),
      ih fun c' hc' => hs c' (List.mem_cons_of_mem _ hc')]

/-- A span goes before the first group. -/
theorem Grouped.cons {c : MaskCommand} {rest : List MaskCommand}
    {gs : List (List MaskCommand × Nat)} (hc : c.IsSpan) :
    Grouped rest gs → Grouped (c :: rest) (match gs with
      | [] => [([c], 1)]
      | (spans, count) :: later => (c :: spans, count) :: later) := by
  intro h
  cases h with
  | nil => exact .last (List.cons_ne_nil _ _) (List.forall_mem_singleton.mpr hc)
  | last hne hs => exact .last (List.cons_ne_nil _ _) (List.forall_mem_cons.mpr ⟨hc, hs⟩)
  | marked hs count h => exact .marked (List.forall_mem_cons.mpr ⟨hc, hs⟩) count h

theorem grouped_groups (commands : List MaskCommand) : Grouped commands (groups commands) := by
  induction commands with
  | nil => exact .nil
  | cons c rest ih =>
    cases c with
    | marker count => exact @Grouped.marked [] rest _ (List.forall_mem_nil _) count ih
    | constant x0 x1 mask => exact Grouped.cons (c := constant x0 x1 mask) trivial ih
    | varying x0 x1 data advance scaled =>
      exact Grouped.cons (c := varying x0 x1 data advance scaled) trivial ih

/-- The grammar leaves no choice. -/
theorem grouped_iff {commands : List MaskCommand} {gs : List (List MaskCommand × Nat)} :
    Grouped commands gs ↔ gs = groups commands := by
  refine ⟨fun h => ?_, fun h => h ▸ grouped_groups commands⟩
  induction h with
  | nil => rfl
  | last hne hs => exact (groups_last hne hs).symm
  | marked hs count h ih => rw [groups_marked hs, ih]

/-! ## Rows -/

theorem clippedSpan?_varying (x0 x1 : Nat) (data : Array UInt8) (advance : Nat) (scaled : Bool)
    (width : Nat) : (varying x0 x1 data advance scaled).clippedSpan? width =
      if x0 < min x1 width then some (x0, min x1 width) else none := rfl

theorem hasRow_iff {width k : Nat} {c : MaskCommand} : hasRow width k c ↔ c.HasBytes width k := by
  cases c with
  | marker count => exact ⟨fun _ => trivial, fun _ => rfl⟩
  | constant x0 x1 mask => exact ⟨fun _ => trivial, fun _ => rfl⟩
  | varying x0 x1 data advance scaled =>
    rw [hasRow, clippedSpan?_varying, HasBytes]
    by_cases h : x0 < min x1 width
    · rw [if_pos h]
      exact ⟨fun hrow _ => of_decide_eq_true hrow, fun hrow => decide_eq_true (hrow h)⟩
    · rw [if_neg h]
      exact ⟨fun _ h' => absurd h' h, fun _ => rfl⟩

/-- The rows of one group from row `k` on, `left` at most. -/
def groupPlan (width : Nat) (spans : List MaskCommand) (limit : Option Nat) (k : Nat) :
    Nat → List (List MaskCommand × Nat)
  | 0 => []
  | left + 1 =>
    if spans.all (hasRow width k) then
      (spans, k) :: if limit.any (· ≤ k + 1) then [] else groupPlan width spans limit (k + 1) left
    else []

/-- The rows of groups, `left` at most: each with the spans that are drawn in it and its number in
its group. -/
def plan (width left : Nat) : List (List MaskCommand × Nat) → List (List MaskCommand × Nat)
  | [] => []
  | (spans, count) :: rest =>
    let own := groupPlan width spans (limit? count) 0 left
    own ++ plan width (left - own.length) rest

variable {width : Nat} {spans : List MaskCommand} {count : Nat}

/-- A count that has not run out before row `k` has done so after it if the row is its last. -/
theorem any_limit?_iff {k : Nat} :
    (limit? count).any (· ≤ k + 1) ↔ ¬ (count = 0 ∨ count = endless ∨ k + 1 < count) := by
  rw [limit?, ← or_assoc, not_or]
  split
  · rename_i h
    exact ⟨fun h' => absurd h' Bool.false_ne_true, fun h' => absurd h h'.1⟩
  · rename_i h
    simp only [Option.any_some, decide_eq_true_eq]
    omega

theorem getElem?_groupPlan (width : Nat) (spans : List MaskCommand) {k : Nat}
    (hk : count = 0 ∨ count = endless ∨ k < count) (left i : Nat)
    (row : List MaskCommand × Nat) :
    (groupPlan width spans (limit? count) k left)[i]? = some row ↔
      i < left ∧ row = (spans, k + i) ∧ ∀ j ≤ i, Offers width spans count (k + j) := by
  induction left generalizing k i with
  | zero => simp only [groupPlan, List.getElem?_nil, reduceCtorEq, Nat.not_lt_zero, false_and]
  | succ left ih =>
    have hall : spans.all (hasRow width k) ↔ Offers width spans count k := by
      rw [List.all_eq_true, Offers]
      simp only [hasRow_iff, hk, true_and]
    rw [groupPlan]
    split
    · rename_i hrow
      have hoffers := hall.mp hrow
      cases i with
      | zero =>
        rw [List.getElem?_cons_zero, Option.some.injEq]
        refine ⟨fun h => ⟨Nat.succ_pos left, h.symm, fun j hj => ?_⟩, fun h => h.2.1.symm⟩
        obtain rfl := Nat.le_zero.mp hj
        exact hoffers
      | succ i =>
        rw [List.getElem?_cons_succ]
        split
        · rename_i hlimit
          -- the count has run out: there is no row `k + 1`
          refine ⟨nofun, fun ⟨_, _, h⟩ => absurd (h 1 (by omega)).1 ?_⟩
          exact any_limit?_iff.mp hlimit
        · rename_i hlimit
          have hk' := not_not.mp (mt any_limit?_iff.mpr hlimit)
          rw [ih hk', Nat.succ_lt_succ_iff, Nat.add_right_comm, Nat.add_assoc]
          refine and_congr_right fun _ => and_congr_right fun _ =>
            ⟨fun h j hj => ?_, fun h j hj => ?_⟩
          · cases j with
            | zero => exact hoffers
            | succ j => exact Nat.add_right_comm k 1 j ▸ h j (Nat.le_of_succ_le_succ hj)
          · exact Nat.add_right_comm k 1 j ▸ h (j + 1) (Nat.succ_le_succ hj)
    · rename_i hrow
      refine ⟨nofun, fun ⟨_, _, h⟩ => absurd (h 0 (Nat.zero_le i)) ?_⟩
      exact mt hall.mpr hrow

/-- The rows of a group end where there are none left, or where it offers no more. -/
theorem offers_groupPlan (width : Nat) (spans : List MaskCommand) (count left : Nat) :
    let own := groupPlan width spans (limit? count) 0 left
    own.length ≤ left ∧ (∀ j < own.length, Offers width spans count j) ∧
      (own.length < left → ¬ Offers width spans count own.length) := by
  intro own
  have hfirst : count = 0 ∨ count = endless ∨ 0 < count := by omega
  have hown (i : Nat) (row : List MaskCommand × Nat) : own[i]? = some row ↔
      i < left ∧ row = (spans, 0 + i) ∧ ∀ j ≤ i, Offers width spans count (0 + j) :=
    getElem?_groupPlan width spans hfirst left i row
  simp only [Nat.zero_add] at hown
  have hbefore : ∀ j < own.length, j < left ∧ Offers width spans count j := fun j hj =>
    have hrow := (hown j own[j]).mp (List.getElem?_eq_getElem hj)
    ⟨hrow.1, hrow.2.2 j le_rfl⟩
  refine ⟨?_, fun j hj => (hbefore j hj).2, fun hlt hoffers => ?_⟩
  · by_contra hlong
    exact absurd (hbefore left (Nat.lt_of_not_le hlong)).1 (Nat.lt_irrefl left)
  · have hrow := (hown own.length (spans, own.length)).mpr ⟨hlt, rfl, fun j hj => ?_⟩
    · rw [List.getElem?_eq_none le_rfl] at hrow
      cases hrow
    · obtain hj | rfl := Nat.lt_or_eq_of_le hj
      · exact (hbefore j hj).2
      · exact hoffers

/-- A plan lists the rows that the groups offer, as many as there are left. -/
theorem getElem?_plan (left n : Nat) (gs : List (List MaskCommand × Nat)) (k : Nat) :
    (plan width left gs)[n]? = some (spans, k) ↔ n < left ∧ Offered width gs n spans k := by
  induction gs generalizing left n with
  | nil => exact ⟨nofun, fun h => nomatch h.2⟩
  | cons g rest ih =>
    obtain ⟨first, count⟩ := g
    have hfirst : count = 0 ∨ count = endless ∨ 0 < count := by omega
    have hown := getElem?_groupPlan width first hfirst left n (spans, k)
    obtain ⟨hle, hoffers, hend⟩ := offers_groupPlan width first count left
    simp only [Nat.zero_add] at hown
    rw [plan]
    by_cases hn : n < (groupPlan width first (limit? count) 0 left).length
    · rw [List.getElem?_append_left hn, hown]
      refine and_congr_right fun _ => ⟨fun ⟨hrow, h⟩ => ?_, fun h => ?_⟩
      · cases hrow
        exact .own h
      · cases h with
        | own h => exact ⟨rfl, h⟩
        | later h hend h' => exact absurd (hoffers _ (by omega)) hend
    · -- the group has ended, and the row is one of the later groups
      rw [List.getElem?_append_right (Nat.le_of_not_lt hn), ih]
      generalize (groupPlan width first (limit? count) 0 left).length = r at *
      refine ⟨fun ⟨hlt, h⟩ => ⟨by omega, ?_⟩, fun ⟨hlt, h⟩ => ⟨by omega, ?_⟩⟩
      · rw [← Nat.add_sub_cancel' (Nat.le_of_not_lt hn)]
        exact .later hoffers (hend (by omega)) h
      · cases h with
        | own h => exact absurd (h r (Nat.le_of_not_lt hn)) (hend (by omega))
        | @later _ _ _ r' i _ _ h hend' h' =>
          obtain hlt' | rfl | hgt := Nat.lt_trichotomy r' r
          · exact absurd (hoffers r' hlt') hend'
          · rwa [Nat.add_sub_cancel_left]
          · exact absurd (h r hgt) (hend (by omega))

end MaskCommand

end Scanline
