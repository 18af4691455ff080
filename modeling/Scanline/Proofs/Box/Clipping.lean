import Scanline.Proofs.Box.Layers

/-
  Boxes that are cut into rows. The part of a box in some rows lays in these rows what the whole
  box lays there (`Fill.boxLayers_clipRows?`), and where there is no such part the box lays nothing
  (`Fill.boxLayers_eq_nil`). `Fill.Boxed` collects what drawing and cutting rely on: boxes of the
  constructors have it, and so do their parts.
-/

namespace Scanline

open Cursor Surface

namespace FractionalBox

variable {lo hi row y : Int} {x0 x1 x : Nat} {tiers : List CoverageTier}

/-- In the rows that are left, the tiers that are cut have the layers that they had before. -/
theorem tierLayers_clipTiers (ht : ∀ t ∈ tiers, Short t) (hrow : minInt32 ≤ row)
    (hrow' : row ≤ maxInt32) (hmax : hi ≤ maxInt32) (hlo : max row lo ≤ y) (hhi : y < hi) :
    tierLayers x0 x1 (max row lo) (clipTiers lo hi row tiers) y x =
      tierLayers x0 x1 row tiers y x := by
  induction tiers generalizing row with
  | nil => rfl
  | cons t rest ih =>
    have hshort := ht t List.mem_cons_self
    have hstop := stopAfter_eq hrow hshort
    have hrest : max (t.stopAfter row) lo ≤ y →
        tierLayers x0 x1 (max (t.stopAfter row) lo) (clipTiers lo hi (t.stopAfter row) rest) y x =
          tierLayers x0 x1 (t.stopAfter row) rest y x :=
      ih (fun t' ht' => ht t' (List.mem_cons_of_mem _ ht')) (by omega) (by omega)
    rw [clipTiers, tierLayers_cons]
    split
    · rename_i hpart
      -- what is left of the tier ends where the tier ends or at row `hi`
      generalize hrows : (min (t.stopAfter row) hi - max row lo).toNat = rows
      have hcut : Short { t with rows } := by
        unfold Short at *
        dsimp only
        omega
      have hend : CoverageTier.stopAfter { t with rows } (max row lo) =
          min (t.stopAfter row) hi := by
        rw [stopAfter_eq (by omega) hcut]
        dsimp only
        omega
      rw [tierLayers_cons, hend]
      by_cases hy : y < t.stopAfter row
      · rw [if_pos (by omega), if_pos hy]
        rfl
      · rw [if_neg (by omega), if_neg hy, ← hrest (by omega)]
        congr 1
        omega
    · rename_i hpart
      rw [if_neg (by omega), ← hrest (by omega)]
      congr 1
      omega

theorem clipTiers_short (ht : ∀ t ∈ tiers, Short t) (hrow : minInt32 ≤ row) :
    ∀ t ∈ clipTiers lo hi row tiers, Short t := by
  induction tiers generalizing row with
  | nil => exact ht
  | cons t rest ih =>
    have hshort := ht t List.mem_cons_self
    have hstop := stopAfter_eq hrow hshort
    have hmin : minInt32 ≤ maxInt32 := by decide
    have hrest : ∀ t' ∈ clipTiers lo hi (t.stopAfter row) rest, Short t' :=
      ih (fun t' ht' => ht t' (List.mem_cons_of_mem _ ht')) (by omega)
    unfold clipTiers
    dsimp only
    split
    · refine List.forall_mem_cons.mpr ⟨?_, hrest⟩
      unfold Short at *
      dsimp only
      omega
    · exact hrest

/-- Every tier of a stack has one row, but for the whole rows in the middle. -/
theorem rows_of_mem_stack {top middle bottom t : CoverageTier} {h : Nat} (htop : top.rows = 1)
    (hbottom : bottom.rows = 1) (ht : t ∈ stack top middle bottom h) :
    t.rows = 1 ∨ t.rows = h - 2 := by
  simp only [stack, List.mem_append, List.mem_singleton] at ht
  obtain (ht | ht) | rfl := ht
  · split at ht
    · obtain rfl := List.mem_singleton.mp ht
      exact .inl htop
    · cases ht
  · split at ht
    · obtain rfl := List.mem_singleton.mp ht
      exact .inr rfl
    · cases ht
  · exact .inl hbottom

theorem shrink_rows (b : Box) (top bottom : CoverageTier) :
    b.y0 ≤ (shrink b top bottom).y0 ∧ (shrink b top bottom).y0 ≤ b.y0 + 1 ∧
      b.y1 - 1 ≤ (shrink b top bottom).y1 := by
  unfold shrink
  dsimp only
  split_ifs <;> omega

/-- A box of the constructor has a row at least, and its tiers have no more rows than its bounds. -/
theorem rows_of_ofFixed? {alpha : Nat} {x0 y0 x1 y1 : Int} {b : FractionalBox}
    (h : ofFixed? alpha x0 y0 x1 y1 = some b) :
    0 ≤ b.bounds.y0 ∧ b.bounds.y0 < b.bounds.y1 ∧
      ∀ t ∈ b.tiers, (t.rows : Int) ≤ b.bounds.y1 - b.bounds.y0 := by
  unfold ofFixed? at h
  split at h
  · cases h
  · dsimp only at h
    generalize y0.toNat / 256 = upper at h
    generalize (y1.toNat + 255) / 256 = lower at h
    -- the tiers of a stack lie in its bounds, which are shrunk by two rows at most
    have hstack {bounds : Box} {top bottom : CoverageTier} {tiers : List CoverageTier}
        (hb : bounds.y0 = upper ∧ bounds.y1 = lower) (hrows : top.rows = 1 ∧ bottom.rows = 1)
        (htiers : tiers = [top] ∨ ∃ middle, tiers = stack top middle bottom (lower - upper))
        (hlt : (shrink bounds top bottom).y0 < (shrink bounds top bottom).y1) :
        0 ≤ (shrink bounds top bottom).y0 ∧
          (shrink bounds top bottom).y0 < (shrink bounds top bottom).y1 ∧ ∀ t ∈ tiers,
          (t.rows : Int) ≤ (shrink bounds top bottom).y1 - (shrink bounds top bottom).y0 := by
      obtain ⟨hlo, hle, hhi⟩ := shrink_rows bounds top bottom
      refine ⟨by omega, hlt, fun t ht => ?_⟩
      have hone : t.rows = 1 ∨ t.rows = lower - upper - 2 := by
        obtain rfl | ⟨middle, rfl⟩ := htiers
        · exact .inl (List.mem_singleton.mp ht ▸ hrows.1)
        · exact rows_of_mem_stack hrows.1 hrows.2 ht
      omega
    split_ifs at h
    · obtain rfl := Option.some.inj h
      refine ⟨Int.natCast_nonneg upper, show (upper : Int) < lower by omega,
        List.forall_mem_singleton.mpr ?_⟩
      change ((1 : Nat) : Int) ≤ lower - upper
      omega
    · obtain rfl := Option.some.inj h
      exact hstack ⟨rfl, rfl⟩ ⟨rfl, rfl⟩ (.inr ⟨_, rfl⟩) (by omega)
    · obtain rfl := Option.some.inj h
      exact hstack ⟨rfl, rfl⟩ ⟨rfl, rfl⟩ (.inl rfl) (by omega)
    · obtain rfl := Option.some.inj h
      exact hstack ⟨rfl, rfl⟩ ⟨rfl, rfl⟩ (.inr ⟨_, rfl⟩) (by omega)

/-- In the rows of a part, the part lays what the box lays. -/
theorem layers_clipRows? {b part : FractionalBox} (ht : ∀ t ∈ b.tiers, Short t)
    (hmin : minInt32 ≤ b.bounds.y0) (hle : b.bounds.y0 ≤ b.bounds.y1)
    (hmax : b.bounds.y1 ≤ maxInt32) (h : b.clipRows? lo hi = some part) (hlo : lo ≤ y)
    (hhi : y < hi) (x : Nat) : part.layers y x = b.layers y x := by
  obtain ⟨rfl, -⟩ := eq_of_clipRows? h
  by_cases hy : b.bounds.y0 ≤ y ∧ y < b.bounds.y1
  · have hstart : max b.bounds.y0 lo ≤ y := max_le hy.1 hlo
    have hstop : y < min b.bounds.y1 hi := lt_min hy.2 hhi
    have htiers : tierLayers b.bounds.x0.toNat b.bounds.x1.toNat
        (max b.bounds.y0 (max b.bounds.y0 lo))
        (clipTiers (max b.bounds.y0 lo) (min b.bounds.y1 hi) b.bounds.y0 b.tiers) y x =
          tierLayers b.bounds.x0.toNat b.bounds.x1.toNat b.bounds.y0 b.tiers y x :=
      tierLayers_clipTiers ht hmin (hle.trans hmax) ((min_le_left _ hi).trans hmax)
        (max_le hy.1 hstart) hstop
    rw [max_eq_right (le_max_left b.bounds.y0 lo)] at htiers
    exact (if_pos ⟨hstart, hstop⟩).trans (htiers.trans (if_pos hy).symm)
  · refine (if_neg fun hpart => hy ?_).trans (if_neg hy).symm
    exact ⟨(le_max_left _ _).trans hpart.1, hpart.2.trans_le (min_le_left _ _)⟩

/-- A box without a part in some rows lays nothing there. -/
theorem layers_eq_nil {b : FractionalBox} (h : b.clipRows? lo hi = none) (hlo : lo ≤ y)
    (hhi : y < hi) (x : Nat) : b.layers y x = [] := by
  unfold clipRows? at h
  dsimp only [Box.clipRows] at h
  split at h
  · exact if_neg (by omega)
  · cases h

end FractionalBox

namespace AlignedBox

variable {lo hi y : Int} {b part : AlignedBox}

theorem alpha_mem {alpha : Nat} (h : alpha ≠ 0) : min alpha 255 ≠ 0 ∧ min alpha 255 ≤ 255 := by
  omega

/-- In the rows of a part, the part lays what the box lays. -/
theorem layers_clipRows? (halpha : b.alpha ≤ 255) (h : b.clipRows? lo hi = some part)
    (hlo : lo ≤ y) (hhi : y < hi) (x : Nat) : part.layers y x = b.layers y x := by
  obtain ⟨rfl, -⟩ := eq_of_ofBounds? h
  dsimp only [layers, inRows, Box.clipRows]
  rw [Nat.min_eq_left halpha]
  exact if_congr (by omega) rfl rfl

/-- A box without a part in some rows lays nothing there. -/
theorem layers_eq_nil (h : b.clipRows? lo hi = none) (hlo : lo ≤ y) (hhi : y < hi) (x : Nat) :
    b.layers y x = [] := by
  unfold clipRows? ofBounds? at h
  split at h
  · rename_i hempty
    simp only [Box.isEmpty, Bool.or_eq_true, decide_eq_true_eq] at hempty
    change b.alpha = 0 ∨ b.bounds.x1 ≤ b.bounds.x0 ∨
      min b.bounds.y1 hi ≤ max b.bounds.y0 lo at hempty
    unfold layers inRows across
    split_ifs <;> first | rfl | omega
  · cases h

end AlignedBox

namespace Fill

/-- The fill is a box that can be drawn and cut into rows: its edges are in order, and the rows of
its tiers fit words. -/
def Boxed : Fill → Prop
  | alignedBox b => (b.alpha ≠ 0 ∧ b.alpha ≤ 255) ∧ 0 ≤ b.bounds.x0 ∧ b.bounds.x0 < b.bounds.x1
  | fractionalBox b => b.Upright ∧ (minInt32 ≤ b.bounds.y0 ∧ b.bounds.y0 ≤ b.bounds.y1 ∧
      b.bounds.y1 ≤ maxInt32) ∧ ∀ t ∈ b.tiers, FractionalBox.Short t
  | mask _ | analytic _ => False

/-- The layers of a box; this is not asked of other fills. -/
def boxLayers : Fill → Int → Nat → List Nat
  | alignedBox b => b.layers
  | fractionalBox b => b.layers
  | mask _ | analytic _ => fun _ _ => []

variable {f part : Fill} {lo hi y : Int}

/-- Boxes of the constructors, with bounds that a whole surface holds, can be drawn and cut. -/
theorem Made.boxed {s : Surface} (hf : f.Made) (hbox : f.kind = .alignedBox ∨
    f.kind = .fractionalBox) (hin : s.Holds f.bounds) (htop : s.top = 0) : f.Boxed := by
  cases f with
  | alignedBox b =>
    obtain ⟨alpha, bounds, h⟩ := hf
    obtain ⟨rfl, halpha, hx, -⟩ := AlignedBox.eq_of_ofBounds? h
    exact ⟨AlignedBox.alpha_mem halpha, hin.1, hx⟩
  | fractionalBox b =>
    obtain ⟨alpha, x0, y0, x1, y1, h⟩ := hf
    obtain ⟨hx0, hx⟩ := FractionalBox.columns_of_ofFixed? h
    obtain ⟨hy0, hy, hrows⟩ := FractionalBox.rows_of_ofFixed? h
    have hright := hin.2.1.trans (wrap32_mem s.width).2
    have hbottom : b.bounds.y1 ≤ s.bottom := hin.2.2.2
    have hmax := (wrap32_mem s.height).2
    rw [Surface.bottom, htop] at hbottom
    refine ⟨⟨hx0, hx, hright⟩, ⟨?_, hy.le, by omega⟩, fun t ht => ?_⟩
    · exact le_trans (by decide) hy0
    · have hle := hrows t ht
      unfold FractionalBox.Short
      omega
  | mask f => exact nomatch hbox
  | analytic f => exact nomatch hbox

/-- A box of a constructor has a row at least. -/
theorem Made.rows_lt (hf : f.Made) (hbox : f.kind = .alignedBox ∨ f.kind = .fractionalBox) :
    f.bounds.y0 < f.bounds.y1 := by
  cases f with
  | alignedBox b =>
    obtain ⟨alpha, bounds, h⟩ := hf
    obtain ⟨rfl, -, -, hy⟩ := AlignedBox.eq_of_ofBounds? h
    exact hy
  | fractionalBox b =>
    obtain ⟨alpha, x0, y0, x1, y1, h⟩ := hf
    exact (FractionalBox.rows_of_ofFixed? h).2.1
  | mask f => exact nomatch hbox
  | analytic f => exact nomatch hbox

theorem Boxed.columns (hf : f.Boxed) : f.bounds.x0 < f.bounds.x1 := by
  cases f with
  | alignedBox b => exact hf.2.2
  | fractionalBox b => exact hf.1.x0_lt
  | mask f => exact hf.elim
  | analytic f => exact hf.elim

/-- A part of a box can be drawn and cut. -/
theorem Boxed.clipRows? (hf : f.Boxed) (h : f.clipRows? lo hi = some part) : part.Boxed := by
  cases f with
  | alignedBox b =>
    obtain ⟨b', hb, rfl⟩ := Option.map_eq_some_iff.mp h
    obtain ⟨rfl, halpha, -⟩ := AlignedBox.eq_of_ofBounds? hb
    exact ⟨AlignedBox.alpha_mem halpha, hf.2⟩
  | fractionalBox b =>
    obtain ⟨b', hb, rfl⟩ := Option.map_eq_some_iff.mp h
    obtain ⟨rfl, hlt⟩ := FractionalBox.eq_of_clipRows? hb
    obtain ⟨hupright, ⟨hmin, -, hmax⟩, hshort⟩ := hf
    exact ⟨⟨hupright.1, hupright.2, hupright.3⟩, ⟨hmin.trans (le_max_left _ _), hlt.le,
      (min_le_left _ _).trans hmax⟩, FractionalBox.clipTiers_short hshort hmin⟩
  | mask f => exact hf.elim
  | analytic f => exact hf.elim

/-- In the rows of a part, the part lays what the box lays. -/
theorem boxLayers_clipRows? (hf : f.Boxed) (h : f.clipRows? lo hi = some part) (hlo : lo ≤ y)
    (hhi : y < hi) (x : Nat) : part.boxLayers y x = f.boxLayers y x := by
  cases f with
  | alignedBox b =>
    obtain ⟨b', hb, rfl⟩ := Option.map_eq_some_iff.mp h
    exact AlignedBox.layers_clipRows? hf.1.2 hb hlo hhi x
  | fractionalBox b =>
    obtain ⟨b', hb, rfl⟩ := Option.map_eq_some_iff.mp h
    obtain ⟨-, ⟨hmin, hle, hmax⟩, hshort⟩ := hf
    exact FractionalBox.layers_clipRows? hshort hmin hle hmax hb hlo hhi x
  | mask f => exact hf.elim
  | analytic f => exact hf.elim

/-- A box without a part in some rows lays nothing there. -/
theorem boxLayers_eq_nil (hf : f.Boxed) (h : f.clipRows? lo hi = none) (hlo : lo ≤ y)
    (hhi : y < hi) (x : Nat) : f.boxLayers y x = [] := by
  cases f with
  | alignedBox b => exact AlignedBox.layers_eq_nil (Option.map_eq_none_iff.mp h) hlo hhi x
  | fractionalBox b => exact FractionalBox.layers_eq_nil (Option.map_eq_none_iff.mp h) hlo hhi x
  | mask f => exact hf.elim
  | analytic f => exact hf.elim

/-- Where a surface holds the bounds of a box and a cursor yields an image there, drawing lays the
layers of the box. -/
theorem Boxed.draw?_layered {s : Surface} {R : Region} {c₀ : Cursor} {image : Int → Int → UInt32}
    (hf : f.Boxed) (op : Operator) (hv : s.Valid) (hin : s.Holds f.bounds)
    (hY : Yields R c₀ image) (hplace : ∀ y x, f.bounds.y0 ≤ y → y < f.bounds.y1 →
      f.bounds.x0 ≤ x → x < f.bounds.x1 → R.Place y x) :
    ∃ t, f.draw? ⟨op, s, c₀⟩ = some (f, t) ∧ s.Layered op image f.boxLayers t.surface := by
  have hx := hf.columns
  have hx0 : 0 ≤ f.bounds.x0 := hin.1
  have hT : ∀ y, f.bounds.y0 ≤ y → y < f.bounds.y1 →
      s.Track R c₀ image y f.bounds.x0.toNat f.bounds.x1.toNat := by
    intro y hy hy'
    obtain ⟨-, htop, hbottom⟩ := hin.rows (hy.trans hy'.le)
    have hx1 := hin.columns.2
    exact ⟨hY, hv, fun x hx hx' => ⟨by omega, by omega, by omega⟩, fun x hx hx' =>
      hplace y x hy hy' (by omega) (by omega)⟩
  cases f with
  | alignedBox b =>
    obtain ⟨t, ht, hl⟩ := AlignedBox.draw?_layered op hf.1.1 hf.2.1 hf.2.2 hT
    exact ⟨t, congrArg (Option.map _) ht, hl⟩
  | fractionalBox b =>
    obtain ⟨hupright, ⟨hmin, -, hmax⟩, hshort⟩ := hf
    obtain ⟨t, ht, hl⟩ := FractionalBox.draw?_layered op hupright hmin hmax hshort hT
    exact ⟨t, congrArg (Option.map _) ht, hl⟩
  | mask f => exact hf.elim
  | analytic f => exact hf.elim

end Fill

end Scanline
