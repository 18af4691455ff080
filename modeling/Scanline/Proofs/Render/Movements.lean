import Scanline.Proofs.Fetch.Path
import Scanline.Proofs.Render.Layers
import Scanline.Render.Stroke

/-
  The layers that a stroke leaves. A stroke that moves along a row (`Stroke.Lays`) lays coverages
  over pixels of that row and ends at a column of it; one that has finished rows
  (`Stroke.Finishes`) can start in the row after them. `span?_lays`, `varied?_lays`: the spans of
  all fills leave the layers that one would expect, and never fail on a track that belongs to the
  surface and to the region of the cursor.
-/

namespace Scanline

open Cursor Surface

namespace Surface

/-- Columns `lo` to `hi` of row `y` belong to the surface, and to the region where a cursor yields
an image. -/
structure Track (R : Region) (c₀ : Cursor) (image : Int → Int → UInt32) (y : Int) (lo hi : Nat)
    (s : Surface) : Prop where
  yields : Yields R c₀ image
  valid : s.Valid
  inside : ∀ x, lo ≤ x → x < hi → s.Inside y x
  place : ∀ x : Nat, lo ≤ x → x < hi → R.Place y x

/-- Layers over one row. -/
def inRow (y : Int) (layers : Nat → List Nat) : Int → Nat → List Nat := fun y' x =>
  if y' = y then layers x else []

/-- The layers of a span with one coverage; without coverage there are none. -/
def across (a b m x : Nat) : List Nat := if (a ≤ x ∧ x < b) ∧ m ≠ 0 then [m] else []

/-- The layers of a list of coverages from column `a` on. -/
def along (a : Nat) (ms : List Nat) (x : Nat) : List Nat :=
  if a ≤ x then (ms[x - a]?).toList else []

theorem along_replicate (a n m x : Nat) :
    along a (.replicate n m) x = if a ≤ x ∧ x < a + n then [m] else [] := by
  unfold along
  by_cases hlo : a ≤ x
  · by_cases hhi : x < a + n
    · rw [if_pos hlo, if_pos ⟨hlo, hhi⟩, List.getElem?_replicate, if_pos (by omega)]
      rfl
    · rw [if_pos hlo, if_neg fun h => hhi h.2, List.getElem?_replicate, if_neg (by omega)]
      rfl
  · rw [if_neg hlo, if_neg fun h => hlo h.1]

variable {R : Region} {c₀ : Cursor} {image : Int → Int → UInt32} {y : Int} {lo hi a b : Nat}
  {s t : Surface}

theorem Track.of_shape (h : s.Track R c₀ image y lo hi) (hs : s.SameShape t) :
    t.Track R c₀ image y lo hi :=
  ⟨h.yields, hs.valid h.valid, fun x hx hx' => (hs.inside_iff y x).mpr (h.inside x hx hx'), h.place⟩

end Surface

namespace Stroke

/-- From `s` to `t`, coverages have been laid over row `y`, and `t` is at a column of the row if one
is given. -/
structure Lays (R : Region) (c₀ : Cursor) (image : Int → Int → UInt32) (y : Int)
    (layers : Nat → List Nat) (at? : Option Int) (s t : Stroke) : Prop where
  op : t.op = s.op
  layered : s.surface.Layered s.op image (inRow y layers) t.surface
  cursor : Reaches R c₀ t.cursor y at?

/-- From `s` to `t`, coverages have been laid over some rows, and `t` can start in row `y`. -/
structure Finishes (R : Region) (c₀ : Cursor) (image : Int → Int → UInt32) (y : Int)
    (layers : Int → Nat → List Nat) (s t : Stroke) : Prop where
  op : t.op = s.op
  layered : s.surface.Layered s.op image layers t.surface
  cursor : R.Row y → ∃ at?, Reaches R c₀ t.cursor y at?

variable {R : Region} {c₀ : Cursor} {image : Int → Int → UInt32} {y y' : Int}
  {lo hi a b x m : Nat} {l l' : Nat → List Nat} {layers layers' : Int → Nat → List Nat}
  {at? at?' : Option Int} {s t u : Stroke}

namespace Lays

theorem refl (image : Int → Int → UInt32) (hs : Reaches R c₀ s.cursor y at?) :
    Lays R c₀ image y (fun _ => []) at? s s :=
  ⟨rfl, (Layered.refl s.op image s.surface).congr fun _ _ _ => ite_self [], hs⟩

theorem trans (h : Lays R c₀ image y l at? s t) (h' : Lays R c₀ image y l' at?' t u) :
    Lays R c₀ image y (fun x => l x ++ l' x) at?' s u := by
  have hrest := h'.layered
  rw [h.op] at hrest
  refine ⟨h'.op.trans h.op, (h.layered.trans hrest).congr fun z x _ => ?_, h'.cursor⟩
  unfold inRow
  split <;> rfl

theorem congr (h : Lays R c₀ image y l at? s t) (hl : ∀ x, x < s.surface.width → l' x = l x) :
    Lays R c₀ image y l' at? s t := by
  refine ⟨h.op, h.layered.congr fun z x hx => ?_, h.cursor⟩
  unfold inRow
  rw [hl x hx.1]

theorem nextRow (h : Lays R c₀ image y l at? s t) :
    Finishes R c₀ image (y + 1) (inRow y l) s t.nextRow :=
  ⟨h.op, h.layered, fun hrow => ⟨none, h.cursor.nextRow hrow⟩⟩

end Lays

namespace Finishes

theorem refl (image : Int → Int → UInt32) (hs : R.Row y → ∃ at?, Reaches R c₀ s.cursor y at?) :
    Finishes R c₀ image y (fun _ _ => []) s s :=
  ⟨rfl, .refl s.op image s.surface, hs⟩

theorem trans (h : Finishes R c₀ image y layers s t) (h' : Finishes R c₀ image y' layers' t u) :
    Finishes R c₀ image y' (fun y x => layers y x ++ layers' y x) s u := by
  have hrest := h'.layered
  rw [h.op] at hrest
  exact ⟨h'.op.trans h.op, h.layered.trans hrest, h'.cursor⟩

theorem congr (h : Finishes R c₀ image y layers s t)
    (hl : ∀ y x, s.surface.Inside y x → layers' y x = layers y x) :
    Finishes R c₀ image y layers' s t :=
  ⟨h.op, h.layered.congr hl, h.cursor⟩

end Finishes

/-- Starting in a row lays nothing. -/
theorem start?_lays (hT : s.surface.Track R c₀ image y lo hi)
    (hs : Reaches R c₀ s.cursor y at?) (hlo : lo ≤ x) (hhi : x < hi) :
    ∃ t, s.start? x = some t ∧ Lays R c₀ image y (fun _ => []) (some (x : Int)) s t := by
  have hplace := hT.place x hlo hhi
  obtain ⟨cursor, hcursor⟩ := hT.yields.start hs hplace
  refine ⟨{ s with cursor }, by rw [start?, hcursor]; rfl, rfl, ?_, hs.start hplace hcursor⟩
  exact (Layered.refl s.op image s.surface).congr fun _ _ _ => ite_self []

/-- Passing over pixels lays nothing. -/
theorem skip?_lays (hY : Yields R c₀ image) (hs : Reaches R c₀ s.cursor y (some (a : Int)))
    (hab : a ≤ b) (ha : R.Place y a) (hb : R.Place y b) :
    ∃ t, s.skip? b (b - a) = some t ∧ Lays R c₀ image y (fun _ => []) (some (b : Int)) s t := by
  obtain ⟨n, rfl⟩ := Nat.exists_eq_add_of_le hab
  rw [Nat.cast_add] at hb
  obtain ⟨cursor, hcursor⟩ := hY.skip hs ha hb
  refine ⟨{ s with cursor }, ?_, rfl, ?_, ?_⟩
  · rw [Nat.add_sub_cancel_left, Nat.cast_add, skip?, hcursor]
    rfl
  · exact (Layered.refl s.op image s.surface).congr fun _ _ _ => ite_self []
  · rw [Nat.cast_add]
    exact hs.skip ha hb hcursor

/-- Drawing the next pixel lays its coverage over it. -/
theorem dab?_lays (hT : s.surface.Track R c₀ image y lo hi)
    (hs : Reaches R c₀ s.cursor y (some (x : Int))) (hlo : lo ≤ x) (hhi : x < hi) (m : Nat) :
    ∃ t, s.dab? y x m = some t ∧
      Lays R c₀ image y (fun z => if z = x then [m] else []) (some ((x + 1 : Nat) : Int)) s t := by
  have hplace := hT.place x hlo hhi
  obtain ⟨cursor, hcursor⟩ := hT.yields.next hs hplace
  obtain ⟨surface, hsurface, hlayered⟩ :=
    hT.valid.draw?_layered (hT.inside x hlo hhi) s.op image m
  refine ⟨{ s with surface, cursor }, ?_, rfl, hlayered.congr fun z w _ => ?_, ?_⟩
  · rw [dab?, hcursor]
    exact congrArg (Option.bind · _) hsurface
  · rw [inRow, single, ite_and]
  · rw [Nat.cast_add]
    exact hs.next hplace hcursor

/-- Drawing pixels with a list of coverages lays them over the columns in turn. -/
theorem varied?_lays (ms : List Nat) (hT : s.surface.Track R c₀ image y lo hi)
    (hs : Reaches R c₀ s.cursor y (some (a : Int))) (hlo : lo ≤ a) (hhi : a + ms.length ≤ hi) :
    ∃ t, s.varied? y a ms = some t ∧
      Lays R c₀ image y (along a ms) (some ((a + ms.length : Nat) : Int)) s t := by
  induction ms generalizing s a with
  | nil =>
    refine ⟨s, rfl, (Lays.refl image hs).congr fun x _ => ?_⟩
    exact ite_self []
  | cons m ms ih =>
    rw [List.length_cons] at hhi
    obtain ⟨t, ht, hst⟩ := dab?_lays hT hs hlo (by omega) m
    obtain ⟨u, hu, htu⟩ := ih (hT.of_shape hst.layered.shape) hst.cursor (by omega) (by omega)
    rw [show a + 1 + ms.length = a + (m :: ms).length by rw [List.length_cons]; omega] at htu
    refine ⟨u, ?_, (hst.trans htu).congr fun x _ => ?_⟩
    · rw [varied?, ht]
      exact hu
    · obtain hlt | rfl | hgt := Nat.lt_trichotomy x a
      · simp only [along, if_neg (Nat.not_le.mpr hlt), if_neg hlt.ne,
          if_neg (show ¬ a + 1 ≤ x by omega), List.append_nil]
      · simp only [along, le_refl, if_true, Nat.sub_self, List.getElem?_cons_zero,
          Option.toList_some, if_neg (show ¬ x + 1 ≤ x by omega), List.append_nil]
      · simp only [along, if_pos hgt.le, if_neg hgt.ne', if_pos (Nat.succ_le_of_lt hgt),
          show x - a = x - (a + 1) + 1 by omega, List.getElem?_cons_succ, List.nil_append]

/-- One coverage for many pixels is a list of equal ones. -/
theorem dabs?_eq_varied? (s : Stroke) (y : Int) (x m n : Nat) :
    s.dabs? y x m n = s.varied? y x (.replicate n m) := by
  induction n generalizing s x with
  | zero => rfl
  | succ n ih =>
    rw [dabs?, List.replicate_succ, varied?]
    exact congrArg (Option.bind _) (funext fun t => ih t (x + 1))

/-- A span with one coverage lays it over its columns, if it is not zero. Otherwise it ends where
the cursor has to be able to go. -/
theorem span?_lays (hT : s.surface.Track R c₀ image y lo hi)
    (hs : Reaches R c₀ s.cursor y (some (a : Int))) (hlo : lo ≤ a) (hab : a ≤ b) (hhi : b ≤ hi)
    {m : Nat} (hb : m = 0 → R.Place y b) :
    ∃ t, s.span? y a b m = some t ∧ Lays R c₀ image y (across a b m) (some (b : Int)) s t := by
  rw [span?_eq]
  split
  · rename_i hba
    obtain rfl : a = b := by omega
    refine ⟨s, rfl, (Lays.refl image hs).congr fun x _ => ?_⟩
    exact if_neg fun h => absurd h.1.2 (Nat.not_lt.mpr h.1.1)
  · rename_i hba
    split
    · rename_i hm
      obtain ⟨t, ht, hst⟩ := skip?_lays hT.yields hs hab (hT.place a hlo (by omega)) (hb hm)
      refine ⟨t, ht, hst.congr fun x _ => ?_⟩
      exact if_neg fun h => h.2 hm
    · rename_i hm
      obtain ⟨n, rfl⟩ := Nat.exists_eq_add_of_le hab
      rw [Nat.add_sub_cancel_left, dabs?_eq_varied?]
      obtain ⟨t, ht, hst⟩ := varied?_lays (.replicate n m) hT hs hlo
        (by rwa [List.length_replicate])
      rw [List.length_replicate] at hst
      refine ⟨t, ht, hst.congr fun x _ => ?_⟩
      rw [along_replicate, across]
      exact if_congr (and_iff_left hm) rfl rfl

end Stroke

end Scanline
