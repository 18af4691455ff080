import Scanline.Proofs.Fetch.Path
import Scanline.Proofs.Render.Painting
import Scanline.Render.Stroke

/-
  What the movements of a stroke do. A stroke that sweeps columns `a` to `b` of a row
  (`Stroke.Sweeps`) has painted them and is at column `b`; sweeps of neighbouring columns compose.
  `span?_sweeps`: a span of one coverage is a sweep, whether it is drawn or passed over.
-/

namespace Scanline

namespace Stroke
open Cursor Surface

/-- From `s` to `t`, columns `a` to `b` of row `y` have been painted, and `t` is at column `b`. -/
structure Sweeps (R : Region) (c₀ : Cursor) (image : Int → Int → UInt32) (cov : Int → Nat → Nat)
    (y : Int) (a b : Nat) (s t : Stroke) : Prop where
  op : t.op = s.op
  painted : s.surface.Painted s.op image cov (strip y a b) t.surface
  cursor : Reaches R c₀ t.cursor y (some b)

/-- From `s` to `t`, columns `a` to `b` of row `y` have been painted, and `t` is somewhere in the
row. -/
structure Draws (R : Region) (c₀ : Cursor) (image : Int → Int → UInt32) (cov : Int → Nat → Nat)
    (y : Int) (a b : Nat) (s t : Stroke) : Prop where
  op : t.op = s.op
  painted : s.surface.Painted s.op image cov (strip y a b) t.surface
  cursor : ∃ at?, Reaches R c₀ t.cursor y at?

variable {R : Region} {c₀ : Cursor} {image : Int → Int → UInt32} {cov : Int → Nat → Nat}
  {y : Int} {a b c x m : Nat} {s t u : Stroke}

namespace Sweeps

theorem refl (hs : Reaches R c₀ s.cursor y (some (a : Int))) :
    Sweeps R c₀ image cov y a a s s := by
  refine ⟨rfl, (Painted.refl s.op image cov s.surface).congr ?_ fun _ _ _ => rfl, hs⟩
  exact fun _ _ => ⟨fun h => by obtain ⟨-, hx⟩ := h; omega, False.elim⟩

/-- Neighbouring strips that are painted one after the other are a painted strip. -/
theorem trans_draws (hv : s.surface.Valid) (hab : a ≤ b) (hbc : b ≤ c)
    (h : Sweeps R c₀ image cov y a b s t) (h' : Draws R c₀ image cov y b c t u) :
    Draws R c₀ image cov y a c s u := by
  have hp' := h'.painted
  rw [h.op] at hp'
  have hdisjoint : ∀ y' x', strip y a b y' x' → ¬ strip y b c y' x' :=
    fun _ _ ⟨_, _, hx⟩ ⟨_, hx', _⟩ => absurd hx (Nat.not_lt.mpr hx')
  refine ⟨h'.op.trans h.op, (h.painted.trans hv hp' hdisjoint).congr ?_ fun _ _ _ => rfl, h'.cursor⟩
  intro y' x'
  unfold strip
  omega

theorem draws (h : Sweeps R c₀ image cov y a b s t) : Draws R c₀ image cov y a b s t :=
  ⟨h.op, h.painted, _, h.cursor⟩

theorem trans (hv : s.surface.Valid) (hab : a ≤ b) (hbc : b ≤ c)
    (h : Sweeps R c₀ image cov y a b s t) (h' : Sweeps R c₀ image cov y b c t u) :
    Sweeps R c₀ image cov y a c s u :=
  ⟨h'.op.trans h.op, (h.trans_draws hv hab hbc h'.draws).painted, h'.cursor⟩

end Sweeps

/-- What has no coverage is drawn by moving the cursor at most. -/
theorem draws_zero {cursor : Cursor} (hs : ∃ at?, Reaches R c₀ cursor y at?)
    (hi : ∀ z, a ≤ z → z < b → s.surface.Inside y z) (hz : ∀ z, a ≤ z → z < b → cov y z = 0) :
    Draws R c₀ image cov y a b s { s with cursor } := by
  refine ⟨rfl, Painted.zero _ _ (fun hx => ?_) fun hx => ?_, hs⟩
  · exact hx.1 ▸ hi _ hx.2.1 hx.2.2
  · exact hx.1 ▸ hz _ hx.2.1 hx.2.2

/-- Starting a span only moves the cursor. -/
theorem start?_eq {at? : Option Int} {a : Int} (hY : Yields R c₀ image) (hs : Reaches R c₀ s.cursor y at?)
    (hp : R.Place y a) :
    ∃ cursor, s.start? a = some { s with cursor } ∧ Reaches R c₀ cursor y (some a) := by
  obtain ⟨cursor, hcursor⟩ := hY.start hs hp
  exact ⟨cursor, by rw [start?, hcursor]; rfl, hs.start hp hcursor⟩

/-- Drawing one pixel sweeps its column. -/
theorem dab?_sweeps (hY : Yields R c₀ image) (hv : s.surface.Valid)
    (hs : Reaches R c₀ s.cursor y (some (x : Int))) (hp : R.Place y x)
    (hi : s.surface.Inside y x) (hm : cov y x = m) :
    ∃ t, s.dab? y x m = some t ∧ Sweeps R c₀ image cov y x (x + 1) s t := by
  obtain ⟨cur, hcur⟩ := hY.next hs hp
  obtain ⟨surface, hsurface, hpainted⟩ := hv.draw?_painted hi s.op image rfl hm
  refine ⟨{ s with surface, cursor := cur }, ?_, rfl, hpainted, hs.next hp hcur⟩
  rw [dab?, hcur]
  exact congrArg (Option.bind · _) hsurface

/-- Drawing `n` pixels with one coverage sweeps their columns. -/
theorem dabs?_sweeps (hY : Yields R c₀ image) (n : Nat) (hv : s.surface.Valid)
    (hs : Reaches R c₀ s.cursor y (some (x : Int)))
    (hp : ∀ z, x ≤ z → z < x + n → R.Place y z)
    (hi : ∀ z, x ≤ z → z < x + n → s.surface.Inside y z)
    (hm : ∀ z, x ≤ z → z < x + n → cov y z = m) :
    ∃ t, s.dabs? y x m n = some t ∧ Sweeps R c₀ image cov y x (x + n) s t := by
  induction n generalizing s x with
  | zero => exact ⟨s, rfl, .refl hs⟩
  | succ n ih =>
    obtain ⟨t, ht, hst⟩ := dab?_sweeps hY hv hs (hp x (by omega) (by omega))
      (hi x (by omega) (by omega)) (hm x (by omega) (by omega))
    obtain ⟨u, hu, htu⟩ := ih (hst.painted.shape.valid hv) hst.cursor
      (fun z hz hz' => hp z (by omega) (by omega))
      (fun z hz hz' => (hst.painted.shape.inside_iff y z).mpr (hi z (by omega) (by omega)))
      (fun z hz hz' => hm z (by omega) (by omega))
    rw [show x + 1 + n = x + (n + 1) by omega] at htu
    refine ⟨u, ?_, hst.trans hv (by omega) (by omega) htu⟩
    rw [dabs?, ht]
    exact hu

/-- A span of one coverage is swept; without coverage the surface stays as it is. -/
theorem span?_sweeps (hY : Yields R c₀ image) (hv : s.surface.Valid) (hab : a ≤ b)
    (hs : Reaches R c₀ s.cursor y (some (a : Int)))
    (hp : ∀ z, a ≤ z → z ≤ b → R.Place y z)
    (hi : ∀ z, a ≤ z → z < b → s.surface.Inside y z)
    (hm : ∀ z, a ≤ z → z < b → cov y z = m) :
    ∃ t, s.span? y a b m = some t ∧ Sweeps R c₀ image cov y a b s t := by
  obtain ⟨n, rfl⟩ := Nat.exists_eq_add_of_le hab
  rw [span?_eq]
  split
  · obtain rfl : n = 0 := by omega
    exact ⟨s, rfl, .refl hs⟩
  · rw [Nat.add_sub_cancel_left]
    split
    · rename_i hm0
      obtain ⟨cur, hcur⟩ := hY.skip hs (hp a le_rfl hab) (hp (a + n) hab le_rfl)
      have hreach := hs.skip (hp a le_rfl hab) (hp (a + n) hab le_rfl) hcur
      have hdraws : Draws R c₀ image cov y a (a + n) s { s with cursor := cur } :=
        draws_zero ⟨_, hreach⟩ hi fun z hz hz' => (hm z hz hz').trans hm0
      refine ⟨{ s with cursor := cur }, ?_, rfl, hdraws.painted, hreach⟩
      rw [skip?, Nat.cast_add, hcur]
      rfl
    · exact dabs?_sweeps hY n hv hs (fun z hz hz' => hp z hz hz'.le) hi hm

end Stroke

end Scanline
