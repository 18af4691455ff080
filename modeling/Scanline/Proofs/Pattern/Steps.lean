import Scanline.Pattern.Sampling
import Scanline.Proofs.Numeric.DoubleUnits
import Scanline.Proofs.Pattern.Axes

/-
  The axes of a mapped pattern. The step of an axis is worked out in floats: negated where the axis
  is walked backwards, reduced by the period, scaled to fixed point and rounded down.
  `floor_step_mem`: none of this lets it reach over a period. So every axis is shaped by its rule
  (`Sampling.shaped_of_ofInverse?`), which makes it sound (`Sampling.sound_of_ofInverse?`).
-/

namespace Scanline

open Float.Model.UnpackedFloat

/-- The rule of an axis, and whether the axis is walked backwards. -/
structure AxisRule where
  extend : Extend
  mirrored : Bool

namespace SampleAxis

theorem unpack_bound : (9223372036854775808 : Float).toModel.unpack =
    .finite .positive (2 ^ 52) 11 (by decide) := rfl

theorem unpack_neg_bound : (-9223372036854775808 : Float).toModel.unpack =
    .finite .negative (2 ^ 52) 11 (by decide) := rfl

/-- What has a place among 64-bit integers is a number. -/
theorem units_of_fits {x : Float} (h : fits x) : ∃ u, units? x = some u := by
  obtain ⟨hlow, hhigh⟩ := Bool.and_eq_true_iff.mp h
  rw [decide_eq_true_iff, le_iff_compare, unpack_neg_bound] at hlow
  rw [decide_eq_true_iff, le_iff_compare, unpack_bound] at hhigh
  rw [units?_eq]
  cases hx : x.toModel.unpack with
  | infinity s =>
    rw [hx] at hlow hhigh
    cases s
    · cases hlow
    · cases hhigh
  | notANumber =>
    rw [hx] at hhigh
    cases hhigh
  | zero s => exact ⟨0, units?_ofUnpacked_zero s⟩
  | finite s m e hm => exact ⟨_, units?_ofUnpacked_finite s m e hm⟩

/-- A step in units that is less than `n` cells, or one that is no number. -/
def StepBelow (n : Int) (x : Float) : Prop :=
  ∀ u, units? x = some u → 0 ≤ u ∧ u < n * unitsIn 0

theorem units?_zero : units? 0 = some 0 := by
  rw [units?_eq]
  exact units?_ofUnpacked_zero _

theorem units?_ofInt {k : Int} (h0 : 0 ≤ k) (hlt : k < 2 ^ 53) :
    units? (Float.ofInt k) = some (k * unitsIn 0) := by
  obtain ⟨n, rfl⟩ := Int.eq_ofNat_of_zero_le h0
  exact units?_ofNat (by omega)

variable {e : Extend} {n : Int}

/-- An axis that is walked forward has no step below zero. -/
theorem forward_step_nonneg (he : e ≠ .pad) (c : Course) {u : Int}
    (hu : units? (forward e n c).1.step = some u) : 0 ≤ u := by
  have hpad : (e != .pad) = true := bne_iff_ne.mpr he
  unfold forward at hu
  rw [hpad, Bool.true_and] at hu
  split at hu
  · rename_i hneg
    change units? (-c.step) = some u at hu
    rw [units?_neg] at hu
    obtain ⟨v, hv, rfl⟩ := Option.map_eq_some_iff.mp hu
    have := (lt_iff_units hv units?_zero).mp (of_decide_eq_true hneg)
    omega
  · rename_i hneg
    change units? c.step = some u at hu
    have := mt (lt_iff_units hu units?_zero).mpr (fun h => hneg (decide_eq_true h))
    omega

/-- Within the period no step passes over it. -/
theorem within_step_below (he : e ≠ .pad) (c : Course) (hn : 0 < span e n) (hn' : span e n < 2 ^ 53)
    (hnonneg : ∀ u, units? c.step = some u → 0 ≤ u) : StepBelow (span e n) (within e n c).step := by
  have hperiod := units?_ofInt hn.le hn'
  have hpos : 0 < span e n * unitsIn 0 := Int.mul_pos hn (by exact_mod_cast unitsIn_pos 0)
  intro u hu
  unfold within at hu
  rw [if_neg he] at hu
  dsimp only at hu
  cases hv : units? c.step with
  | none =>
    split at hu
    · rw [units?_floatRemainder_of_none hv hperiod] at hu
      cases hu
    · rw [hv] at hu
      cases hu
  | some v =>
    have h0 := hnonneg v hv
    split at hu
    · rw [units?_floatRemainder hv h0 hperiod hpos] at hu
      obtain rfl := Option.some.inj hu
      exact ⟨Int.emod_nonneg _ hpos.ne', Int.emod_lt_of_pos _ hpos⟩
    · rename_i hbelow
      rw [hv] at hu
      obtain rfl := Option.some.inj hu
      exact ⟨h0, by_contra fun h => hbelow ((le_iff_units hperiod hv).mpr (by omega))⟩

/-- The float that `unit` is in fixed point. -/
theorem unpack_unit : (4294967296 : Float).toModel.unpack =
    .finite .positive (2 ^ 52) ((32 : Nat) - 52) (by decide) := rfl

theorem course_step_below (he : e ≠ .pad) (b : Bool) (c : Course) (hn : 0 < span e n)
    (hn' : span e n < 2 ^ 53) : StepBelow (span e n) (course e n b c).1.step := by
  have hforward : ∀ u, units? (forward e n c).1.step = some u → 0 ≤ u :=
    fun u hu => forward_step_nonneg he c hu
  unfold course
  dsimp only
  split
  · exact within_step_below he _ hn hn' hforward
  · exact within_step_below he _ hn hn' hforward

/-- A step below `n` cells is rounded to one below `n` cells. -/
theorem floor_step_mem {c : Course} (hn : n < 2 ^ 30) (hc : StepBelow n c.step)
    (hfit : (scaled c).allFit) :
    0 ≤ floorToInt64 (scaled c).step ∧ floorToInt64 (scaled c).step < n * 2 ^ 32 := by
  have hone : (0 : Int) < unitsIn 0 := by exact_mod_cast unitsIn_pos 0
  have hstep : (scaled c).step = c.step * 4294967296 := rfl
  obtain ⟨u', hu'⟩ := units_of_fits (Bool.and_eq_true_iff.mp (Bool.and_eq_true_iff.mp hfit).1).1
  cases hu : units? c.step with
  | none =>
    rw [hstep, units?_mul_of_none unpack_unit hu] at hu'
    cases hu'
  | some u =>
    obtain ⟨h0, hlt⟩ := hc u hu
    have hbound : u.natAbs < 2 ^ 64 * unitsIn 0 := by
      have : u < 2 ^ 64 * (unitsIn 0 : Int) :=
        lt_of_lt_of_le hlt (Int.mul_le_mul_of_nonneg_right (by omega) hone.le)
      omega
    have hunits := units?_mul_two_pow (by omega) unpack_unit hu hbound
    have hfloor : floorToInt64 (scaled c).step =
        clampInt minInt64 maxInt64 (u * 2 ^ 32 / unitsIn 0) :=
      floorToInt64_of_units hunits (by omega)
    have hquot : 0 ≤ u * 2 ^ 32 / unitsIn 0 := Int.ediv_nonneg (by omega) hone.le
    have hquot' : u * 2 ^ 32 / unitsIn 0 < n * 2 ^ 32 := by
      refine Int.ediv_lt_of_lt_mul hone ?_
      calc u * 2 ^ 32 < n * unitsIn 0 * 2 ^ 32 := by omega
        _ = n * 2 ^ 32 * unitsIn 0 := by ring
    rw [hfloor]
    unfold clampInt minInt64 maxInt64
    split
    · omega
    · split <;> omega

theorem period_corrections (he : e ≠ .pad) (n : Int) (mirrored : Bool) :
    (corrections e n mirrored).period = span e n := by
  cases e with
  | pad => exact absurd rfl he
  | tile => cases mirrored <;> rfl
  | reflect => rfl

section Shaped

/-- The axis without its course. -/
def atRest (a : SampleAxis) : SampleAxis := { a with step := 0, rowStep := 0, start := 0 }

/-- An axis of `n` cells with the corrections of its rule; where the axis starts again its step does
not reach over a period. -/
structure Shaped (a : SampleAxis) (r : AxisRule) (n : Int) : Prop where
  atRest_eq : a.atRest = corrections r.extend n r.mirrored
  step_nonneg : r.extend ≠ .pad → 0 ≤ a.step
  step_lt : r.extend ≠ .pad → a.step < span r.extend n * 2 ^ 32

variable {a : SampleAxis} {r : AxisRule} {n : Int}

theorem Shaped.period_eq (h : a.Shaped r n) :
    a.period = (corrections r.extend n r.mirrored).period :=
  show a.atRest.period = _ from congrArg period h.atRest_eq

theorem Shaped.last_eq (h : a.Shaped r n) : a.last = (corrections r.extend n r.mirrored).last :=
  show a.atRest.last = _ from congrArg last h.atRest_eq

theorem Shaped.modulus_eq (h : a.Shaped r n) :
    a.modulus = (corrections r.extend n r.mirrored).modulus :=
  show a.atRest.modulus = _ from congrArg modulus h.atRest_eq

theorem Shaped.cyclic (h : a.Shaped r n) (hr : r.extend ≠ .pad) (hn : 0 < n) (hn' : n < 2 ^ 29) :
    a.Cyclic := by
  have hspan : 0 < span r.extend n ∧ span r.extend n < 2 ^ 30 := by
    unfold span
    split <;> omega
  have hperiod : a.period = span r.extend n := h.period_eq.trans (period_corrections hr n r.mirrored)
  have hcorrections : (corrections r.extend n r.mirrored).modulus = span r.extend n ∧
      -1 ≤ (corrections r.extend n r.mirrored).last ∧
      (corrections r.extend n r.mirrored).last < span r.extend n := by
    unfold corrections span
    cases he : r.extend with
    | pad => exact absurd he hr
    | tile => cases r.mirrored <;> simp <;> omega
    | reflect => simp; omega
  obtain ⟨hmodulus, hlast, hlast'⟩ := hcorrections
  rw [← h.modulus_eq, ← hperiod] at hmodulus
  rw [← h.last_eq] at hlast
  rw [← h.last_eq, ← hperiod] at hlast'
  have hstep := h.step_lt hr
  rw [← hperiod] at hspan hstep
  exact ⟨hspan.1, hspan.2, hmodulus, hlast, hlast', h.step_nonneg hr, hstep.le⟩

theorem Shaped.straight (h : a.Shaped r n) (hr : r.extend = .pad) : a.Straight where
  period_eq := by rw [h.period_eq, hr]; rfl
  last_eq := by rw [h.last_eq, hr]; rfl
  modulus_eq := by rw [h.modulus_eq, hr]; rfl

theorem Shaped.sound (h : a.Shaped r n) (hn : 0 < n) (hn' : n < 2 ^ 29) : a.Sound := by
  by_cases hr : r.extend = .pad
  · exact .inr (h.straight hr)
  · exact .inl (h.cyclic hr hn hn')

end Shaped

theorem cells?_eq (e : Extend) {n : Nat} (hn : n < 2 ^ 29) : cells? e n = some (n : Int) := by
  have hword : wrap32 n = n :=
    wrap32_of_range (by unfold minInt32; omega) (by unfold maxInt32; omega)
  have hlast : word32? ((n : Int) - 1) = some ((n : Int) - 1) :=
    word32?_eq_some.mpr ⟨rfl, by unfold minInt32; omega, by unfold maxInt32; omega⟩
  have hspan : word32? (span e n) = some (span e n) := by
    refine word32?_eq_some.mpr ⟨rfl, ?_⟩
    unfold span minInt32 maxInt32
    split <;> omega
  unfold cells?
  rw [hword]
  dsimp only
  rw [hlast, hspan]
  rfl

theorem atRest_corrections (e : Extend) (n : Int) (mirrored : Bool) :
    (corrections e n mirrored).atRest = corrections e n mirrored := by
  cases e with
  | pad => rfl
  | tile => cases mirrored <;> rfl
  | reflect => rfl

/-- An axis as it is made from a map, rounded or left at the first pixel, is shaped by its rule. -/
theorem shaped_axis (e : Extend) {n : Nat} (hn : 0 < n) (hn' : n < 2 ^ 29) (b : Bool) (c : Course)
    (fit : Bool) (hfit : fit → (scaled (course e n b c).1).allFit) :
    (if fit then (corrections e n (course e n b c).2).withCourse (scaled (course e n b c).1)
      else corrections e n (course e n b c).2).Shaped ⟨e, (course e n b c).2⟩ n := by
  have hspan : 0 < span e n ∧ span e n < 2 ^ 30 := by
    unfold span
    split <;> omega
  have hrest := atRest_corrections e n (course e n b c).2
  cases fit with
  | false =>
    have hstep : (corrections e n (course e n b c).2).step = 0 := (congrArg step hrest).symm
    exact ⟨hrest, fun _ => hstep.ge, fun _ =>
      hstep.trans_lt (show 0 < span e n * 2 ^ 32 by omega)⟩
  | true =>
    have hmem (he : e ≠ .pad) := floor_step_mem hspan.2
      (course_step_below he b c hspan.1 (by omega)) (hfit rfl)
    exact ⟨hrest, fun he => (hmem he).1, fun he => (hmem he).2⟩

end SampleAxis

open SampleAxis in
/-- The axes of a mapped pattern are shaped by their rules. -/
theorem Sampling.shaped_of_ofInverse? {source : PatternSource} {extend : ExtendMode}
    {quality : PatternQuality} {inv : Affine} {s : Sampling}
    (h : ofInverse? source extend quality inv = some s) (hw : 0 < source.width)
    (hw' : source.width < 2 ^ 29) (hh : 0 < source.height) (hh' : source.height < 2 ^ 29) :
    ∃ mx my, s.x.Shaped ⟨extend.x, mx⟩ source.width ∧ s.y.Shaped ⟨extend.y, my⟩ source.height := by
  unfold ofInverse? at h
  simp only [cells?_eq _ hw', cells?_eq _ hh', Option.bind_eq_bind, Option.bind_some] at h
  obtain rfl := Option.some.inj h
  have hx := shaped_axis extend.x hw hw' (quality == .bilinear)
    ⟨inv.a, inv.c, inv.e + 0.5 * (inv.a + inv.c)⟩
  have hy := shaped_axis extend.y hh hh' (quality == .bilinear)
    ⟨inv.b, inv.d, inv.f + 0.5 * (inv.b + inv.d)⟩
  split
  · rename_i hfit
    obtain ⟨hfitX, hfitY⟩ := Bool.and_eq_true_iff.mp hfit
    exact ⟨_, _, hx true fun _ => hfitX, hy true fun _ => hfitY⟩
  · exact ⟨_, _, hx false nofun, hy false nofun⟩

/-- The axes of a mapped pattern are sound. -/
theorem Sampling.sound_of_ofInverse? {source : PatternSource} {extend : ExtendMode}
    {quality : PatternQuality} {inv : Affine} {s : Sampling}
    (h : ofInverse? source extend quality inv = some s) (hw : 0 < source.width)
    (hw' : source.width < 2 ^ 29) (hh : 0 < source.height) (hh' : source.height < 2 ^ 29) :
    s.x.Sound ∧ s.y.Sound := by
  obtain ⟨mx, my, hx, hy⟩ := shaped_of_ofInverse? h hw hw' hh hh'
  exact ⟨hx.sound (by omega) (by omega), hy.sound (by omega) (by omega)⟩

end Scanline
