import Mathlib.Data.List.Forall2
import Scanline.Proofs.Canvas.Drawing
import Scanline.Proofs.Mask.Execution
import Scanline.Proofs.Render.Padding

/-
  Spans with one coverage against spans with equal bytes. A span with one coverage passes over its
  pixels where that is zero, while one with bytes draws them, so that the layers of the two differ
  by zeros. Lists of commands that are the same but for such spans have the same groups and rows
  (`forall₂_groups`, `forall₂_plan`), and layers that are close (`close_planLayers`).

  `Dispatch.run_varying_of_constant`: with a span replaced, a run ends in the same way and with the
  same pixels, and with the same bytes unless undefined ones were passed over.
-/

namespace Scanline

namespace MaskCommand

/-- The second command is the first one, or the first one has the coverage `c` in columns `x0` to
`x1` and the second has it as bytes of `data`, the same ones in every row. -/
inductive Twin (x0 x1 c : Nat) (data : Array UInt8) : MaskCommand → MaskCommand → Prop
  | same (command : MaskCommand) : Twin x0 x1 c data command command
  | replaced : Twin x0 x1 c data (constant x0 x1 c) (varying x0 x1 data 0 true)

/-- Groups, or rows of a plan, that are twins span by span and have the same number. -/
def TwinRows (x0 x1 c : Nat) (data : Array UInt8) (row row' : List MaskCommand × Nat) : Prop :=
  List.Forall₂ (Twin x0 x1 c data) row.1 row'.1 ∧ row'.2 = row.2

variable {x0 x1 c : Nat} {data : Array UInt8} {width k x : Nat}

theorem forall₂_groups {commands commands' : List MaskCommand}
    (h : List.Forall₂ (Twin x0 x1 c data) commands commands') :
    List.Forall₂ (TwinRows x0 x1 c data) (groups commands) (groups commands') := by
  induction h with
  | nil => exact .nil
  | @cons a a' rest rest' ha hrest ih =>
    have hspan (hspan : a.IsSpan) (hspan' : a'.IsSpan) :
        List.Forall₂ (TwinRows x0 x1 c data) (groups (a :: rest)) (groups (a' :: rest')) := by
      rw [groups_cons_span hspan, groups_cons_span hspan']
      generalize groups rest = gs at ih ⊢
      generalize groups rest' = gs' at ih ⊢
      cases ih with
      | nil => exact .cons ⟨.cons ha .nil, rfl⟩ .nil
      | cons hfirst hlater => exact .cons ⟨.cons ha hfirst.1, hfirst.2⟩ hlater
    cases ha with
    | same =>
      cases a with
      | marker count => exact .cons ⟨.nil, rfl⟩ ih
      | constant a b mask => exact hspan trivial trivial
      | varying a b bytes advance scaled => exact hspan trivial trivial
    | replaced => exact hspan trivial trivial

section Rows

variable (hsize : x1 - x0 ≤ data.size)

include hsize in
/-- The bytes are there in every row. -/
theorem Twin.hasRow_eq {a a' : MaskCommand} (h : Twin x0 x1 c data a a') :
    hasRow width k a' = hasRow width k a := by
  cases h with
  | same => rfl
  | replaced =>
    refine hasRow_iff.mpr fun hx => ?_
    rw [Nat.mul_zero, Nat.zero_add]
    omega

include hsize in
theorem all_hasRow_eq {spans spans' : List MaskCommand}
    (h : List.Forall₂ (Twin x0 x1 c data) spans spans') :
    spans'.all (hasRow width k) = spans.all (hasRow width k) := by
  induction h with
  | nil => rfl
  | cons ha _ ih => rw [List.all_cons, List.all_cons, ha.hasRow_eq hsize, ih]

include hsize in
theorem forall₂_groupPlan {spans spans' : List MaskCommand}
    (h : List.Forall₂ (Twin x0 x1 c data) spans spans') (width : Nat) (limit : Option Nat)
    (k left : Nat) : List.Forall₂ (TwinRows x0 x1 c data) (groupPlan width spans limit k left)
      (groupPlan width spans' limit k left) := by
  induction left generalizing k with
  | zero => exact .nil
  | succ left ih =>
    rw [groupPlan, groupPlan, all_hasRow_eq hsize h]
    split
    · refine .cons ⟨h, rfl⟩ ?_
      split
      · exact .nil
      · exact ih (k + 1)
    · exact .nil

include hsize in
theorem forall₂_plan {gs gs' : List (List MaskCommand × Nat)}
    (h : List.Forall₂ (TwinRows x0 x1 c data) gs gs') (width left : Nat) :
    List.Forall₂ (TwinRows x0 x1 c data) (plan width left gs) (plan width left gs') := by
  induction h generalizing left with
  | nil => exact .nil
  | @cons g g' rest rest' hg _ ih =>
    obtain ⟨spans, count⟩ := g
    obtain ⟨spans', count'⟩ := g'
    obtain ⟨hspans, rfl⟩ := hg
    have hown := forall₂_groupPlan hsize hspans width (limit? count') 0 left
    rw [plan, plan, ← hown.length_eq]
    exact List.rel_append hown (ih _)

end Rows

variable {alpha : Nat}

/-- A replaced command has the layers of the one in its place, or a zero where that has none. -/
theorem Twin.close {a a' : MaskCommand} (h : Twin x0 x1 c data a a')
    (hsize : x1 - x0 ≤ data.size) (hdata : ∀ v ∈ data, v.toNat = c) :
    Close (c = 0 ∧ x0 ≤ x ∧ x < x1) (a.layers width alpha k x) (a'.layers width alpha k x) := by
  cases h with
  | same => exact .refl _
  | replaced =>
    have hcovers : (varying x0 x1 data 0 true).Covers width x ↔
        (constant x0 x1 c).Covers width x := Iff.rfl
    unfold layers
    simp only [hcovers]
    split
    · rename_i hx
      obtain ⟨_, _, heq, hlo, hhi⟩ := hx
      cases heq
      have hi : k * 0 + (x - x0) < data.size := by omega
      have hv := hdata _ (Array.getElem_mem hi)
      rw [coverage?, Array.getElem?_eq_getElem hi, Option.map_some, if_pos rfl, hv,
        Option.toList_some]
      split
      · rename_i hc
        subst hc
        exact ⟨.zero .nil, fun _ => ⟨rfl, hlo, by omega⟩⟩
      · exact .refl _
    · exact .refl _

theorem close_rowLayers {spans spans' : List MaskCommand}
    (h : List.Forall₂ (Twin x0 x1 c data) spans spans') (hsize : x1 - x0 ≤ data.size)
    (hdata : ∀ v ∈ data, v.toNat = c) :
    Close (c = 0 ∧ x0 ≤ x ∧ x < x1) (rowLayers width alpha k spans x)
      (rowLayers width alpha k spans' x) := by
  induction h with
  | nil => exact .refl _
  | cons ha _ ih => exact (ha.close hsize hdata).append ih

end MaskCommand

namespace MaskFill
open MaskCommand

theorem close_planLayers {x0 x1 c : Nat} {data : Array UInt8}
    {rows rows' : List (List MaskCommand × Nat)}
    (h : List.Forall₂ (TwinRows x0 x1 c data) rows rows') (hsize : x1 - x0 ≤ data.size)
    (hdata : ∀ v ∈ data, v.toNat = c) (width alpha : Nat) (y0 y : Int) (x : Nat) :
    Close (c = 0 ∧ x0 ≤ x ∧ x < x1) (planLayers width alpha y0 rows y x)
      (planLayers width alpha y0 rows' y x) := by
  induction h generalizing y0 with
  | nil => exact .refl _
  | @cons row row' _ _ hrow _ ih =>
    obtain ⟨spans, k⟩ := row
    obtain ⟨spans', k'⟩ := row'
    obtain ⟨hspans, rfl⟩ := hrow
    refine Close.append ?_ (ih (y0 + 1))
    unfold Surface.inRow
    split
    · exact close_rowLayers hspans hsize hdata
    · exact .refl _

theorem eq_of_ofCommands? {alpha : Nat} {bounds : Box} {commands : List MaskCommand} {m : MaskFill}
    (h : ofCommands? alpha bounds commands = some m) :
    m = ⟨bounds, min alpha 255, commands⟩ ∧ bounds.y0 < bounds.y1 := by
  unfold ofCommands? at h
  split at h
  · cases h
  · rename_i hcovers
    exact ⟨(Option.some.inj h).symm, by omega⟩

end MaskFill

namespace Dispatch
open MaskCommand MaskFill

/-- A run of a ready-made pipeline with a span of one coverage, and the one with bytes of the same
coverage in its place, end alike: both are refused by one error, or both end well with the same
pixels. The bytes are the same as well where the format has no undefined byte, or the coverage is
not zero; otherwise undefined bytes in the columns of the span may differ, which are kept by the
first run and set by the second. -/
theorem run_varying_of_constant {signature : Signature} {d : Dispatch}
    (hd : Dispatch.ofSignature signature = .ok d) {bytes : Array UInt8} {stride width height : Nat}
    {format : PixelFormat} {surface : Surface}
    (hs : Surface.ofBytes bytes stride width height format = .ok surface) {alpha : Nat}
    {bounds : Box} {pre post : List MaskCommand} {x0 x1 c : Nat} {data : Array UInt8}
    (hsize : x1 - x0 ≤ data.size) (hdata : ∀ v ∈ data, v.toNat = c) {m m' : MaskFill}
    (hm : MaskFill.ofCommands? alpha bounds (pre ++ constant x0 x1 c :: post) = some m)
    (hm' : MaskFill.ofCommands? alpha bounds (pre ++ varying x0 x1 data 0 true :: post) = some m')
    {fetch : Fetch} {origin : Int × Int}
    (hfetch : fetch.Exact d.pipeline.fetch origin bounds.y0 bounds.y1 0 width) :
    (¬ CanDraw d.pipeline ⟨surface, origin⟩ (.mask m) fetch ∧
      ∃ e, d.run ⟨surface, origin⟩ (.mask m) fetch = .error e ∧
        d.run ⟨surface, origin⟩ (.mask m') fetch = .error e) ∨
    ∃ out out', d.run ⟨surface, origin⟩ (.mask m) fetch = .ok (out, .mask m) ∧
      d.run ⟨surface, origin⟩ (.mask m') fetch = .ok (out', .mask m') ∧
      (∀ y x, surface.Inside y x → out'.pixel? x y = out.pixel? x y) ∧
      (format ≠ .xrgb32 ∨ c ≠ 0 → out' = out) ∧
      ∀ i, out'.bytes[i]? ≠ out.bytes[i]? →
        ∃ y x, surface.Inside y x ∧ (x0 ≤ x ∧ x < x1) ∧ i = surface.rowStart y + 4 * x + 3 ∧
          out.bytes[i]? = bytes[i]? ∧ out'.bytes[i]? = some 255 := by
  obtain ⟨rfl, hrows⟩ := eq_of_ofCommands? hm
  obtain ⟨rfl, -⟩ := eq_of_ofCommands? hm'
  have hv := Surface.valid_ofBytes hs
  obtain rfl := Surface.eq_of_ofBytes hs
  have hrun (fill : Fill) : d.run ⟨⟨bytes, stride, width, height, format, 0⟩, origin⟩ fill fetch =
      draw d.pipeline ⟨⟨bytes, stride, width, height, format, 0⟩, origin⟩ fill fetch := by
    rw [(ofSignature_eq_ok hd).1]
    rfl
  rw [hrun, hrun]
  by_cases hcan : CanDraw d.pipeline ⟨⟨bytes, stride, width, height, format, 0⟩, origin⟩
      (.mask ⟨bounds, min alpha 255, pre ++ constant x0 x1 c :: post⟩) fetch
  · right
    obtain ⟨c₀, image, hc₀, hY, -, hplace⟩ := hfetch.exists_cursor
    have hS := scene_of_holds hv hcan.holds hrows.le hY hplace
    have halpha : min alpha 255 ≤ 255 := Nat.min_le_right alpha 255
    have htwins : List.Forall₂ (Twin x0 x1 c data) (pre ++ constant x0 x1 c :: post)
        (pre ++ varying x0 x1 data 0 true :: post) :=
      List.rel_append (List.forall₂_same.mpr fun a _ => .same a)
        (.cons .replaced (List.forall₂_same.mpr fun a _ => .same a))
    have hplan := forall₂_plan hsize (forall₂_groups htwins) width (bounds.y1 - bounds.y0).toNat
    have hclose := close_planLayers hplan hsize hdata width (min alpha 255) bounds.y0
    obtain ⟨t, ht, hlayered⟩ := draw?_layered
      (m := ⟨bounds, min alpha 255, pre ++ constant x0 x1 c :: post⟩) d.pipeline.op halpha
      hrows.le hS
    obtain ⟨t', ht', hlayered'⟩ := draw?_layered
      (m := ⟨bounds, min alpha 255, pre ++ varying x0 x1 data 0 true :: post⟩) d.pipeline.op halpha
      hrows.le hS
    refine ⟨t.surface, t'.surface, draw_of_canDraw hcan hc₀ ?_, draw_of_canDraw ?_ hc₀ ?_,
      fun y x hx => hlayered.pixel?_eq_of_close hv hlayered' hclose hx, fun hsafe => ?_,
      fun i hne => ?_⟩
    · exact congrArg (Option.map _) ht
    · exact ⟨hcan.kind, hcan.accepts, hcan.holds, hcan.cursor⟩
    · exact congrArg (Option.map _) ht'
    · exact hlayered.eq_of_close hv hlayered' hclose (hsafe.imp_right fun hc _ _ h => hc h.1)
    · obtain ⟨y, x, hx, ⟨-, hspan⟩, hbyte⟩ := hlayered.byte_of_close hv hlayered' hclose hne
      exact ⟨y, x, hx, hspan, hbyte⟩
  · left
    obtain ⟨e, he⟩ := draw_refused hcan
    exact ⟨hcan, _, he _ rfl rfl, he _ rfl rfl⟩

/-- A span without coverage keeps the undefined byte of the pixel that it passes over. Bytes without
coverage set it, and the pixel is the same. -/
theorem run_varying_of_constant_undefined :
    ∃ d, Dispatch.ofSignature (.ofParts .xrgb32 .prgb32 .srcOver .mask .solid) = .ok d ∧
      ∃ out out', d.run ⟨⟨#[0x11, 0x22, 0x33, 0], 4, 1, 1, .xrgb32, 0⟩, (0, 0)⟩
          (.mask ⟨⟨0, 0, 1, 1⟩, 255, [.constant 0 1 0]⟩) (.solid 0xFF112233) =
            .ok (out, .mask ⟨⟨0, 0, 1, 1⟩, 255, [.constant 0 1 0]⟩) ∧
        d.run ⟨⟨#[0x11, 0x22, 0x33, 0], 4, 1, 1, .xrgb32, 0⟩, (0, 0)⟩
          (.mask ⟨⟨0, 0, 1, 1⟩, 255, [.varying 0 1 #[0] 0 true]⟩) (.solid 0xFF112233) =
            .ok (out', .mask ⟨⟨0, 0, 1, 1⟩, 255, [.varying 0 1 #[0] 0 true]⟩) ∧
        out'.pixel? 0 0 = out.pixel? 0 0 ∧ out.bytes[3]? = some 0 ∧ out'.bytes[3]? = some 255 := by
  refine ⟨_, rfl, ?_⟩
  obtain ⟨hcannot, -⟩ | ⟨out, out', hout, hout', hpixel, -, -⟩ :=
    @run_varying_of_constant (.ofParts .xrgb32 .prgb32 .srcOver .mask .solid) _ rfl
      #[0x11, 0x22, 0x33, 0] 4 1 1 .xrgb32 _ rfl 255 ⟨0, 0, 1, 1⟩ [] [] 0 1 0 #[0] (by decide)
      (by simp) _ _ rfl rfl (.solid 0xFF112233) (0, 0) (Fetch.exact_solid _ _ _ _ _ _)
  · exact absurd ⟨rfl, rfl, by decide, rfl⟩ hcannot
  · refine ⟨out, out', hout, hout', hpixel 0 0 ⟨by decide, by decide, by decide⟩, ?_, ?_⟩
    · cases hout
      rfl
    · cases hout'
      rfl

/-- Equal bytes are not drawn as one coverage is: without coverage the two runs end with different
buffers. -/
theorem run_varying_ne_constant :
    ∃ d out out', Dispatch.ofSignature (.ofParts .xrgb32 .prgb32 .srcOver .mask .solid) = .ok d ∧
      d.run ⟨⟨#[0x11, 0x22, 0x33, 0], 4, 1, 1, .xrgb32, 0⟩, (0, 0)⟩
          (.mask ⟨⟨0, 0, 1, 1⟩, 255, [.constant 0 1 0]⟩) (.solid 0xFF112233) =
        .ok (out, .mask ⟨⟨0, 0, 1, 1⟩, 255, [.constant 0 1 0]⟩) ∧
      d.run ⟨⟨#[0x11, 0x22, 0x33, 0], 4, 1, 1, .xrgb32, 0⟩, (0, 0)⟩
          (.mask ⟨⟨0, 0, 1, 1⟩, 255, [.varying 0 1 #[0] 0 true]⟩) (.solid 0xFF112233) =
        .ok (out', .mask ⟨⟨0, 0, 1, 1⟩, 255, [.varying 0 1 #[0] 0 true]⟩) ∧
      out.bytes = #[0x11, 0x22, 0x33, 0] ∧ out'.bytes = #[0x11, 0x22, 0x33, 255] :=
  ⟨_, _, _, rfl, rfl, rfl, by decide, by decide⟩

end Dispatch

end Scanline
