import Scanline.Pipeline.Basic
import Scanline.Proofs.Render.Fills

/-
  What a run leaves alone. Drawing a pixel changes the bytes of that pixel alone, so a run changes
  no bytes but those of pixels that its fill touches (`Fill.draw?_changesOnly`).
  `Dispatch.run_changesOnly` says so of a whole run, and that these pixels lie in the bounds of the
  fill: always for boxes, for mask fills whose spans do not leave the columns of the bounds, and for
  analytic fills that have no marked group left of them.
-/

namespace Scanline

namespace Surface

/-- From `s` to `t` no bytes change but those of the given pixels. -/
structure ChangesOnly (pixels : Int → Nat → Prop) (s t : Surface) : Prop where
  shape : s.SameShape t
  kept : ∀ i, (∀ y x, pixels y x → ¬ s.PixelByte y x i) → t.bytes[i]? = s.bytes[i]?

theorem ChangesOnly.refl (pixels : Int → Nat → Prop) (s : Surface) : s.ChangesOnly pixels s :=
  ⟨.refl s, fun _ _ => rfl⟩

theorem ChangesOnly.mono {pixels pixels' : Int → Nat → Prop} {s t : Surface}
    (h : s.ChangesOnly pixels t) (hp : ∀ y x, pixels y x → pixels' y x) :
    s.ChangesOnly pixels' t :=
  ⟨h.shape, fun i hi => h.kept i fun y x hx => hi y x (hp y x hx)⟩

/-- Setting a pixel changes its bytes alone. -/
theorem setPixel?_changesOnly {s t : Surface} (hf : s.format.isDrawable) {y : Int} {x : Nat}
    {p : UInt32} (h : s.setPixel? x y p = some t) :
    s.ChangesOnly (fun y' x' => y' = y ∧ x' = x) t := by
  unfold setPixel? at h
  split at h
  · obtain ⟨out, hout, rfl⟩ := Option.map_eq_some_iff.mp h
    refine ⟨⟨rfl, rfl, rfl, rfl, rfl, size_writeTarget? hout⟩, fun i hi => ?_⟩
    refine getElem?_writeTarget? hf hout ?_
    have hout := hi y x ⟨rfl, rfl⟩
    exact (not_and_or.mp hout).imp Nat.lt_of_not_le Nat.le_of_not_lt
  · cases h

theorem ChangesOnly.trans {pixels : Int → Nat → Prop} {s t u : Surface}
    (h : s.ChangesOnly pixels t) (h' : t.ChangesOnly pixels u) : s.ChangesOnly pixels u := by
  refine ⟨h.shape.trans h'.shape, fun i hi => (h'.kept i fun y x hx hb => ?_).trans (h.kept i hi)⟩
  exact hi y x hx ((h.shape.pixelByte_iff y x i).mp hb)

end Surface

/-- Drawing a pixel changes the bytes of that pixel alone. -/
theorem Surface.draw?_changesOnly {s t : Surface} (hf : s.format.isDrawable) {op : Operator}
    {y : Int} {x m : Nat} {p : UInt32} (h : s.draw? op x y p m = some t) :
    s.ChangesOnly (fun y' x' => y' = y ∧ x' = x) t := by
  rw [draw?_eq] at h
  obtain ⟨dst, -, hset⟩ := Option.bind_eq_some_iff.mp h
  exact setPixel?_changesOnly hf hset

/-- Strokes change no bytes but those of the pixels they touch. -/
theorem Stroke.kept_changesOnly {s₀ : Surface} (hf : s₀.format.isDrawable) (op : Operator)
    (touches : Int → Nat → Nat → Prop) :
    Kept True s₀.width touches fun s =>
      s.op = op ∧ s₀.ChangesOnly (fun y x => ∃ m, touches y x m) s.surface ∧ True := by
  refine kept_of_cursor Cursor.kept_true (fun s hs => hs.shape.width) fun s y x p m hs _ ht => ?_
  cases hdraw : s.draw? op x y p m with
  | none => trivial
  | some t =>
    have hchange := Surface.draw?_changesOnly (hs.shape.format ▸ hf) hdraw
    refine hs.trans (hchange.mono fun y' x' hx => ?_)
    obtain ⟨rfl, rfl⟩ := hx
    exact ⟨m, ht⟩

/-- Drawing a fill changes no bytes but those of the pixels it touches. -/
theorem Fill.draw?_changesOnly {f left : Fill} {s t : Stroke} (hf : f.Fit True)
    (hformat : s.surface.format.isDrawable) (h : f.draw? s = some (left, t)) :
    s.surface.ChangesOnly (fun y x => ∃ m, f.Touches s.surface.width y x m) t.surface := by
  have hkept := Stroke.kept_changesOnly hformat s.op (f.Touches s.surface.width)
  exact ((Fill.draw?_kept hf hkept ⟨rfl, .refl _ _, trivial⟩).of_eq_some h).2.1

/-! ## Runs -/

/-- The columns that the fill touches are columns of its bounds: this has to be asked of the spans
of mask fills and of the marked groups of analytic ones. -/
def Fill.KeepsColumns (f : Fill) (width : Nat) : Prop :=
  match f with
  | alignedBox _ | fractionalBox _ => True
  | mask f => ∀ c ∈ f.commands, ∀ x0 x1, c.clippedSpan? width = some (x0, x1) →
      f.bounds.x0 ≤ x0 ∧ x1 ≤ f.bounds.x1
  | analytic f => ∀ r g, r < f.bounds.height → f.Marked r g → f.bounds.x0 ≤ (g * cellsPerBit : Nat)

theorem Fill.Touches.contains {f : Fill} {width : Nat} {y : Int} {x m : Nat}
    (h : f.Touches width y x m) (hf : f.Fit True) (hc : f.KeepsColumns width) :
    f.bounds.Contains x y := by
  have hrow := h.row
  suffices hcolumn : f.bounds.x0 ≤ x ∧ x < f.bounds.x1 from ⟨hcolumn.1, hcolumn.2, hrow⟩
  cases f with
  | alignedBox b => exact ⟨h.1.1, h.1.2.1⟩
  | fractionalBox b => exact ⟨h.1.1, h.1.2.1⟩
  | mask f =>
    obtain ⟨-, c, hmem, ⟨x0, x1, hspan, hx0, hx1⟩, -⟩ := h
    obtain ⟨hlo, hhi⟩ := hc c hmem x0 x1 hspan
    exact ⟨hlo.trans (by exact_mod_cast hx0), lt_of_lt_of_le (by exact_mod_cast hx1) hhi⟩
  | analytic f =>
    obtain ⟨⟨hy, hy'⟩, hx, ⟨g, hmarked, hg⟩, -⟩ := h
    have hheight := hf.1
    have hlo := hc _ g (by omega) hmarked
    refine ⟨hlo.trans (by exact_mod_cast hg), ?_⟩
    unfold AnalyticFill.rightEnd at hx
    show (x : Int) < f.bounds.x1
    omega

/-- A run of a ready-made pipeline changes no bytes but those of the pixels that its fill touches.
These lie in the rows of its bounds, and in the columns as well where the spans or the marked
groups of the fill do. -/
theorem Dispatch.run_changesOnly {signature : Signature} {d : Dispatch}
    (hd : Dispatch.ofSignature signature = .ok d) {bytes : Array UInt8} {stride width height : Nat}
    {format : PixelFormat} {surface surface' : Surface}
    (hs : Surface.ofBytes bytes stride width height format = .ok surface) {fill left : Fill}
    (hf : fill.Made) {fetch : Fetch} {origin : Int × Int}
    (hrun : d.run ⟨surface, origin⟩ fill fetch = .ok (surface', left)) :
    (∀ i, (∀ y x m, fill.Touches width y x m → ¬ surface.PixelByte y x i) →
        surface'.bytes[i]? = bytes[i]?) ∧
      (fill.KeepsColumns width →
        ∀ i, (∀ (y : Int) (x : Nat), fill.bounds.Contains x y → ¬ surface.PixelByte y x i) →
          surface'.bytes[i]? = bytes[i]?) := by
  have hv := Surface.valid_ofBytes hs
  obtain ⟨rfl, rfl⟩ : bytes = surface.bytes ∧ width = surface.width := by
    rw [Surface.eq_of_ofBytes hs]
    exact ⟨rfl, rfl⟩
  rw [(Dispatch.ofSignature_eq_ok hd).1, Dispatch.run_static] at hrun
  obtain ⟨hholds, -, cursor, t, -, hdraw, rfl⟩ := Dispatch.draw_eq_ok hrun
  have hfit : fill.Fit True := hf.fit hholds
  have hchange := Fill.draw?_changesOnly hfit hv.drawable hdraw
  refine ⟨fun i hi => hchange.kept i ?_, fun hc i hi => hchange.kept i ?_⟩
  · rintro y x ⟨m, ht⟩
    exact hi y x m ht
  · rintro y x ⟨m, ht⟩
    exact hi y x (ht.contains hfit hc)

/-- A span inside of the bounds leaves the column left of them alone. A longer one with the same
bounds draws over that column. -/
theorem Dispatch.run_changesOnly_span :
    ∃ d, Dispatch.ofSignature (.ofParts .prgb32 .prgb32 .srcCopy .mask .solid) = .ok d ∧
      (∃ surface left, d.run ⟨⟨Array.replicate 8 0, 8, 2, 1, .prgb32, 0⟩, (0, 0)⟩
          (.mask ⟨⟨1, 0, 2, 1⟩, 255, [.constant 1 2 255]⟩) (.solid 0xFF112233) =
            .ok (surface, left) ∧ surface.bytes[0]? = some 0) ∧
      ∃ surface left, d.run ⟨⟨Array.replicate 8 0, 8, 2, 1, .prgb32, 0⟩, (0, 0)⟩
          (.mask ⟨⟨1, 0, 2, 1⟩, 255, [.constant 0 2 255]⟩) (.solid 0xFF112233) =
            .ok (surface, left) ∧ surface.bytes[0]? = some 0x33 := by
  refine ⟨_, rfl, ⟨_, _, rfl, ?_⟩, ⟨_, _, rfl, by decide⟩⟩
  have hf : Fill.Made (.mask ⟨⟨1, 0, 2, 1⟩, 255, [.constant 1 2 255]⟩) :=
    ⟨255, ⟨1, 0, 2, 1⟩, [.constant 1 2 255], rfl⟩
  have hkept := (@Dispatch.run_changesOnly (.ofParts .prgb32 .prgb32 .srcCopy .mask .solid) _ rfl
    (Array.replicate 8 0) 8 2 1 .prgb32 _ _ rfl _ _ hf (.solid 0xFF112233) (0, 0) rfl).2
  refine (hkept ?_ 0 ?_).trans rfl
  · intro c hc x0 x1 hspan
    obtain rfl := List.mem_singleton.mp hc
    obtain ⟨rfl, rfl⟩ : 1 = x0 ∧ 2 = x1 := by
      simpa [MaskCommand.clippedSpan?, MaskCommand.span?] using hspan
    decide
  · rintro y x ⟨hx, -⟩ ⟨hlo, -⟩
    change _ + 4 * x ≤ 0 at hlo
    change (1 : Int) ≤ x at hx
    omega

end Scanline
