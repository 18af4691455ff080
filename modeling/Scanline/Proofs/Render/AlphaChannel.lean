import Scanline.Proofs.Render.Frame
import Scanline.Proofs.Render.Layers
import Scanline.Proofs.Render.Lockstep
import Scanline.Proofs.Signature.Fields

/-
  Drawing to alpha alone. An operator has one arithmetic for pixels with color and one for alphas;
  the alpha of the first is the second (`Operator.drawn_a8`). Hence an `a8` surface that holds the
  alphas of a `prgb32` one still does so when the same layers are drawn over both
  (`Surface.AlphaChannel.layered`), and strokes over the two move in step
  (`Stroke.lockstep_alphaChannel`). `Dispatch.runReady_alphaChannel`: the two pipelines that a
  signature has for these formats end well together, and leave an `a8` surface that holds the alphas
  of the `prgb32` one, or both stop in the same way.
-/

namespace Scanline

/-! ## Pixels -/

theorem alphaOf_pack (c : Channels) : alphaOf c.pack = min c.a 255 := by
  simp only [alphaOf, Channels.pack, UInt32.toNat_ofNat']
  omega

/-- Coverage mixes alphas without a look at the colors. -/
theorem alphaOf_applyMask_congr {res res' dst dst' : UInt32} (hres : alphaOf res' = alphaOf res)
    (hdst : alphaOf dst' = alphaOf dst) (m : Nat) :
    alphaOf (applyMask res' dst' m) = alphaOf (applyMask res dst m) := by
  unfold applyMask
  split_ifs
  · exact hres
  · exact hdst
  · rw [alphaOf_pack, alphaOf_pack]
    simp only [Channels.zipWith, unpack_a, hres, hdst]

theorem PixelFormat.alphaOf_stored_a8 (p : UInt32) : alphaOf (a8.stored p) = alphaOf p :=
  alphaOf_ofAlpha (alphaOf_lt p)

/-- A byte that stands for a pixel of alpha alone. -/
theorem ofAlpha_toNat_iff (b : UInt8) (w : UInt32) :
    ofAlpha b.toNat = PixelFormat.a8.stored w ↔ b = byteOfWord w 0x1000000 := by
  have hbyte : (byteOfWord w 0x1000000).toNat = alphaOf w :=
    UInt8.toNat_ofNat_of_lt' (alphaOf_lt w)
  refine ⟨fun h => UInt8.toNat.inj ?_, fun h => ?_⟩
  · rw [hbyte, ← alphaOf_ofAlpha b.toNat_lt, h, PixelFormat.alphaOf_stored_a8]
  · rw [h, hbyte]
    rfl

namespace Operator

variable {op : Operator}

/-- The arithmetic on alphas gives the alpha of the arithmetic on whole pixels. -/
theorem alphaOf_combine_a8 (dst src : UInt32) :
    alphaOf (op.combine .a8 (PixelFormat.a8.stored dst) src) =
      alphaOf (op.combine .prgb32 dst src) := by
  have halpha : alphaOf (op.combine .prgb32 dst src) =
      op.formula.alpha (alphaOf src) (alphaOf dst) :=
    congrArg Channels.a (op.formula.unpack_onColor dst src)
  rw [halpha]
  change alphaOf (op.formula.onAlpha _ src) = _
  rw [Formula.onAlpha_eq, alphaOf_ofAlpha (Nat.lt_succ_of_le (op.formula.alpha_le _ _)),
    PixelFormat.alphaOf_stored_a8]

/-- Drawn over the alpha of a pixel, a source leaves the alpha of what it leaves over the pixel. -/
theorem drawn_a8 (dst src : UInt32) (m : Nat) :
    op.drawn .a8 (PixelFormat.a8.stored dst) src m =
      PixelFormat.a8.stored (op.drawn .prgb32 dst src m) :=
  congrArg ofAlpha
    (alphaOf_applyMask_congr (alphaOf_combine_a8 dst src) (PixelFormat.alphaOf_stored_a8 dst) m)

theorem foldl_drawn_a8 (dst src : UInt32) (ms : List Nat) :
    ms.foldl (op.drawn .a8 · src ·) (PixelFormat.a8.stored dst) =
      PixelFormat.a8.stored (ms.foldl (op.drawn .prgb32 · src ·) dst) :=
  List.foldl_hom _ fun d m => drawn_a8 d src m

end Operator

/-! ## Surfaces -/

namespace Surface

/-- Each byte of `a` is the alpha byte of the pixel of `s` in its place. -/
def AlphaBytes (s a : Surface) : Prop :=
  ∀ y x, s.Inside y x → a.bytes[a.rowStart y + x]? = s.bytes[s.rowStart y + 4 * x + 3]?

/-- Of the pixels of the `prgb32` surface `s` the `a8` surface `a` holds the alphas. -/
structure AlphaChannel (s a : Surface) : Prop where
  color : s.Valid
  alpha : a.Valid
  colorFormat : s.format = .prgb32
  alphaFormat : a.format = .a8
  width : a.width = s.width
  height : a.height = s.height
  top : a.top = s.top
  pixel : ∀ {y x}, s.Inside y x → a.pixel? x y = (s.pixel? x y).map PixelFormat.a8.stored

namespace AlphaChannel

variable {s a s' a' : Surface} {y : Int} {x : Nat}

theorem inside (h : s.AlphaChannel a) (hx : s.Inside y x) : a.Inside y x := by
  rwa [Inside, h.width, h.top, h.height]

theorem holds_iff (h : s.AlphaChannel a) (b : Box) : a.Holds b ↔ s.Holds b := by
  rw [Holds, Holds, bottom, bottom, h.width, h.top, h.height]

/-- The same layers over both surfaces leave the alphas of what they leave. -/
theorem layered (h : s.AlphaChannel a) {op : Operator} {image : Int → Int → UInt32}
    {layers : Int → Nat → List Nat} (hs : s.Layered op image layers s')
    (ha : a.Layered op image layers a') : s'.AlphaChannel a' where
  color := hs.shape.valid h.color
  alpha := ha.shape.valid h.alpha
  colorFormat := hs.shape.format.trans h.colorFormat
  alphaFormat := ha.shape.format.trans h.alphaFormat
  width := by rw [ha.shape.width, h.width, hs.shape.width]
  height := by rw [ha.shape.height, h.height, hs.shape.height]
  top := by rw [ha.shape.top, h.top, hs.shape.top]
  pixel := fun {y x} hx => by
    rw [hs.shape.inside_iff] at hx
    rw [ha.pixel?_eq (h.inside hx), hs.pixel?_eq hx, h.pixel hx, h.alphaFormat, h.colorFormat,
      Option.map_map, Option.map_map]
    exact congrArg (Option.map · _) (funext fun d => Operator.foldl_drawn_a8 d _ _)

/-- In a row of the surfaces a pixel is drawn to both or to neither of them. -/
theorem draw? (h : s.AlphaChannel a) (hy : s.top ≤ y ∧ y < s.top + s.height) (op : Operator)
    (x : Nat) (p : UInt32) (m : Nat) :
    Option.Rel (fun s' a' => s.SameShape s' ∧ a.SameShape a' ∧ s'.AlphaChannel a')
      (s.draw? op x y p m) (a.draw? op x y p m) := by
  by_cases hx : x < s.width
  · have hinside : s.Inside y x := ⟨hx, hy⟩
    obtain ⟨s', hs, hls⟩ := h.color.draw?_layered hinside op (fun _ _ => p) m
    obtain ⟨a', ha, hla⟩ := h.alpha.draw?_layered (h.inside hinside) op (fun _ _ => p) m
    rw [hs, ha]
    exact .some ⟨hls.shape, hla.shape, h.layered hls hla⟩
  · have hx' : ¬ x < a.width := h.width.symm ▸ hx
    rw [Surface.draw?_eq, Surface.draw?_eq, Surface.pixel?, Surface.pixel?, if_neg hx, if_neg hx']
    exact .none

end AlphaChannel

/-- In memory, the alphas of pixels are their last bytes. -/
theorem alphaBytes_iff {s a : Surface} (hs : s.Valid) (ha : a.Valid) (hsf : s.format = .prgb32)
    (haf : a.format = .a8) {y : Int} {x : Nat} (hx : s.Inside y x) (hx' : a.Inside y x) :
    a.pixel? x y = (s.pixel? x y).map PixelFormat.a8.stored ↔
      a.bytes[a.rowStart y + x]? = s.bytes[s.rowStart y + 4 * x + 3]? := by
  obtain ⟨w, hw⟩ := hs.isSome_pixel? hx
  obtain ⟨p, hp⟩ := ha.isSome_pixel? hx'
  rw [hw, hp, Option.map_some, Option.some_inj]
  rw [pixel?, if_pos hx.1, hsf] at hw
  rw [pixel?, if_pos hx'.1, haf] at hp
  obtain ⟨b, hb, rfl⟩ := Option.map_eq_some_iff.mp hp
  obtain ⟨-, -, -, hlast⟩ := getElem?_of_readWord? hw
  rw [hb, hlast, Option.some_inj]
  exact ofAlpha_toNat_iff b w

theorem AlphaChannel.alphaBytes {s a : Surface} (h : s.AlphaChannel a) : s.AlphaBytes a :=
  fun _ _ hx => (alphaBytes_iff h.color h.alpha h.colorFormat h.alphaFormat hx (h.inside hx)).mp
    (h.pixel hx)

end Surface

/-! ## Strokes -/

/-- Two strokes with one operator and one cursor, which draw to a surface of the shape of `color`
and to its alpha channel, of the shape of `alpha`. -/
structure Stroke.OverAlpha (color alpha : Surface) (s t : Stroke) : Prop where
  op : t.op = s.op
  cursor : t.cursor = s.cursor
  color : color.SameShape s.surface
  alpha : alpha.SameShape t.surface
  channel : s.surface.AlphaChannel t.surface

/-- In the rows of the surfaces the strokes move in step. -/
theorem Stroke.lockstep_alphaChannel (color alpha : Surface) :
    Lockstep (fun y => color.top ≤ y ∧ y < color.top + color.height) (OverAlpha color alpha) where
  width_eq h := h.channel.width
  startRow h y := ⟨h.op, congrArg (·.startRow y) h.cursor, h.color, h.alpha, h.channel⟩
  nextRow h := ⟨h.op, congrArg (·.nextRow) h.cursor, h.color, h.alpha, h.channel⟩
  start? {s t} h x := by
    unfold Stroke.start?
    rw [h.cursor]
    cases s.cursor.start? x with
    | none => exact .none
    | some c => exact .some ⟨h.op, rfl, h.color, h.alpha, h.channel⟩
  skip? {s t} h x n := by
    unfold Stroke.skip?
    rw [h.cursor]
    cases s.cursor.skip? x n with
    | none => exact .none
    | some c => exact .some ⟨h.op, rfl, h.color, h.alpha, h.channel⟩
  dab? {s t y} h hy x m := by
    unfold Stroke.dab?
    rw [h.cursor, h.op]
    cases s.cursor.next? with
    | none => exact .none
    | some next =>
      have hrow : s.surface.top ≤ y ∧ y < s.surface.top + s.surface.height := by
        rwa [h.color.top, h.color.height]
      change Option.Rel _ ((s.surface.draw? s.op x y next.1 m).bind _)
        ((t.surface.draw? s.op x y next.1 m).bind _)
      refine rel_bind (h.channel.draw? hrow s.op x next.1 m) fun s' t' hst => ?_
      exact .some ⟨rfl, rfl, h.color.trans hst.1, h.alpha.trans hst.2.1, hst.2.2⟩

/-! ## Outcomes -/

/-- Errors that differ at most in the signature or the format they name. -/
inductive RenderError.SameKind : RenderError → RenderError → Prop where
  | notImplemented (s t : Signature) : SameKind (.notImplemented s) (.notImplemented t)
  | pending (s t : Signature) : SameKind (.pending s) (.pending t)
  | invalidSignature (s t : Signature) : SameKind (.invalidSignature s) (.invalidSignature t)
  | generatorUnavailable : SameKind .generatorUnavailable .generatorUnavailable
  | unsupportedFormat (f g : PixelFormat) : SameKind (.unsupportedFormat f) (.unsupportedFormat g)
  | invalidBuffer : SameKind .invalidBuffer .invalidBuffer
  | analyticBuffers : SameKind .analyticBuffers .analyticBuffers

/-- Two operations end well with related results, or are refused with errors of the same kind, or
both leave their buffers. -/
inductive SameOutcome {α β : Type} (r : α → β → Prop) : Except Halt α → Except Halt β → Prop where
  | ok {a : α} {b : β} : r a b → SameOutcome r (.ok a) (.ok b)
  | refused {e e' : RenderError} :
    e.SameKind e' → SameOutcome r (.error (.refused e)) (.error (.refused e'))
  | outOfRange : SameOutcome r (.error .outOfRange) (.error .outOfRange)

/-! ## Pipelines -/

namespace Dispatch

/-- Runs the pipeline that stands ready for a signature. -/
def runReady (s : Signature) (frame : Frame) (fill : Fill) (fetch : Fetch) :
    Except Halt (Surface × Fill) := do
  let d ← orRefused (ofSignature s)
  d.run frame fill fetch

/-- The second of two runs leaves the alpha channel of what the first one leaves, and the same of
the fill. -/
def LeavesAlpha (color alpha : Surface) (a b : Surface × Fill) : Prop :=
  color.SameShape a.1 ∧ alpha.SameShape b.1 ∧ a.1.AlphaBytes b.1 ∧ b.2 = a.2

variable {color alpha : Surface}

/-- Pipelines that differ in signature and destination alone draw to a surface and to its alpha
channel, or go wrong in the same way. -/
theorem draw_alphaChannel (h : color.AlphaChannel alpha) (p : Pipeline) (s t : Signature)
    (origin : Int × Int) (fill : Fill) (fetch : Fetch) :
    SameOutcome (LeavesAlpha color alpha)
      (draw { p with signature := s, dst := .prgb32 } ⟨color, origin⟩ fill fetch)
      (draw { p with signature := t, dst := .a8 } ⟨alpha, origin⟩ fill fetch) := by
  have hcolor : Pipeline.accepts .prgb32 color.format = true := by rw [h.colorFormat]; rfl
  have halpha : Pipeline.accepts .a8 alpha.format = true := by rw [h.alphaFormat]; rfl
  rw [draw_eq, draw_eq]
  simp only [hcolor, halpha, h.holds_iff]
  split_ifs with hkind hholds
  · exact .refused (.invalidSignature s t)
  · have hrows (y : Int) (hy : fill.bounds.y0 ≤ y) (hy' : y < fill.bounds.y1) :
        color.top ≤ y ∧ y < color.top + color.height := by
      obtain ⟨-, htop, hbottom⟩ := hholds.rows (hy.trans hy'.le)
      exact ⟨htop.trans hy, lt_of_lt_of_le hy' hbottom⟩
    cases Cursor.ofFetch? p.fetch fetch origin with
    | none => exact .refused (.invalidSignature s t)
    | some cursor =>
      have hstart : Stroke.OverAlpha color alpha ⟨p.op, color, cursor⟩ ⟨p.op, alpha, cursor⟩ :=
        ⟨rfl, rfl, .refl color, .refl alpha, h⟩
      have hdraw := (Stroke.lockstep_alphaChannel color alpha).fillDraw? fill hstart hrows
      dsimp only
      generalize fill.draw? ⟨p.op, color, cursor⟩ = a at hdraw ⊢
      generalize fill.draw? ⟨p.op, alpha, cursor⟩ = b at hdraw ⊢
      cases hdraw with
      | none => exact .outOfRange
      | some hab =>
        obtain ⟨hleft, hab⟩ := hab
        exact .ok ⟨hab.color, hab.alpha, hab.channel.alphaBytes, hleft.symm⟩
  · exact .refused .invalidBuffer

/-- The ready-made pipelines of a signature for `prgb32` and for `a8`, run with one fill and one
fetch over two buffers of the same size, where every byte of the second is the alpha byte of the
pixel of the first in its place. Either both end well, and this is still so of what they leave,
or both are refused with errors of the same kind, or both leave their buffers. -/
theorem runReady_alphaChannel (s : Signature) {colorBytes alphaBytes : Array UInt8}
    {colorStride alphaStride width height : Nat}
    (hcolor : Surface.ofBytes colorBytes colorStride width height .prgb32 = .ok color)
    (halpha : Surface.ofBytes alphaBytes alphaStride width height .a8 = .ok alpha)
    (hbytes : color.AlphaBytes alpha) (origin : Int × Int) (fill : Fill) (fetch : Fetch) :
    SameOutcome (LeavesAlpha color alpha)
      (runReady (s.withDst .prgb32) ⟨color, origin⟩ fill fetch)
      (runReady (s.withDst .a8) ⟨alpha, origin⟩ fill fetch) := by
  have hchannel : color.AlphaChannel alpha := by
    have hcv := Surface.valid_ofBytes hcolor
    have hav := Surface.valid_ofBytes halpha
    obtain rfl := Surface.eq_of_ofBytes hcolor
    obtain rfl := Surface.eq_of_ofBytes halpha
    exact ⟨hcv, hav, rfl, rfl, rfl, rfl, rfl,
      fun {y x} hx => (Surface.alphaBytes_iff hcv hav rfl rfl hx hx).mpr (hbytes y x hx)⟩
  unfold runReady ofSignature
  obtain ⟨p, hp⟩ | hp | hp := Signature.ofSignature_withDst s
  · rw [hp, hp]
    exact draw_alphaChannel hchannel p _ _ origin fill fetch
  · rw [hp, hp]
    exact .refused (.pending _ _)
  · rw [hp, hp]
    exact .refused (.invalidSignature _ _)

/-- One pixel of two, drawn with half of its coverage. The second buffer has a byte more in its
row, which is kept. -/
theorem runReady_alphaChannel_half :
    ∃ color alpha out out',
      Surface.ofBytes #[1, 2, 3, 64, 5, 6, 7, 192] 8 2 1 .prgb32 = .ok color ∧
      Surface.ofBytes #[64, 192, 9] 3 2 1 .a8 = .ok alpha ∧
      runReady (.ofParts .prgb32 .prgb32 .difference .mask .solid) ⟨color, (0, 0)⟩
        (.mask ⟨⟨0, 0, 2, 1⟩, 255, [.constant 0 1 128]⟩) (.solid 0x80402010) = .ok out ∧
      runReady (.ofParts .a8 .prgb32 .difference .mask .solid) ⟨alpha, (0, 0)⟩
        (.mask ⟨⟨0, 0, 2, 1⟩, 255, [.constant 0 1 128]⟩) (.solid 0x80402010) = .ok out' ∧
      LeavesAlpha color alpha out out' ∧ out.1.bytes = #[8, 17, 33, 112, 5, 6, 7, 192] ∧
      out'.1.bytes = #[112, 192, 9] := by
  have hbytes : Surface.AlphaBytes ⟨#[1, 2, 3, 64, 5, 6, 7, 192], 8, 2, 1, .prgb32, 0⟩
      ⟨#[64, 192, 9], 3, 2, 1, .a8, 0⟩ := by
    rintro y x ⟨hx, hy, hy'⟩
    obtain rfl : y = 0 := by
      change (0 : Int) ≤ y at hy
      change y < 0 + 1 at hy'
      omega
    obtain rfl | rfl : x = 0 ∨ x = 1 := by
      change x < 2 at hx
      omega
    · rfl
    · rfl
  have h := @runReady_alphaChannel _ _ (.ofParts .prgb32 .prgb32 .difference .mask .solid)
    #[1, 2, 3, 64, 5, 6, 7, 192] #[64, 192, 9] 8 3 2 1 rfl rfl hbytes (0, 0)
    (.mask ⟨⟨0, 0, 2, 1⟩, 255, [.constant 0 1 128]⟩) (.solid 0x80402010)
  refine ⟨_, _, _, _, rfl, rfl, rfl, rfl, ?_, by decide, by decide⟩
  cases show SameOutcome _ (.ok _) (.ok _) from h with
  | ok h => exact h

end Dispatch

end Scanline
