import Scanline.Pixel.Premultiply
import Scanline.Operator.BlendMode
import Scanline.Proofs.Canvas.Arguments
import Scanline.Proofs.Canvas.Lookup

/-
  Sequences of calls on a canvas. `Canvas.Terms` says what is asked of the settings of a canvas and
  what its pixels are like in turn. A canvas that meets the terms still meets them after a fill
  (`Meets.render`), after any call that the terms allow (`Meets.perform`), and so after a sequence
  of such calls (`Meets.run`); where drawing must not end early, every one of them ends well.
-/

namespace Scanline

namespace Canvas

/-- A call on a canvas. Setting a solid color, a pattern or a gradient is setting a style. -/
inductive Call where
  | setOperator (op : Operator)
  | setCompose (mode : Compose)
  | setAlpha (alpha : UInt8)
  | setOrigin (origin : Int × Int)
  | setStyle (style : Style)
  | setColor (color : Color)
  /-- Another image, or other pixels in it. -/
  | setImage (image : Image)
  | fillBox (bounds : Box)
  | fillRect (r : Rect)
  | fillMask (bounds : Box) (commands : List MaskCommand)
  | fillAnalytic (f : AnalyticFill)
  | clear

/-- The canvas after a call, and how the call ended. -/
def perform (c : Canvas) : Call → Canvas × Result
  | .setOperator op => ({ c with op }, .ok ())
  | .setCompose mode => ({ c with op := .ofCompose mode }, .ok ())
  | .setAlpha alpha => ({ c with alpha := alpha.toNat }, .ok ())
  | .setOrigin origin => ({ c with origin }, .ok ())
  | .setStyle style => ({ c with style }, .ok ())
  | .setColor color => ({ c with style := .solid color.premultiplied }, .ok ())
  | .setImage image => ({ c with image }, .ok ())
  | .fillBox bounds => c.fillBox bounds
  | .fillRect r => c.fillRect r
  | .fillMask bounds commands => c.fillMask bounds commands
  | .fillAnalytic f => ((c.fillAnalytic f).1, (c.fillAnalytic f).2.2)
  | .clear => c.clear

/-- The canvas after some calls. -/
def run (c : Canvas) (calls : List Call) : Canvas :=
  calls.foldl (fun c call => (c.perform call).1) c

/-- What is asked of the settings of a canvas, and what drawing keeps in turn. -/
structure Terms where
  /-- Whether drawing may end early. -/
  halts : Prop
  /-- What the pixels of the image are like. -/
  pixel : UInt32 → Prop
  /-- What a cursor over a source is like. -/
  cursor : Cursor → Prop
  /-- What the format and the numbers of columns and rows of the image are like. -/
  shape : PixelFormat → Nat → Nat → Prop
  op : Operator → Prop
  sides_le : ¬ halts → ∀ {f : PixelFormat} {w h : Nat}, shape f w h →
    (w : Int) ≤ maxInt32 ∧ (h : Int) ≤ maxInt32
  kept : Cursor.Kept halts pixel cursor
  drawn : ∀ {o f w h s dst src m}, op o → shape f w h → m ≤ 255 → pixel dst → pixel src →
    pixel ((o.simplify f s).op.drawn f dst src m)
  clear : op .clear
  substitute : ∀ {x : Substitute} {p}, x.color? = some p → cursor (.solid p)

namespace Terms

variable (T : Terms)

/-- Whatever is drawn with the source is drawn with a cursor as the terms ask for. -/
def Admits (source : Prepared Fetch) : Prop :=
  ∀ kind origin, source.kind = some kind →
    Lands T.halts T.cursor (Cursor.ofFetch? kind source.fetch origin)

/-- The style is made into a source that the terms admit. -/
def Accepts (style : Style) : Prop := Lands T.halts T.Admits style.prepare?

/-- The image can be drawn to under the terms. -/
structure Holds (image : Image) : Prop where
  whole : image.Whole
  shape : T.shape image.format image.width image.height
  pixels : image.surface.All T.pixel

/-- The arguments of the call are as the terms ask. -/
def Allows : Call → Prop
  | .setOperator op => T.op op
  | .setCompose mode => T.op (.ofCompose mode)
  | .setStyle style => T.Accepts style
  | .setColor color => T.Accepts (.solid color.premultiplied)
  | .setImage image => T.Holds image
  | .fillMask _ commands => ∀ c ∈ commands, c.Capped
  | .fillAnalytic f => f.alpha ≤ 255 ∧
      (¬ T.halts → f.Complete ∧ (f.bounds.height : Int) = f.bounds.y1 - f.bounds.y0)
  | .setAlpha _ | .setOrigin _ | .fillBox _ | .fillRect _ | .clear => True

/-- The canvas draws with ready-made pipelines and its settings are as the terms ask. -/
structure Meets (c : Canvas) : Prop where
  own : c.provider.primary = none
  faithful : c.cache.Faithful
  image : T.Holds c.image
  op : T.op c.op
  alpha : c.alpha ≤ 255
  style : T.Accepts c.style

/-- The canvas after a fill or a call meets the terms, and drawing ended as they allow. -/
structure Leads (c : Canvas) (result : Result) : Prop where
  meets : T.Meets c
  ends : Ends T.halts (fun _ => True) result

variable {T} {c : Canvas}

theorem Holds.hasWordSides {image : Image} (h : T.Holds image) (hhalts : ¬ T.halts) :
    image.HasWordSides :=
  T.sides_le hhalts h.shape

/-- A transparent solid is a source under all terms. -/
theorem admits_transparent : T.Admits ⟨.solid 0, some .solid⟩ := by
  intro kind origin hkind
  obtain rfl := Option.some.inj hkind
  exact T.substitute (x := .transparent) rfl

/-! ## Fills -/

/-- A canvas with another image and another cache. -/
theorem Meets.withImage (h : T.Meets c) {image : Image} {cache : PipelineCache 16} {asked : Nat}
    (hi : T.Holds image) (hc : cache.Faithful) : T.Meets { c with image, cache, asked } :=
  ⟨h.own, hc, hi, h.op, h.alpha, h.style⟩

/-- The step: drawing a sound fill inside of the image. -/
theorem Meets.render (h : T.Meets c) {op : Operator} (hop : T.op op) {source : Prepared Fetch}
    (hsource : T.Admits source) {fill : Fill} (hf : fill.Sound T.halts)
    (hin : ¬ T.halts → c.image.surface.Holds fill.bounds) :
    T.Leads (c.render op source fill).1 (c.render op source fill).2.2 := by
  by_cases hidle : c.IdleOn op source
  · rw [hidle.render fill]
    exact ⟨h, trivial⟩
  · obtain ⟨p, fetch, cache, asked, hfaithful, hfill, haccepts, hsimplified, hread, hrender⟩ :=
      render_eq_paint h.own h.faithful h.image.whole.drawable hidle fill
    have hcursor : ∀ origin, Lands T.halts T.cursor (Cursor.ofFetch? p.fetch fetch origin) := by
      intro origin
      split at hread
      · rename_i pixel hcolor
        obtain ⟨rfl, hsolid⟩ := hread
        rw [hsolid]
        exact T.substitute hcolor
      · obtain ⟨rfl, hkind⟩ := hread
        exact hsource p.fetch origin hkind
    have hkeeps : Keeps T.halts T.pixel T.cursor p.op c.image.format :=
      ⟨T.kept, hsimplified ▸ T.drawn hop h.image.shape⟩
    obtain ⟨hends, bytes, himage, hwhole, hall⟩ := paint_all hkeeps hf h.image.whole
      h.image.pixels (fun c' hc => (hcursor c.origin).of_eq_some hc)
      (fun hhalts => ⟨hfill.symm, haccepts, hin hhalts, (hcursor c.origin).isSome hhalts⟩)
      h.image.hasWordSides c.bandHeight
    rw [hrender]
    refine ⟨?_, hends⟩
    dsimp only
    rw [himage] at hwhole hall ⊢
    exact h.withImage ⟨hwhole, h.image.shape, hall⟩ hfaithful

theorem Meets.renderStyle (h : T.Meets c) {fill : Fill} (hf : fill.Sound T.halts)
    (hin : ¬ T.halts → c.image.surface.Holds fill.bounds) :
    T.Leads (c.renderStyle fill).1 (c.renderStyle fill).2.2 := by
  have hstyle : Lands T.halts T.Admits c.style.prepare? := h.style
  unfold Canvas.renderStyle
  cases hprepared : c.style.prepare? with
  | none =>
    rw [hprepared] at hstyle
    exact ⟨h, hstyle⟩
  | some source => exact h.render h.op (hstyle.of_eq_some hprepared) hf hin

/-- Drawing a fill if there is one. -/
theorem Meets.renderSome (h : T.Meets c) {fill : Option Fill}
    (hf : ∀ f, fill = some f → f.Sound T.halts ∧ (¬ T.halts → c.image.surface.Holds f.bounds)) :
    T.Leads (c.renderSome fill).1 (c.renderSome fill).2 := by
  cases fill with
  | none => exact ⟨h, trivial⟩
  | some f => exact h.renderStyle (hf f rfl).1 (hf f rfl).2

theorem Meets.fillBox (h : T.Meets c) (bounds : Box) :
    T.Leads (c.fillBox bounds).1 (c.fillBox bounds).2 := by
  refine h.renderSome fun f hf => ?_
  obtain ⟨b, hb, rfl⟩ := Option.map_eq_some_iff.mp hf
  refine ⟨Fill.sound_alignedBox hb, fun hhalts => ?_⟩
  change c.image.surface.Holds b.bounds
  rw [AlignedBox.bounds_of_ofBounds? hb]
  exact (h.image.hasWordSides hhalts).holds_clampTo bounds

theorem Meets.fillRect (h : T.Meets c) (r : Rect) :
    T.Leads (c.fillRect r).1 (c.fillRect r).2 := by
  refine h.renderSome fun f hf => ?_
  obtain ⟨b, hb, rfl⟩ := Option.map_eq_some_iff.mp hf
  exact ⟨Fill.sound_fractionalBox hb, fun hhalts => (h.image.hasWordSides hhalts).holds_ofRect? hb⟩

theorem Meets.fillMask (h : T.Meets c) (bounds : Box) {commands : List MaskCommand}
    (hc : ∀ command ∈ commands, command.Capped) :
    T.Leads (c.fillMask bounds commands).1 (c.fillMask bounds commands).2 := by
  refine h.renderSome fun f hf => ?_
  obtain ⟨m, hm, rfl⟩ := Option.map_eq_some_iff.mp hf
  refine ⟨Fill.sound_mask hm hc, fun hhalts => ?_⟩
  change c.image.surface.Holds m.bounds
  rw [MaskFill.bounds_of_ofCommands? hm]
  exact (h.image.hasWordSides hhalts).holds_clampTo bounds

theorem Meets.clear (h : T.Meets c) : T.Leads c.clear.1 c.clear.2 := by
  refine clear_cases (P := fun out => T.Leads out.1 out.2) (fun _ => ⟨h, trivial⟩) fun fill hf => ?_
  obtain ⟨b, hb, rfl⟩ := clearFill?_eq_some hf
  refine h.render T.clear admits_transparent (Fill.sound_alignedBox hb) fun _ => ?_
  change c.image.surface.Holds b.bounds
  rw [AlignedBox.bounds_of_ofBounds? hb]
  exact c.image.holds_self

theorem Meets.fillAnalytic (h : T.Meets c) {f : AnalyticFill} (halpha : f.alpha ≤ 255)
    (hf : ¬ T.halts → f.Complete ∧ (f.bounds.height : Int) = f.bounds.y1 - f.bounds.y0) :
    T.Leads (c.fillAnalytic f).1 (c.fillAnalytic f).2.2 := by
  refine fillAnalytic_cases (P := T.Leads) (fun _ => ⟨h, trivial⟩) (fun hbounds hreaches => ?_)
    fun _ hbounds => ?_
  · refine ⟨h, by_contra fun hhalts => ?_⟩
    obtain ⟨hcomplete, hrows⟩ := hf hhalts
    rw [reaches_clampTo hcomplete hrows hbounds] at hreaches
    cases hreaches
  · refine h.renderStyle ⟨(Box.clampTo_within hbounds).1.le,
      div255_le (Nat.mul_le_mul halpha h.alpha), fun hhalts => ?_⟩ fun hhalts =>
        (h.image.hasWordSides hhalts).holds_clampTo f.bounds
    obtain ⟨hcomplete, hrows⟩ := hf hhalts
    exact complete_dropRows hcomplete hrows hbounds _

/-- The step: a call that the terms allow. -/
theorem Meets.perform (h : T.Meets c) {call : Call} (hcall : T.Allows call) :
    T.Leads (c.perform call).1 (c.perform call).2 := by
  cases call with
  | setOperator op => exact ⟨⟨h.own, h.faithful, h.image, hcall, h.alpha, h.style⟩, trivial⟩
  | setCompose mode => exact ⟨⟨h.own, h.faithful, h.image, hcall, h.alpha, h.style⟩, trivial⟩
  | setAlpha alpha =>
    have halpha : alpha.toNat ≤ 255 := Nat.le_of_lt_succ alpha.toNat_lt
    exact ⟨⟨h.own, h.faithful, h.image, h.op, halpha, h.style⟩, trivial⟩
  | setOrigin origin => exact ⟨⟨h.own, h.faithful, h.image, h.op, h.alpha, h.style⟩, trivial⟩
  | setStyle style => exact ⟨⟨h.own, h.faithful, h.image, h.op, h.alpha, hcall⟩, trivial⟩
  | setColor color => exact ⟨⟨h.own, h.faithful, h.image, h.op, h.alpha, hcall⟩, trivial⟩
  | setImage image => exact ⟨h.withImage hcall h.faithful, trivial⟩
  | fillBox bounds => exact h.fillBox bounds
  | fillRect r => exact h.fillRect r
  | fillMask bounds commands => exact h.fillMask bounds hcall
  | fillAnalytic f => exact h.fillAnalytic hcall.1 hcall.2
  | clear => exact h.clear

/-- The run: calls that the terms allow. -/
theorem Meets.run (h : T.Meets c) {calls : List Call} (hcalls : ∀ call ∈ calls, T.Allows call) :
    T.Meets (c.run calls) := by
  induction calls generalizing c with
  | nil => exact h
  | cons call rest ih =>
    have hstep := (h.perform (hcalls call List.mem_cons_self)).meets
    exact ih hstep fun call' hcall' => hcalls call' (List.mem_cons_of_mem _ hcall')

end Terms

end Canvas

end Scanline
