import Scanline.Canvas.Basic
import Scanline.Proofs.Render.Bands
import Scanline.Proofs.Render.Frame

/-
  What drawing keeps of all pixels. A property of pixels that an operator keeps, and that the
  pixels of a cursor have, is kept by strokes (`Stroke.kept_all`), by runs of pipelines
  (`Dispatch.drawJob_all`), and by fills that are drawn band by band (`Canvas.performBands_all`).
  `Canvas.paint_all`: it is kept by painting a fill on an image, also where a run is refused and
  only some of the bands have been drawn. Where drawing must not end early, the same lemmas say
  that it ends well.
-/

namespace Scanline

/-- An outcome has a property; an error is as `halts` says. -/
def Ends {ε α : Type} (halts : Prop) (P : α → Prop) : Except ε α → Prop
  | .error _ => halts
  | .ok a => P a

namespace Ends

variable {ε α β : Type} {halts : Prop} {P : α → Prop} {Q : β → Prop} {r : Except ε α}

/-- What must not end early ends well. -/
theorem eq_ok {P : Unit → Prop} {r : Except ε Unit} (h : Ends False P r) : r = .ok () := by
  cases r with
  | error e => exact h.elim
  | ok u => rfl

theorem exists_eq_ok (h : Ends False P r) : ∃ a, r = .ok a ∧ P a := by
  cases r with
  | error e => exact h.elim
  | ok a => exact ⟨a, rfl, h⟩

theorem bind {f : α → Except ε β} (h : Ends halts P r) (hf : ∀ a, P a → Ends halts Q (f a)) :
    Ends halts Q (r >>= f) := by
  cases r with
  | error e => exact h
  | ok a => exact hf a h

theorem map {f : α → β} (h : Ends halts P r) (hf : ∀ a, P a → Q (f a)) :
    Ends halts Q (r.map f) := by
  cases r with
  | error e => exact h
  | ok a => exact hf a h

/-- A list of outcomes that all have to end well. -/
theorem mapM {f : α → Except ε β} {Q : α → β → Prop} {l : List α}
    (h : ∀ a ∈ l, Ends halts (Q a) (f a)) :
    Ends halts (fun bs => List.Forall₂ Q l bs) (l.mapM f) := by
  induction l with
  | nil => exact .nil
  | cons a rest ih =>
    rw [List.mapM_cons]
    refine (h a List.mem_cons_self).bind fun b hb => ?_
    exact (ih fun a' ha' => h a' (List.mem_cons_of_mem _ ha')).bind fun bs hbs => .cons hb hbs

end Ends

/-- A property of pixels `R` that cursors with the property `C` and the operator keep. -/
structure Keeps (halts : Prop) (R : UInt32 → Prop) (C : Cursor → Prop) (op : Operator)
    (f : PixelFormat) : Prop where
  cursor : Cursor.Kept halts R C
  drawn : ∀ {dst src m}, m ≤ 255 → R dst → R src → R (op.drawn f dst src m)

variable {halts : Prop} {R : UInt32 → Prop} {C : Cursor → Prop}

/-- A pixel that is drawn has the property again, and the other pixels keep it. -/
theorem Surface.draw?_all {s : Surface} {op : Operator} (hk : Keeps halts R C op s.format)
    (hv : s.Valid) (hs : s.All R) {y : Int} {x m : Nat} {p : UInt32} (hin : s.Inside y x)
    (hm : m ≤ 255) (hp : R p) :
    ∃ t, s.draw? op x y p m = some t ∧ s.SameShape t ∧ t.All R := by
  obtain ⟨t, ht, hpainted⟩ :=
    @Valid.draw?_painted s hv y x hin op (fun _ _ => p) (fun _ _ => m) p m rfl rfl
  refine ⟨t, ht, hpainted.shape, fun y' x' q hin' hq => ?_⟩
  have hin' := (hpainted.shape.inside_iff y' x').mp hin'
  by_cases hstrip : strip y x (x + 1) y' x'
  · obtain ⟨d, hd⟩ := hv.isSome_pixel? hin'
    rw [hpainted.drawn hstrip d hd] at hq
    exact Option.some.inj hq ▸ hk.drawn hm (hs y' x' d hin' hd) hp
  · rw [hpainted.pixel?_of_not_mem hv hin'.2.1 hstrip] at hq
    exact hs y' x' q hin' hq

/-- Strokes keep the property of all pixels. -/
theorem Stroke.kept_all {s₀ : Surface} {op : Operator} (hk : Keeps halts R C op s₀.format)
    (hv : s₀.Valid) :
    Kept halts s₀.width (fun y x m => s₀.Inside y x ∧ m ≤ 255)
      fun s => s.op = op ∧ (s₀.SameShape s.surface ∧ s.surface.All R) ∧ C s.cursor := by
  have hdraw : ∀ s y x p m, s₀.SameShape s ∧ s.All R → R p → s₀.Inside y x ∧ m ≤ 255 →
      Lands halts (fun t => s₀.SameShape t ∧ t.All R) (s.draw? op x y p m) := by
    rintro s y x p m ⟨hshape, hall⟩ hp ⟨hin, hm⟩
    obtain ⟨t, hdraw, hshape', hall'⟩ := Surface.draw?_all (hshape.format ▸ hk)
      (hshape.valid hv) hall ((hshape.inside_iff y x).mpr hin) hm hp
    rw [hdraw]
    exact ⟨hshape.trans hshape', hall'⟩
  exact kept_of_cursor hk.cursor (fun s hs => hs.1.width) hdraw

/-- Drawing a sound fill inside of the surface keeps the property of all pixels. -/
theorem Fill.draw?_all {f : Fill} {s : Stroke} (hk : Keeps halts R C s.op s.surface.format)
    (hf : f.Sound halts) (hv : s.surface.Valid) (hin : s.surface.Holds f.bounds)
    (hs : s.surface.All R) (hc : C s.cursor) :
    Lands halts (fun out => s.surface.SameShape out.2.surface ∧ out.2.surface.All R)
      (f.draw? s) := by
  have hkept := (Stroke.kept_all hk hv).mono
    fun y x m (ht : f.Touches s.surface.width y x m) => ⟨ht.inside hin, hf.coverage_le ht⟩
  exact (draw?_kept (hf.fit hin) hkept ⟨rfl, ⟨.refl _, hs⟩, hc⟩).mono fun out hout => hout.2.1

/-! ## Runs -/

namespace Dispatch

/-- The pipeline can draw the fill on the surface, and has a cursor for the fetch. -/
structure CanDraw (p : Pipeline) (frame : Frame) (fill : Fill) (fetch : Fetch) : Prop where
  kind : fill.kind = p.fill
  accepts : Pipeline.accepts p.dst frame.surface.format
  holds : frame.surface.Holds fill.bounds
  cursor : (Cursor.ofFetch? p.fetch fetch frame.origin).isSome

variable {p : Pipeline} {frame : Frame} {fill : Fill} {fetch : Fetch}

/-- Where the pipeline can draw, it draws the fill. -/
theorem draw_of_canDraw (h : CanDraw p frame fill fetch) {cursor : Cursor}
    (hc : Cursor.ofFetch? p.fetch fetch frame.origin = some cursor) {left : Fill} {t : Stroke}
    (hdraw : fill.draw? ⟨p.op, frame.surface, cursor⟩ = some (left, t)) :
    draw p frame fill fetch = .ok (t.surface, left) := by
  have hfits : ¬ (fill.kind ≠ p.fill ∨ !Pipeline.accepts p.dst frame.surface.format) := by
    simp [h.kind, h.accepts]
  rw [draw_eq, if_neg hfits, if_neg (not_not.mpr h.holds), hc]
  dsimp only
  rw [hdraw]

/-- Where the pipeline cannot draw a fill, it refuses every fill of the same kind and bounds by one
error. -/
theorem draw_refused (h : ¬ CanDraw p frame fill fetch) :
    ∃ e, ∀ fill' : Fill, fill'.kind = fill.kind → fill'.bounds = fill.bounds →
      draw p frame fill' fetch = .error (.refused e) := by
  by_cases hfits : fill.kind ≠ p.fill ∨ !Pipeline.accepts p.dst frame.surface.format
  · refine ⟨.invalidSignature p.signature, fun fill' hkind _ => ?_⟩
    rw [draw_eq, hkind, if_pos hfits]
  · by_cases hholds : frame.surface.Holds fill.bounds
    · have hcursor : Cursor.ofFetch? p.fetch fetch frame.origin = none := by
        refine Option.not_isSome_iff_eq_none.mp fun hsome => h ⟨?_, ?_, hholds, hsome⟩
        · exact not_not.mp fun hkind => hfits (.inl hkind)
        · simpa using fun haccepts => hfits (.inr haccepts)
      refine ⟨.invalidSignature p.signature, fun fill' hkind hbounds => ?_⟩
      rw [draw_eq, hkind, hbounds, if_neg hfits, if_neg (not_not.mpr hholds), hcursor]
    · refine ⟨.invalidBuffer, fun fill' hkind hbounds => ?_⟩
      rw [draw_eq, hkind, hbounds, if_neg hfits, if_pos hholds]

/-- A run keeps the property of all pixels; where it must not end early, the pipeline has to fit
the fill. -/
theorem draw_all (hk : Keeps halts R C p.op frame.surface.format) (hf : fill.Sound halts)
    (hv : frame.surface.Valid) (hs : frame.surface.All R)
    (hc : ∀ c, Cursor.ofFetch? p.fetch fetch frame.origin = some c → C c)
    (hcan : ¬ halts → CanDraw p frame fill fetch) :
    Ends halts (fun out => frame.surface.SameShape out.1 ∧ out.1.All R)
      (draw p frame fill fetch) := by
  rw [draw_eq]
  split
  · rename_i hrefused
    refine by_contra fun hhalts => ?_
    have h := hcan hhalts
    simp [h.kind, h.accepts] at hrefused
  · split
    · rename_i hholds
      exact by_contra fun hhalts => hholds (hcan hhalts).holds
    · rename_i hholds
      split
      · rename_i hnone
        refine by_contra fun hhalts => ?_
        have h := (hcan hhalts).cursor
        rw [hnone] at h
        cases h
      · rename_i cursor hcursor
        have hdraw := Fill.draw?_all (s := ⟨p.op, frame.surface, cursor⟩) hk hf hv
          (not_not.mp hholds) hs (hc cursor hcursor)
        split
        · rename_i left stroke heq
          rw [heq] at hdraw
          exact hdraw
        · rename_i heq
          rw [heq] at hdraw
          exact hdraw

/-- The job after a run and how the run ended, by what `draw` makes of its fill. -/
theorem drawJob_eq_draw (p : Pipeline) (frame : Frame) (fill : Fill) (fetch : Fetch) :
    drawJob p fetch ⟨frame, fill⟩ =
      match draw p frame fill fetch with
      | .ok (surface, left) => some (.ok (), ⟨{ frame with surface }, left⟩)
      | .error (.refused e) => some (.error e, ⟨frame, fill⟩)
      | .error .outOfRange => none := by
  rw [draw_eq, drawJob_eq]
  split
  · rfl
  · split
    · rfl
    · cases Cursor.ofFetch? p.fetch fetch frame.origin with
      | none => rfl
      | some cursor =>
        dsimp only
        cases fill.draw? ⟨p.op, frame.surface, cursor⟩ <;> rfl

theorem drawJob_of_draw {left : Fill} {surface : Surface}
    (h : draw p frame fill fetch = .ok (surface, left)) :
    drawJob p fetch ⟨frame, fill⟩ = some (.ok (), ⟨{ frame with surface }, left⟩) := by
  rw [drawJob_eq_draw, h]

/-- The job keeps the property of all pixels, also where the run is refused. -/
theorem drawJob_all (frame : Frame) (fetch : Fetch)
    (hk : Keeps halts R C p.op frame.surface.format) (hf : fill.Sound halts)
    (hv : frame.surface.Valid) (hs : frame.surface.All R)
    (hc : ∀ c, Cursor.ofFetch? p.fetch fetch frame.origin = some c → C c)
    (hcan : ¬ halts → CanDraw p frame fill fetch) :
    Lands halts
      (fun out => Ends halts (fun _ => True) out.1 ∧
        frame.surface.SameShape out.2.frame.surface ∧ out.2.frame.surface.All R)
      (drawJob p fetch ⟨frame, fill⟩) := by
  have hdraw := draw_all hk hf hv hs hc hcan
  rw [drawJob_eq_draw]
  cases hrun : draw p frame fill fetch with
  | ok out =>
    rw [hrun] at hdraw
    exact ⟨trivial, hdraw⟩
  | error e =>
    rw [hrun] at hdraw
    have hhalts : halts := hdraw
    cases e with
    | refused e => exact ⟨hhalts, .refl _, hs⟩
    | outOfRange => exact hhalts

end Dispatch

/-! ## Bands -/

namespace Canvas

variable {p : Pipeline} {frame : Frame} {fill : Fill} {fetch : Fetch}

theorem holds_band {s : Surface} {part : Fill} {n i : Nat} (hin : s.Holds fill.bounds)
    (hpart : part.bounds = fill.bounds.clipRows (s.band n i).top (s.band n i).bottom) :
    (s.band n i).Holds part.bounds := by
  rw [hpart]
  exact ⟨hin.1, hin.2.1, le_max_right _ _, min_le_right _ _⟩

theorem mem_bands {s b : Surface} {n : Nat} (h : b ∈ s.bands n) :
    ∃ i, b = s.band (max n 1) i ∧ i * max n 1 < s.height := by
  obtain ⟨i, hi, rfl⟩ := List.mem_map.mp h
  exact ⟨i, rfl, Surface.mul_lt_of_lt_bandCount (by omega) (List.mem_range.mp hi)⟩

/-- A band keeps the property of all of its pixels. -/
theorem performBand_all (frame : Frame) (fetch : Fetch)
    (hk : Keeps halts R C p.op frame.surface.format) (hf : fill.Sound halts)
    (hv : frame.surface.Valid) (hs : frame.surface.All R)
    (hc : ∀ c, Cursor.ofFetch? p.fetch fetch frame.origin = some c → C c)
    (hcan : ¬ halts → Dispatch.CanDraw p frame fill fetch)
    (hbox : fill.kind = .alignedBox ∨ fill.kind = .fractionalBox) {n : Nat} {b : Surface}
    (hb : b ∈ frame.surface.bands n) :
    Ends halts (fun _ => True) (performBand (.static p) frame.origin fill fetch b).2 ∧
      b.SameShape (performBand (.static p) frame.origin fill fetch b).1 ∧
        (performBand (.static p) frame.origin fill fetch b).1.All R := by
  obtain ⟨i, rfl, hi⟩ := mem_bands hb
  have hvalid := hv.band (show 0 < max n 1 by omega) hi
  have hall := hs.band hvalid
  unfold performBand
  cases hpart : fill.clipRows? _ _ with
  | none => exact ⟨trivial, .refl _, hall⟩
  | some part =>
    obtain ⟨hbounds, hkind⟩ := Fill.bounds_clipRows? hpart hbox
    have hjob := Dispatch.drawJob_all (p := p) ⟨frame.surface.band (max n 1) i, frame.origin⟩ fetch
      hk (hf.clipRows? hpart) hvalid hall hc fun hhalts => by
        have h := hcan hhalts
        exact ⟨hkind.trans h.kind, h.accepts, holds_band h.holds hbounds, h.cursor⟩
    dsimp only
    rw [Dispatch.perform_static]
    generalize Dispatch.drawJob p fetch ⟨⟨_, _⟩, part⟩ = run at hjob
    cases run with
    | none => exact ⟨hjob, .refl _, hall⟩
    | some out =>
      obtain ⟨result, job⟩ := out
      obtain ⟨hends, hdrawn⟩ := hjob
      refine ⟨?_, hdrawn⟩
      cases result with
      | ok u => trivial
      | error e => exact hends

/-- Bands keep what every one of them keeps by itself, also those behind one that is refused. -/
theorem performBands_forall₂ {d : Dispatch} {origin : Int × Int} {P : Surface → Surface → Prop}
    {bands : List Surface} (hrefl : ∀ b ∈ bands, P b b)
    (hband : ∀ b ∈ bands, Ends halts (fun _ => True) (performBand d origin fill fetch b).2 ∧
      P b (performBand d origin fill fetch b).1) :
    Ends halts (fun _ => True) (performBands d origin fill fetch bands).2 ∧
      List.Forall₂ P bands (performBands d origin fill fetch bands).1 := by
  induction bands with
  | nil => exact ⟨trivial, .nil⟩
  | cons b rest ih =>
    obtain ⟨hends, hdrawn⟩ := hband b List.mem_cons_self
    have hrest := ih (fun b hb => hrefl b (List.mem_cons_of_mem _ hb))
      fun b hb => hband b (List.mem_cons_of_mem _ hb)
    rw [performBands]
    generalize performBand d origin fill fetch b = out at hends hdrawn
    obtain ⟨b', result⟩ := out
    cases result with
    | ok u => exact ⟨hrest.1, .cons hdrawn hrest.2⟩
    | error e =>
      exact ⟨hends, .cons hdrawn (List.forall₂_same.mpr fun b hb =>
        hrefl b (List.mem_cons_of_mem _ hb))⟩

theorem performBands_all (frame : Frame) (fetch : Fetch)
    (hk : Keeps halts R C p.op frame.surface.format) (hf : fill.Sound halts)
    (hv : frame.surface.Valid) (hs : frame.surface.All R)
    (hc : ∀ c, Cursor.ofFetch? p.fetch fetch frame.origin = some c → C c)
    (hcan : ¬ halts → Dispatch.CanDraw p frame fill fetch)
    (hbox : fill.kind = .alignedBox ∨ fill.kind = .fractionalBox) (n : Nat) :
    let out := performBands (.static p) frame.origin fill fetch (frame.surface.bands n)
    Ends halts (fun _ => True) out.2 ∧ frame.surface.SameShape (frame.surface.withBands n out.1) ∧
      (frame.surface.withBands n out.1).All R := by
  intro out
  have hband {b : Surface} (hb : b ∈ frame.surface.bands n) : b.All R := by
    obtain ⟨i, rfl, hi⟩ := mem_bands hb
    exact hs.band (hv.band (show 0 < max n 1 by omega) hi)
  obtain ⟨hends, hbands⟩ := performBands_forall₂ (P := fun b b' => b.SameShape b' ∧ b'.All R)
    (fun b hb => ⟨.refl b, hband hb⟩)
    fun b hb => performBand_all frame fetch hk hf hv hs hc hcan hbox hb
  have hredrawn : frame.surface.Redrawn n out.1 := hbands.imp fun _ _ h => h.1
  have hflipped : List.Forall₂ (fun b' b => b'.All R ∧ b.SameShape b') out.1
      (frame.surface.bands n) := List.Forall₂.flip (hbands.imp fun _ _ h => h.symm)
  have hall : ∀ b ∈ out.1, b.All R := ((List.forall₂_and_left _ _).mp hflipped).1
  exact ⟨hends, hredrawn.sameShape, Surface.all_withBands hv hredrawn hall⟩

/-- Bands that all end well are the ones that `drawBand` makes. -/
theorem performBands_eq_mapM (d : Dispatch) (origin : Int × Int) (fill : Fill) (fetch : Fetch)
    (bands : List Surface) :
    ((performBands d origin fill fetch bands).2.map fun _ =>
        (performBands d origin fill fetch bands).1) =
      bands.mapM (drawBand d origin fill fetch) := by
  induction bands with
  | nil => rfl
  | cons b rest ih =>
    rw [List.mapM_cons, ← ih, performBands, drawBand]
    obtain ⟨b', result⟩ := performBand d origin fill fetch b
    cases result with
    | error e => rfl
    | ok u =>
      dsimp only
      cases (performBands d origin fill fetch rest).2 <;> rfl

theorem drawBands_eq_mapM (d : Dispatch) (frame : Frame) (fill : Fill) (fetch : Fetch) (n : Nat) :
    drawBands d frame fill fetch n =
      ((frame.surface.bands n).mapM (drawBand d frame.origin fill fetch)).map
        (frame.surface.withBands n) := by
  rw [← performBands_eq_mapM]
  unfold drawBands
  dsimp only
  cases (performBands d frame.origin fill fetch (frame.surface.bands n)).2 <;> rfl

end Canvas

/-! ## Images -/

namespace Image

/-- The image can be drawn to and has all of its bytes, and no others. -/
structure Whole (i : Image) : Prop where
  drawable : i.format.isDrawable
  size : i.bytes.size = i.height * i.stride

/-- The sides of the image are 32-bit words. -/
def HasWordSides (i : Image) : Prop := (i.width : Int) ≤ maxInt32 ∧ (i.height : Int) ≤ maxInt32

instance (i : Image) : Decidable i.HasWordSides := inferInstanceAs (Decidable (_ ∧ _))

/-- The image as the surface that is drawn to. -/
def surface (i : Image) : Surface := ⟨i.bytes, i.stride, i.width, i.height, i.format, 0⟩

variable {i : Image}

theorem Whole.valid (h : i.Whole) : i.surface.Valid := by
  refine ⟨h.drawable, le_rfl, fun hpos => ?_⟩
  replace hpos : 0 < i.height := hpos
  change i.stride * (i.height - 1) + i.stride ≤ i.bytes.size
  rw [h.size, ← Nat.mul_succ, Nat.succ_eq_add_one, Nat.sub_add_cancel hpos, Nat.mul_comm]

/-- An image whose bytes can be counted is made into its surface. -/
theorem Whole.toSurface_eq (h : i.Whole) (hsize : i.bytes.size < 0x10000000000000000) :
    i.toSurface = .ok i.surface := by
  have hend : (if 0 < i.height then i.stride * (i.height - 1) + i.width * i.format.bytesPerPixel
      else 0) ≤ i.bytes.size := by
    split
    · exact h.valid.rows ‹_›
    · exact Nat.zero_le _
  have hcounted := size64?_eq_some.mpr ⟨rfl, hend.trans_lt hsize⟩
  have hrow : ¬ i.stride < i.width * i.format.bytesPerPixel := Nat.lt_irrefl _
  unfold toSurface Surface.ofBytes
  dsimp only
  rw [if_neg (by simp [h.drawable]), if_neg hrow, hcounted]
  exact if_neg (Nat.not_lt.mpr hend)

theorem eq_of_toSurface {s : Surface} (h : i.toSurface = .ok s) : s = i.surface :=
  Surface.eq_of_ofBytes h

/-- The bytes of an image with word sides can be counted. -/
theorem Whole.size_lt (h : i.Whole) (hsides : i.HasWordSides) :
    i.bytes.size < 0x10000000000000000 := by
  have hpixel : i.format.bytesPerPixel ≤ 4 := by cases i.format <;> decide
  obtain ⟨hwidth, hheight⟩ := hsides
  unfold maxInt32 at hwidth hheight
  have hwidth : i.width ≤ 2147483647 := by omega
  have hheight : i.height ≤ 2147483647 := by omega
  have hbytes : i.height * (i.width * i.format.bytesPerPixel) ≤ 2147483647 * (2147483647 * 4) :=
    Nat.mul_le_mul hheight (Nat.mul_le_mul hwidth hpixel)
  rw [h.size, stride]
  omega

theorem Whole.withSurface (h : i.Whole) {s : Surface} (hs : i.surface.SameShape s) :
    (i.withSurface s).Whole := ⟨h.drawable, hs.size.trans h.size⟩

theorem surface_withSurface {s : Surface} (hs : i.surface.SameShape s) :
    (i.withSurface s).surface = s := by
  obtain ⟨bytes, stride, width, height, format, top⟩ := s
  obtain ⟨hstride, hwidth, hheight, hformat, htop, -⟩ := hs
  exact congr (congr (congr (congr (congrArg (Surface.mk bytes) hstride.symm) hwidth.symm)
    hheight.symm) hformat.symm) htop.symm

end Image

/-- Fills that are drawn in bands are boxes. -/
theorem Canvas.isBox_of_isBanded {fill : Fill} {n : Nat} (h : isBanded fill n = true) :
    fill.kind = .alignedBox ∨ fill.kind = .fractionalBox := by
  cases fill with
  | alignedBox b => exact .inl rfl
  | fractionalBox b => exact .inr rfl
  | mask f => cases h
  | analytic f => cases h

/-- Painting a fill on an image changes its bytes alone, and keeps the property of all pixels,
however it ends. -/
theorem Canvas.paint_all {p : Pipeline} {image : Image} {origin : Int × Int} {fill : Fill}
    {fetch : Fetch} (hk : Keeps halts R C p.op image.format) (hf : fill.Sound halts)
    (hw : image.Whole) (hs : image.surface.All R)
    (hc : ∀ c, Cursor.ofFetch? p.fetch fetch origin = some c → C c)
    (hcan : ¬ halts → Dispatch.CanDraw p ⟨image.surface, origin⟩ fill fetch)
    (hsides : ¬ halts → image.HasWordSides) (n : Nat) :
    let out := paint (.static p) image origin fill fetch n
    Ends halts (fun _ => True) out.2.2 ∧
      ∃ bytes, out.1 = { image with bytes } ∧ out.1.Whole ∧ out.1.surface.All R := by
  have hkept : ∃ bytes, image = { image with bytes } ∧ image.Whole ∧ image.surface.All R :=
    ⟨image.bytes, rfl, hw, hs⟩
  have hpainted {s : Surface} (h : image.surface.SameShape s ∧ s.All R) :
      ∃ bytes, image.withSurface s = { image with bytes } ∧ (image.withSurface s).Whole ∧
        (image.withSurface s).surface.All R :=
    ⟨_, rfl, hw.withSurface h.1, (Image.surface_withSurface h.1).symm ▸ h.2⟩
  intro out
  unfold out paint
  cases hsurface : image.toSurface with
  | error e =>
    refine ⟨by_contra fun hhalts => ?_, hkept⟩
    rw [hw.toSurface_eq (hw.size_lt (hsides hhalts))] at hsurface
    cases hsurface
  | ok surface =>
    obtain rfl := Image.eq_of_toSurface hsurface
    dsimp only
    split
    · rename_i hbanded
      split
      · rename_i htall
        exact ⟨by_contra fun hhalts => absurd (hsides hhalts).2 (not_le.mpr htall), hkept⟩
      · obtain ⟨hends, hdrawn⟩ := performBands_all (p := p) ⟨image.surface, origin⟩ fetch hk hf
          hw.valid hs hc hcan (isBox_of_isBanded hbanded) n
        exact ⟨hends, hpainted hdrawn⟩
    · have hjob :=
        Dispatch.drawJob_all (p := p) ⟨image.surface, origin⟩ fetch hk hf hw.valid hs hc hcan
      rw [Dispatch.perform_static]
      cases hrun : Dispatch.drawJob p fetch ⟨⟨image.surface, origin⟩, fill⟩ with
      | none =>
        rw [hrun] at hjob
        exact ⟨hjob, hkept⟩
      | some out =>
        obtain ⟨result, job⟩ := out
        rw [hrun] at hjob
        refine ⟨?_, hpainted hjob.2⟩
        cases result with
        | ok u => trivial
        | error e => exact hjob.1

end Scanline
