import Scanline.Proofs.Canvas.Render
import Scanline.Proofs.Canvas.Safety

/-
  Patterns that draw nothing. An idle canvas leaves everything as it is, whatever is filled
  (`Canvas.Idle.perform`), and one that is not idle keeps a pipeline at least. A pattern is idle
  without columns, but not without rows: it is then drawn as transparent pixels, unless its map
  cannot be undone or the operator changes nothing (`Canvas.pattern_drawsNothing_iff`).
-/

namespace Scanline

namespace PatternFetch

variable {source : PatternSource} {extend : ExtendMode} {quality : PatternQuality}
  {transform : Affine}

/-- A pattern without columns, and one under a map that cannot be undone, is pending. -/
theorem mapped?_of_pending (h : source.width = 0 ∨ transform.inverse? = none) :
    mapped? source extend quality transform = some (pending source) := by
  unfold mapped?
  cases hinv : transform.inverse? with
  | none => rfl
  | some inv => exact if_pos (h.resolve_right (by rw [hinv]; exact nofun))

/-- No other pattern is pending. -/
theorem pending_of_mapped? {p : Prepared PatternFetch}
    (h : mapped? source extend quality transform = some p) (hk : p.kind = none) :
    source.width = 0 ∨ transform.inverse? = none := by
  unfold mapped? at h
  cases hinv : transform.inverse? with
  | none => exact .inr rfl
  | some inv =>
    rw [hinv] at h
    dsimp only at h
    split_ifs at h with hwidth
    · exact .inl hwidth
    · obtain ⟨_, _, rfl⟩ := Option.map_eq_some_iff.mp h
      cases hk
    · obtain ⟨_, _, rfl⟩ := Option.map_eq_some_iff.mp h
      cases hk

end PatternFetch

namespace Canvas

variable {c : Canvas}

/-! ## Idle canvases -/

/-- The call fills something with the style; an analytic fill has been given its buffers. -/
def Call.DrawsStyle : Call → Prop
  | fillBox _ | fillRect _ | fillMask _ _ => True
  | fillAnalytic f => (Fill.analytic f).Made ∧ FitsWord f.bounds.y0 ∧ FitsWord f.bounds.y1
  | setOperator _ | setCompose _ | setAlpha _ | setOrigin _ | setStyle _ | setColor _ | setImage _
  | clear => False

/-- Every fill with the style ends well, and leaves the image and the cache as they are. -/
def DrawsNothing (c : Canvas) : Prop :=
  ∀ call : Call, call.DrawsStyle →
    (c.perform call).2 = .ok () ∧ (c.perform call).1.image = c.image ∧
      (c.perform call).1.cache = c.cache

theorem Idle.renderStyle (h : c.Idle) (fill : Fill) : c.renderStyle fill = (c, fill, .ok ()) := by
  obtain ⟨source, hsource, hidle⟩ := h
  unfold Canvas.renderStyle
  rw [hsource]
  exact hidle.render fill

theorem Idle.renderSome (h : c.Idle) (fill : Option Fill) : c.renderSome fill = (c, .ok ()) := by
  cases fill with
  | none => rfl
  | some fill =>
    unfold Canvas.renderSome
    dsimp only
    rw [h.renderStyle fill]

theorem Idle.fillAnalytic (h : c.Idle) {f : AnalyticFill} (hf : f.Complete)
    (hrows : (f.bounds.height : Int) = f.bounds.y1 - f.bounds.y0) :
    (c.fillAnalytic f).1 = c ∧ (c.fillAnalytic f).2.2 = .ok () := by
  refine fillAnalytic_cases (P := fun c' result => c' = c ∧ result = .ok ())
    (fun _ => ⟨rfl, rfl⟩) (fun hbounds hreaches => ?_) fun _ _ => ?_
  · rw [reaches_clampTo hf hrows hbounds] at hreaches
    cases hreaches
  · dsimp only
    rw [h.renderStyle]
    exact ⟨rfl, rfl⟩

/-- An idle canvas stays as it is, whatever is filled. -/
theorem Idle.perform (h : c.Idle) {call : Call} (hcall : call.DrawsStyle) :
    c.perform call = (c, .ok ()) := by
  cases call with
  | fillBox bounds => exact h.renderSome _
  | fillRect r => exact h.renderSome _
  | fillMask bounds commands => exact h.renderSome _
  | fillAnalytic f =>
    obtain ⟨-, hcomplete, hrows⟩ := complete_of_made hcall.1 hcall.2.1 hcall.2.2
    obtain ⟨hcanvas, hresult⟩ := h.fillAnalytic hcomplete hrows
    exact Prod.ext hcanvas hresult
  | _ => exact hcall.elim

theorem Idle.drawsNothing (h : c.Idle) : c.DrawsNothing := by
  intro call hcall
  rw [h.perform hcall]
  exact ⟨rfl, rfl, rfl⟩

/-! ## Canvases that are not idle -/

/-- A canvas without pipelines keeps the first one that it finds. -/
theorem size_cache_of_lookup (hcache : c.cache = .empty) {s : Signature} {c' : Canvas}
    {d : Dispatch} (h : c.lookup s = (c', .ok d)) : c'.cache.size = 1 := by
  have hmiss : c.cache.get? s = none := by
    rw [hcache]
    rfl
  unfold lookup at h
  rw [hmiss] at h
  dsimp only at h
  cases hget : c.provider.get s with
  | error e =>
    rw [hget] at h
    cases (Prod.mk.inj h).2
  | ok d' =>
    rw [hget] at h
    obtain ⟨rfl, -⟩ := Prod.mk.inj h
    change (c.cache.insert d').size = 1
    rw [hcache]
    rfl

/-- Where drawing does not come down to nothing, a canvas without pipelines keeps one. -/
theorem size_cache_of_not_idleOn (hcache : c.cache = .empty) {op : Operator}
    {source : Prepared Fetch} (hidle : ¬ c.IdleOn op source) {fill : Fill}
    (hok : (c.render op source fill).2.2 = .ok ()) :
    (c.render op source fill).1.cache.size = 1 := by
  obtain ⟨hkind, hskip⟩ := not_or.mp hidle
  obtain ⟨fetch, kind⟩ := source
  cases kind with
  | none => exact absurd rfl hkind
  | some kind =>
    revert hok
    simp only [render, if_neg hskip]
    generalize hfound : Canvas.lookup c _ = found
    obtain ⟨c', dispatch⟩ := found
    cases dispatch with
    | error e =>
      intro hok
      cases hok
    | ok d =>
      have hsize : c'.cache.size = 1 := size_cache_of_lookup hcache hfound
      exact fun _ => hsize

/-- A canvas without pipelines that draws nothing in a box of its own is idle. -/
theorem DrawsNothing.idle (h : c.DrawsNothing) (hcache : c.cache = .empty) {bounds : Box}
    {b : AlignedBox}
    (hb : AlignedBox.ofBounds? c.alpha (bounds.clampTo c.image.width c.image.height) = some b) :
    c.Idle := by
  by_contra hidle
  obtain ⟨hok, -, hkept⟩ := h (.fillBox bounds) trivial
  revert hok hkept
  change (c.renderSome (c.boxFill? bounds)).2 = _ →
    (c.renderSome (c.boxFill? bounds)).1.cache = _ → False
  rw [boxFill?, hb, Option.map_some, renderSome, renderStyle]
  cases hsource : c.style.prepare? with
  | none =>
    intro hok
    cases hok
  | some source =>
    dsimp only
    intro hok hkept
    have hsize := size_cache_of_not_idleOn hcache (fun h => hidle ⟨source, hsource, h⟩) hok
    rw [hkept, hcache] at hsize
    exact absurd hsize (by decide)

/-! ## Patterns -/

/-- When a canvas is idle with a pattern. -/
theorem idle_pattern_iff {image : Image} {extend : ExtendMode} {quality : PatternQuality}
    {transform : Affine} (hstyle : c.style = .pattern image extend quality transform) :
    c.Idle ↔ image.width = 0 ∨ transform.inverse? = none ∨
      c.style.prepare?.isSome ∧ (c.op.simplify c.image.format image.format).solid = .skip := by
  unfold Idle
  rw [hstyle, Style.prepare?]
  constructor
  · rintro ⟨source, hsource, hidle⟩
    obtain ⟨p, hp, rfl⟩ := Option.map_eq_some_iff.mp hsource
    obtain hkind | hskip := hidle
    · exact (PatternFetch.pending_of_mapped? hp hkind).imp_right .inl
    · change (c.op.simplify c.image.format p.fetch.source.format).solid = .skip at hskip
      rw [Fetch.source_of_mapped? hp] at hskip
      exact .inr (.inr ⟨by rw [hp]; rfl, hskip⟩)
  · intro h
    obtain hpending | ⟨hsome, hskip⟩ := or_assoc.mpr h
    · rw [PatternFetch.mapped?_of_pending hpending]
      exact ⟨_, rfl, .inl rfl⟩
    · obtain ⟨p, hp⟩ := Option.isSome_iff_exists.mp (Option.isSome_map.symm.trans hsome)
      rw [hp]
      refine ⟨_, rfl, .inr ?_⟩
      change (c.op.simplify c.image.format p.fetch.source.format).solid = .skip
      rw [Fetch.source_of_mapped? hp]
      exact hskip

/-- A pattern draws nothing with an operator on images of a format, whatever is filled, just where
it has no columns, where its map cannot be undone, or where it is made ready for an operator that
changes nothing. That it has no rows is not enough. -/
theorem pattern_drawsNothing_iff (op : Operator) (format : PixelFormat) (image : Image)
    (extend : ExtendMode) (quality : PatternQuality) (transform : Affine) :
    (∀ c : Canvas, c.op = op → c.image.format = format →
        c.style = .pattern image extend quality transform → c.DrawsNothing) ↔
      image.width = 0 ∨ transform.inverse? = none ∨
        (Style.pattern image extend quality transform).prepare?.isSome ∧
          (op.simplify format image.format).solid = .skip := by
  constructor
  · intro h
    -- one pixel and no pipelines yet: drawing anything leaves a pipeline
    let c : Canvas :=
      { image := ⟨1, 1, format, #[]⟩, provider := {}, op
        style := .pattern image extend quality transform }
    have hbox : AlignedBox.ofBounds? c.alpha
        (Box.clampTo ⟨0, 0, 1, 1⟩ c.image.width c.image.height) =
          some ⟨⟨0, 0, 1, 1⟩, 255⟩ := by
      change AlignedBox.ofBounds? 255 (Box.clampTo ⟨0, 0, 1, 1⟩ 1 1) = _
      decide
    have hidle : c.Idle := (h c rfl rfl rfl).idle rfl hbox
    exact (idle_pattern_iff rfl).mp hidle
  · rintro h c rfl rfl hstyle
    rw [← hstyle] at h
    exact ((idle_pattern_iff hstyle).mpr h).drawsNothing

/-- A pattern of two columns and no rows is copied over a red row as transparent pixels. -/
theorem pattern_drawsNothing_iff_flat :
    (perform
        { image := ⟨2, 1, .prgb32, #[0, 0, 255, 255, 0, 0, 255, 255]⟩, provider := {}
          op := .srcCopy
          style := .pattern ⟨2, 0, .prgb32, #[]⟩ ⟨.pad, .pad⟩ .nearest ⟨1, 0, 0, 1, 0, 0⟩ }
        (.fillBox ⟨0, 0, 2, 1⟩)).1.image.bytes = Array.replicate 8 0 ∧
      ¬ ∀ c : Canvas, c.op = .srcCopy → c.image.format = .prgb32 →
        c.style = .pattern ⟨2, 0, .prgb32, #[]⟩ ⟨.pad, .pad⟩ .nearest ⟨1, 0, 0, 1, 0, 0⟩ →
          c.DrawsNothing := by
  refine ⟨by decide +kernel, ?_⟩
  have hinverse : (⟨1, 0, 0, 1, 0, 0⟩ : Affine).inverse?.isSome := by decide +kernel
  rw [pattern_drawsNothing_iff]
  rintro (hwidth | hnone | ⟨-, hskip⟩)
  · exact absurd hwidth (by decide)
  · rw [hnone] at hinverse
    cases hinverse
  · exact absurd hskip (by decide)

end Canvas

end Scanline
