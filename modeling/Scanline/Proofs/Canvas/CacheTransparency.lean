import Scanline.Proofs.Canvas.Calls

/-
  Where a canvas has its pipelines from cannot be observed. Two canvases are `Alike` when their
  settings are the same, their providers give the same answers and their caches hold nothing else.
  A signature that both look up has the same pipeline on both, whether it is found in a cache or
  not, so a fill ends in the same way on both and leaves them alike (`Alike.render`), and so does
  every call (`Alike.perform`). By induction over the calls all of them end in the same way and
  leave the same images (`Alike.outcomes_eq`).

  A canvas is like itself without its cache. With a source that always fails and is backed by the
  ready-made pipelines it is like one without a source. `outcomes_eq_afresh` says both of whole
  sequences of calls.
-/

namespace Scanline

/-! ## Providers -/

namespace Provider

variable {source : PipelineSource}

/-- Pipelines carry the signature that the provider was asked for if those of its primary source
do. -/
theorem signature_of_get (hsource : ∀ s d, source.get s = .ok d → d.signature = s)
    (fallback : Bool) (s : Signature) (d : Dispatch) (h : get ⟨some source, fallback⟩ s = .ok d) :
    d.signature = s := by
  unfold get at h
  dsimp only at h
  split at h
  · rename_i d' hd
    cases h
    exact hsource s d hd
  · split at h
    · exact Dispatch.signature_of_ofSignature h
    · cases h

/-- A primary source that fails without blaming the signature is not noticed. -/
theorem get_of_failing {s : Signature} {e : RenderError} (h : source.get s = .error e)
    (he : e.blamesSignature = false) : get ⟨some source, true⟩ s = Dispatch.ofSignature s := by
  unfold get
  dsimp only
  rw [h]
  exact if_pos (by rw [he]; rfl)

end Provider

namespace Canvas

variable {get : Signature → Except RenderError Dispatch} {c c' : Canvas}

/-! ## Canvases that draw with the same pipelines -/

/-- The provider answers as `get` does, and the cache agrees with it. -/
structure Serves (get : Signature → Except RenderError Dispatch) (c : Canvas) : Prop where
  provider : c.provider.get = get
  cache : c.cache.AgreesWith get

/-- Two canvases with the same settings and the same answers to a signature. -/
structure Alike (get : Signature → Except RenderError Dispatch) (c c' : Canvas) : Prop where
  left : c.Serves get
  right : c'.Serves get
  settings : ∃ provider cache asked, c' = { c with provider, cache, asked }

/-- Two outputs that are the same apart from where the canvases have their pipelines from. -/
def SameOut {β : Type} (get : Signature → Except RenderError Dispatch) (out out' : Canvas × β) :
    Prop :=
  Alike get out.1 out'.1 ∧ out.2 = out'.2

/-- Outputs that are the same are so without what is left of a fill. -/
theorem SameOut.ended {β γ : Type} {out out' : Canvas × β × γ} (h : SameOut get out out') :
    SameOut get (out.1, out.2.2) (out'.1, out'.2.2) := by
  obtain ⟨hafter, hout⟩ := h
  refine ⟨hafter, ?_⟩
  dsimp only
  rw [hout]

theorem Serves.lookup_eq (hkeyed : ∀ s d, get s = .ok d → d.signature = s) (h : c.Serves get)
    (s : Signature) :
    ∃ cache asked, c.lookup s = ({ c with cache, asked }, get s) ∧ cache.AgreesWith get := by
  have hfound := lookup_eq_get (c := c) (h.provider.symm ▸ hkeyed) (h.provider.symm ▸ h.cache) s
  rwa [h.provider] at hfound

theorem Serves.refl (h : c.Serves get) : Alike get c c := ⟨h, h, c.provider, c.cache, c.asked, rfl⟩

namespace Alike

variable (hkeyed : ∀ s d, get s = .ok d → d.signature = s)

theorem image_eq (h : Alike get c c') : c'.image = c.image := by
  obtain ⟨provider, cache, asked, rfl⟩ := h.settings
  rfl

include hkeyed

/-- The step: a fill of one canvas and the same fill of the other. -/
theorem render (h : Alike get c c') (op : Operator) (source : Prepared Fetch) (fill : Fill) :
    SameOut get (c.render op source fill) (c'.render op source fill) := by
  obtain ⟨hleft, hright, provider, cache, asked, rfl⟩ := h
  have hsame : Alike get c { c with provider, cache, asked } :=
    ⟨hleft, hright, provider, cache, asked, rfl⟩
  unfold Canvas.render
  cases source.kind with
  | none => exact ⟨hsame, rfl⟩
  | some kind =>
    dsimp only
    split
    · exact ⟨hsame, rfl⟩
    · -- of the signature it matters only that both canvases look up the same one
      generalize Signature.withFetch _ _ = s
      obtain ⟨cache₁, asked₁, hfound, hagrees⟩ := hleft.lookup_eq hkeyed s
      obtain ⟨cache₂, asked₂, hfound', hagrees'⟩ := hright.lookup_eq hkeyed s
      rw [hfound, hfound']
      have hafter (image : Image) : Alike get { c with image, cache := cache₁, asked := asked₁ }
          { c with image, provider, cache := cache₂, asked := asked₂ } :=
        ⟨⟨hleft.provider, hagrees⟩, ⟨hright.provider, hagrees'⟩, provider, cache₂, asked₂, rfl⟩
      cases get s with
      | error e => exact ⟨hafter c.image, rfl⟩
      | ok d => exact ⟨hafter _, rfl⟩

theorem renderStyle (h : Alike get c c') (fill : Fill) :
    SameOut get (c.renderStyle fill) (c'.renderStyle fill) := by
  have hrender := h.render hkeyed
  obtain ⟨provider, cache, asked, rfl⟩ := h.settings
  unfold Canvas.renderStyle
  dsimp only
  cases c.style.prepare? with
  | none => exact ⟨h, rfl⟩
  | some source => exact hrender c.op source fill

theorem renderSome (h : Alike get c c') (fill : Option Fill) :
    SameOut get (c.renderSome fill) (c'.renderSome fill) := by
  cases fill with
  | none => exact ⟨h, rfl⟩
  | some fill => exact (h.renderStyle hkeyed fill).ended

theorem fillAnalytic (h : Alike get c c') (f : AnalyticFill) :
    SameOut get (c.fillAnalytic f) (c'.fillAnalytic f) := by
  have hrender := h.renderStyle hkeyed
  obtain ⟨provider, cache, asked, rfl⟩ := h.settings
  unfold Canvas.fillAnalytic
  dsimp only
  split
  · exact ⟨h, rfl⟩
  · split
    · exact ⟨h, rfl⟩
    · have hdrawn := hrender (.analytic (dropRows f
        (f.bounds.clampTo c.image.width c.image.height) (mul255 f.alpha c.alpha)))
      generalize c.renderStyle _ = out at hdrawn ⊢
      generalize Canvas.renderStyle _ _ = out' at hdrawn ⊢
      obtain ⟨after, left, result⟩ := out
      obtain ⟨after', left', result'⟩ := out'
      obtain ⟨hafter, hout⟩ := hdrawn
      cases hout
      dsimp only
      split
      · split
        · exact ⟨hafter, rfl⟩
        · exact ⟨hafter, rfl⟩
      · exact ⟨hafter, rfl⟩

theorem clear (h : Alike get c c') : SameOut get c.clear c'.clear := by
  have hrender := h.render hkeyed .clear ⟨.solid 0, some .solid⟩
  -- the sides of the image decide on both canvases alike whether there is a box to draw
  have hsame : c'.clearFill? = c.clearFill? := by
    rw [clearFill?, h.image_eq, clearFill?]
  refine clear_cases (P := fun out => SameOut get out c'.clear) (fun hnone => ?_)
    fun fill hfill => ?_
  · refine clear_cases (P := SameOut get (c, .ok ())) (fun _ => ⟨h, rfl⟩) fun fill hfill => ?_
    cases hnone.symm.trans (hsame.symm.trans hfill)
  · refine clear_cases (P := SameOut get _) (fun hnone => ?_) fun fill' hfill' => ?_
    · cases hfill.symm.trans (hsame.symm.trans hnone)
    · obtain rfl := Option.some.inj (hfill.symm.trans (hsame.symm.trans hfill'))
      exact (hrender fill).ended

/-- The step: a call on one canvas and the same call on the other. -/
theorem perform (h : Alike get c c') (call : Call) :
    SameOut get (c.perform call) (c'.perform call) := by
  have hfill := h.renderSome hkeyed
  have hanalytic := h.fillAnalytic hkeyed
  have hclear := h.clear hkeyed
  obtain ⟨hleft, hright, provider, cache, asked, rfl⟩ := h
  have hset (settings : Canvas) (hp : settings.provider = c.provider)
      (hc : settings.cache = c.cache) :
      Alike get settings { settings with provider, cache, asked } :=
    ⟨⟨hp ▸ hleft.provider, hc ▸ hleft.cache⟩, ⟨hright.provider, hright.cache⟩, provider, cache,
      asked, rfl⟩
  cases call with
  | setOperator op => exact ⟨hset { c with op } rfl rfl, rfl⟩
  | setCompose mode => exact ⟨hset { c with op := .ofCompose mode } rfl rfl, rfl⟩
  | setAlpha alpha => exact ⟨hset { c with alpha := alpha.toNat } rfl rfl, rfl⟩
  | setOrigin origin => exact ⟨hset { c with origin } rfl rfl, rfl⟩
  | setStyle style => exact ⟨hset { c with style } rfl rfl, rfl⟩
  | setColor color => exact ⟨hset { c with style := .solid color.premultiplied } rfl rfl, rfl⟩
  | setImage image => exact ⟨hset { c with image } rfl rfl, rfl⟩
  | fillBox bounds => exact hfill _
  | fillRect r => exact hfill _
  | fillMask bounds commands => exact hfill _
  | fillAnalytic f => exact (hanalytic f).ended
  | clear => exact hclear

end Alike

/-! ## Sequences of calls -/

/-- How each of some calls ends, and the image that it leaves. -/
def outcomes (step : Canvas → Call → Canvas × Result) (c : Canvas) :
    List Call → List (Result × Image)
  | [] => []
  | call :: rest => ((step c call).2, (step c call).1.image) :: outcomes step (step c call).1 rest

/-- The run: calls on two canvases, where every step on one is like a step on the other. -/
theorem Alike.outcomes_eq {step step' : Canvas → Call → Canvas × Result}
    (hstep : ∀ {c c'}, Alike get c c' → ∀ call, SameOut get (step c call) (step' c' call))
    (h : Alike get c c') (calls : List Call) :
    outcomes step c calls = outcomes step' c' calls := by
  induction calls generalizing c c' with
  | nil => rfl
  | cons call rest ih =>
    obtain ⟨hafter, hout⟩ := hstep h call
    unfold outcomes
    rw [hout, hafter.image_eq, ih hafter]

/-- The run: what a canvas holds in its cache are answers of its provider. -/
theorem Serves.run (hkeyed : ∀ s d, get s = .ok d → d.signature = s) (h : c.Serves get)
    (calls : List Call) : (c.run calls).Serves get := by
  induction calls generalizing c with
  | nil => exact h
  | cons call rest ih => exact ih (h.refl.perform hkeyed call).1.left

/-- The canvas with nothing in its cache. -/
def forgetful (c : Canvas) : Canvas := { c with cache := .empty }

/-- A call for which the provider is asked, whatever it was asked before. -/
def performAfresh (c : Canvas) (call : Call) : Canvas × Result := c.forgetful.perform call

theorem Alike.forgetful (h : Alike get c c') : Alike get c c'.forgetful := by
  obtain ⟨hleft, hright, provider, cache, asked, rfl⟩ := h
  exact ⟨hleft, ⟨hright.provider, PipelineCache.agreesWith_empty⟩, provider, .empty, asked, rfl⟩

/-- Neither the cache of a canvas nor a source that fails can be observed. Calls end in the same
way and leave the same images as where the provider is asked anew for every one of them, and what
the cache holds is what the provider answers. Where the ready-made pipelines serve what the source
cannot, and the source fails for every signature without blaming it, the calls end and draw as on
a canvas without a source. -/
theorem outcomes_eq_afresh {source : PipelineSource}
    (hsource : ∀ s d, source.get s = .ok d → d.signature = s) (image : Image) (fallback : Bool)
    (bandHeight : Nat) (calls : List Call) :
    let c : Canvas := { image, provider := ⟨some source, fallback⟩, bandHeight }
    outcomes perform c calls = outcomes performAfresh c calls ∧
      (∀ d, some d ∈ (c.run calls).cache.slots → c.provider.get d.signature = .ok d) ∧
      (fallback = true →
        (∀ s, ∃ e, source.get s = .error e ∧ ∀ t, e ≠ .pending t ∧ e ≠ .invalidSignature t) →
        outcomes perform c calls =
          outcomes perform { image, provider := {}, bandHeight } calls) := by
  intro c
  have hkeyed := Provider.signature_of_get hsource fallback
  have hserves : c.Serves c.provider.get := ⟨rfl, PipelineCache.agreesWith_empty⟩
  refine ⟨?_, fun d hd => ?_, ?_⟩
  · exact hserves.refl.outcomes_eq (fun h => h.forgetful.perform hkeyed) calls
  · exact (hserves.run hkeyed calls).cache d hd
  · rintro rfl hfails
    have hget : c.provider.get = Dispatch.ofSignature := by
      funext s
      obtain ⟨e, he, hblames⟩ := hfails s
      refine Provider.get_of_failing he ?_
      cases e with
      | pending t => exact absurd rfl (hblames t).1
      | invalidSignature t => exact absurd rfl (hblames t).2
      | _ => rfl
    have halike : Alike c.provider.get c { image, provider := {}, bandHeight } :=
      ⟨hserves, ⟨hget.symm, PipelineCache.agreesWith_empty⟩, {}, .empty, 0, rfl⟩
    exact halike.outcomes_eq (fun h => h.perform hkeyed) calls

/-- A source with fill functions of its own: only the ones for boxes of whole pixels end well, and
all others draw and then give up. -/
def boxSource : PipelineSource :=
  ⟨.generated, fun s => do
    let d ← Dispatch.ofSignature s
    if s.fill? = some .alignedBox then .ok d
    else
      .ok { d with
        fillFunc := fun p fetch => do
          Dispatch.drawJob p fetch
          throw .generatorUnavailable }⟩

/-- A mask that is drawn and refused all the same, and boxes of which the second and the third find
their pipeline in the cache; and the same over a source that has no pipelines at all. -/
theorem outcomes_eq_afresh_boxSource :
    let blank : Image := ⟨1, 1, .prgb32, #[0, 0, 0, 0]⟩
    let black : Image := ⟨1, 1, .prgb32, #[0, 0, 0, 255]⟩
    let calls : List Call :=
      [.fillMask ⟨0, 0, 1, 1⟩ [.constant 0 1 255], .fillBox ⟨0, 0, 1, 1⟩, .clear,
        .fillBox ⟨0, 0, 1, 1⟩]
    let c : Canvas := { image := blank, provider := ⟨some boxSource, false⟩ }
    let failing : PipelineSource := ⟨.generated, fun _ => .error .generatorUnavailable⟩
    (∀ s d, boxSource.get s = .ok d → d.signature = s) ∧
      (c.run calls).asked = 2 ∧
      outcomes performAfresh c calls =
        [(.error (.refused .generatorUnavailable), black), (.ok (), black), (.ok (), blank),
          (.ok (), black)] ∧
      outcomes perform { image := blank, provider := ⟨some failing, true⟩ } calls =
        [(.ok (), black), (.ok (), black), (.ok (), blank), (.ok (), black)] := by
  intro blank black calls c failing
  have hkeyed : ∀ s d, boxSource.get s = .ok d → d.signature = s := by
    intro s d h
    obtain ⟨d₀, hd₀, h⟩ := except_bind_eq_ok.mp h
    have hsig := Dispatch.signature_of_ofSignature hd₀
    split at h
    · cases h
      exact hsig
    · cases h
      exact hsig
  refine ⟨hkeyed, by decide +kernel, ?_, ?_⟩
  · rw [← (outcomes_eq_afresh hkeyed blank false 64 calls).1]
    decide +kernel
  · have hnever : ∀ s d, failing.get s = .ok d → d.signature = s := by
      intro s d h
      cases h
    have hfails : ∀ s, ∃ e, failing.get s = .error e ∧
        ∀ t, e ≠ .pending t ∧ e ≠ .invalidSignature t :=
      fun _ => ⟨.generatorUnavailable, rfl, fun _ => ⟨nofun, nofun⟩⟩
    obtain ⟨-, -, hdefault⟩ := outcomes_eq_afresh hnever blank true 64 calls
    rw [hdefault rfl hfails]
    decide +kernel

end Canvas

end Scanline
