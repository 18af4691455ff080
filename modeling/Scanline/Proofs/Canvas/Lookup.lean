import Scanline.Proofs.Canvas.Render
import Scanline.Proofs.Signature.Fields

/-
  The pipelines that a canvas draws with. What its cache holds are answers of its provider, so that
  it draws with these whether it finds them in the cache or not (`Canvas.lookup_eq_get`); without a
  source of its own these are the ready-made pipelines (`Canvas.lookup_eq`). For the signature of a
  simplified operator that does not skip there is such a pipeline, and it accepts the image
  (`Pipeline.accepts_simplify`). `Canvas.render_eq_paint`: this is what such a canvas paints with.
-/

namespace Scanline

/-- A dispatch that stands ready has the signature that it was asked for with. -/
theorem Dispatch.signature_of_ofSignature {s : Signature} {d : Dispatch}
    (h : ofSignature s = .ok d) : d.signature = s := by
  unfold ofSignature at h
  cases hp : Pipeline.ofSignature s with
  | error e => rw [hp] at h; cases h
  | ok p =>
    rw [hp] at h
    change (if p.dst.isDrawable = true then _ else _) = _ at h
    split at h
    · cases h
      unfold Pipeline.ofSignature at hp
      split at hp
      · cases hp
      · split at hp
        · split at hp
          · cases hp
          · cases hp
            rfl
        · cases hp
    · cases h

/-- The operator of a canvas, with a fill and a fetch, has a pipeline that draws to drawable
destinations. -/
theorem Dispatch.ofSignature_ofSimplified {x : Simplified} {k : FillKind} (kind : FetchKind)
    (hdst : x.dst.isDrawable) (hk : k ≠ .none) :
    ofSignature (((Signature.ofSimplified x).withFill k).withFetch kind) =
      .ok (static
        ⟨((Signature.ofSimplified x).withFill k).withFetch kind, x.dst, x.src, x.op, k, kind⟩) := by
  unfold ofSignature
  rw [Signature.ofSignature_ofSimplified x k kind hk]
  exact if_pos hdst

/-- Where simplifying does not skip, what is left can be drawn to the destination. -/
theorem Pipeline.accepts_simplify {op : Operator} {f s : PixelFormat} (hf : f.isDrawable)
    (h : (op.simplify f s).solid ≠ .skip) :
    (op.simplify f s).dst.isDrawable ∧ accepts (op.simplify f s).dst f := by
  cases f with
  | prgb32 | xrgb32 | a8 =>
    cases op <;> cases s <;> first | exact ⟨rfl, rfl⟩ | exact absurd rfl h
  | none | frgb32 | zero32 => cases hf

/-! ## Caches -/

namespace PipelineCache

variable {capacity : Nat} {c : PipelineCache capacity} {d : Dispatch} {s : Signature}
  {get : Signature → Except RenderError Dispatch}

/-- The cache holds only what `get` answers for the signature of a pipeline. -/
def AgreesWith (get : Signature → Except RenderError Dispatch) (c : PipelineCache capacity) :
    Prop :=
  ∀ d, some d ∈ c.slots → get d.signature = .ok d

theorem agreesWith_empty : (empty : PipelineCache capacity).AgreesWith get := by
  intro d h
  cases List.eq_of_mem_replicate h

theorem AgreesWith.of_get? (hc : c.AgreesWith get) (h : c.get? s = some d) : get s = .ok d := by
  have hslot : c.slots.find? (holds s) = some (some d) := Option.join_eq_some_iff.mp h
  have hholds : holds s (some d) := List.find?_some hslot
  have hsig : d.signature = s := beq_iff_eq.mp hholds
  exact hsig ▸ hc d (List.mem_of_find?_eq_some hslot)

theorem AgreesWith.insert (hc : c.AgreesWith get) (hd : get d.signature = .ok d) :
    (c.insert d).AgreesWith get := by
  have hset : ∀ i d', some d' ∈ c.slots.set i (some d) → get d'.signature = .ok d' := by
    intro i d' h
    obtain h | h := List.mem_or_eq_of_mem_set h
    · exact hc d' h
    · obtain rfl := Option.some.inj h
      exact hd
  unfold PipelineCache.insert
  split
  · exact hset _
  · exact hset _

/-- The cache holds ready-made pipelines only. -/
def Faithful (c : PipelineCache capacity) : Prop :=
  ∀ d, some d ∈ c.slots → Dispatch.ofSignature d.signature = .ok d

theorem faithful_empty : (empty : PipelineCache capacity).Faithful :=
  agreesWith_empty

end PipelineCache

namespace Canvas

variable {c : Canvas}

/-- Looking up a signature gives the answer of the provider, and changes nothing but what the
cache holds and how often the provider was asked. -/
theorem lookup_eq_get (hkeyed : ∀ s d, c.provider.get s = .ok d → d.signature = s)
    (hc : c.cache.AgreesWith c.provider.get) (s : Signature) :
    ∃ cache asked, c.lookup s = ({ c with cache, asked }, c.provider.get s) ∧
      cache.AgreesWith c.provider.get := by
  unfold lookup
  cases hget : c.cache.get? s with
  | some d => exact ⟨c.cache, c.asked, by rw [hc.of_get? hget], hc⟩
  | none =>
    dsimp only
    cases hd : c.provider.get s with
    | error e => exact ⟨c.cache, c.asked + 1, rfl, hc⟩
    | ok d =>
      have hsig := hkeyed s d hd
      exact ⟨c.cache.insert d, c.asked + 1, rfl, hc.insert (hsig.symm ▸ hd)⟩

/-- A canvas without a source of its own draws with the ready-made pipeline of the signature. -/
theorem lookup_eq (hown : c.provider.primary = none) (hc : c.cache.Faithful) (s : Signature) :
    ∃ cache asked, c.lookup s = ({ c with cache, asked }, Dispatch.ofSignature s) ∧
      cache.Faithful := by
  have hget : c.provider.get = Dispatch.ofSignature := by
    funext t
    unfold Provider.get
    rw [hown]
  have hfound := lookup_eq_get (c := c)
    (fun t d h => Dispatch.signature_of_ofSignature (congrFun hget t ▸ h)) (hget ▸ hc) s
  rwa [hget] at hfound

/-- The ready-made pipelines draw with the fill function that stands ready. -/
theorem drawsStatically_of_own (hown : c.provider.primary = none) (hc : c.cache.Faithful) :
    c.DrawsStatically := by
  intro s d h
  obtain ⟨cache, asked, hlookup, -⟩ := lookup_eq hown hc s
  rw [hlookup] at h
  exact ⟨d.pipeline.dst, congrArg Dispatch.fillFunc (Dispatch.ofSignature_eq_ok h).1⟩

/-- A canvas without a source of its own paints a fill with a ready-made pipeline, unless drawing
comes down to nothing. The pipeline reads a solid that stands for the source, or else the source. -/
theorem render_eq_paint (hown : c.provider.primary = none) (hc : c.cache.Faithful)
    (hformat : c.image.format.isDrawable) {op : Operator} {source : Prepared Fetch}
    (hidle : ¬ c.IdleOn op source) (fill : Fill) :
    ∃ (p : Pipeline) (fetch : Fetch) (cache : PipelineCache 16) (asked : Nat), cache.Faithful ∧
      p.fill = fill.kind ∧ Pipeline.accepts p.dst c.image.format ∧
      p.op = (op.simplify c.image.format source.fetch.format).op ∧
      (match (op.simplify c.image.format source.fetch.format).solid.color? with
        | some pixel => fetch = .solid pixel ∧ p.fetch = .solid
        | none => fetch = source.fetch ∧ source.kind = some p.fetch) ∧
      c.render op source fill =
        ({ c with
            cache, asked
            image := (paint (.static p) c.image c.origin fill fetch c.bandHeight).1 },
          (paint (.static p) c.image c.origin fill fetch c.bandHeight).2) := by
  obtain ⟨hkind, hskip⟩ := not_or.mp hidle
  obtain ⟨sourceFetch, kind?⟩ := source
  cases kind? with
  | none => exact absurd rfl hkind
  | some kind =>
    generalize hx : op.simplify c.image.format sourceFetch.format = x at hskip
    have haccepts : x.dst.isDrawable ∧ Pipeline.accepts x.dst c.image.format :=
      hx ▸ Pipeline.accepts_simplify hformat (hx ▸ hskip)
    have hfill : fill.kind ≠ .none := by cases fill <;> exact nofun
    simp only [render, hx, if_neg hskip]
    cases hcolor : x.solid.color? with
    | some pixel =>
      dsimp only
      obtain ⟨cache, asked, hlookup, hfaithful⟩ := lookup_eq hown hc
        (((Signature.ofSimplified x).withFill fill.kind).withFetch .solid)
      rw [hlookup, Dispatch.ofSignature_ofSimplified .solid haccepts.1 hfill]
      exact ⟨_, .solid pixel, cache, asked, hfaithful, rfl, haccepts.2, rfl, ⟨rfl, rfl⟩, rfl⟩
    | none =>
      dsimp only
      obtain ⟨cache, asked, hlookup, hfaithful⟩ := lookup_eq hown hc
        (((Signature.ofSimplified x).withFill fill.kind).withFetch kind)
      rw [hlookup, Dispatch.ofSignature_ofSimplified kind haccepts.1 hfill]
      exact ⟨_, sourceFetch, cache, asked, hfaithful, rfl, haccepts.2, rfl, ⟨rfl, rfl⟩, rfl⟩

end Canvas

end Scanline
