import Scanline.Canvas.Basic

/-
  The ways a fill of a canvas can end. Nothing is drawn where the source is pending or the operator
  comes down to nothing (`Canvas.Idle`); otherwise the fill is drawn by some pipeline, or an error
  ends it (`DrawsStatically.render_cases`). What a pipeline leaves of a fill is known where it
  draws with a fill function that stands ready.
-/

namespace Scanline

namespace Canvas

/-- Drawing with the operator and the source comes down to nothing. -/
def IdleOn (c : Canvas) (op : Operator) (source : Prepared Fetch) : Prop :=
  source.kind = none ∨ (op.simplify c.image.format source.fetch.format).solid = .skip

instance (c : Canvas) (op : Operator) (source : Prepared Fetch) : Decidable (c.IdleOn op source) :=
  inferInstanceAs (Decidable (_ ∨ _))

/-- The canvas draws nothing with its style and its operator. -/
def Idle (c : Canvas) : Prop := ∃ source, c.style.prepare? = some source ∧ c.IdleOn c.op source

/-- Nothing is drawn, and no pipeline is asked for. -/
theorem IdleOn.render {c : Canvas} {op : Operator} {source : Prepared Fetch}
    (h : c.IdleOn op source) (fill : Fill) : c.render op source fill = (c, fill, .ok ()) := by
  obtain ⟨fetch, kind⟩ := source
  cases kind with
  | none => rfl
  | some kind => exact if_pos (h.resolve_left nofun)

end Canvas

/-! ## Fill functions that stand ready -/

/-- The dispatch draws with a fill function that stands ready. It may have a hook. -/
def Dispatch.DrawsStatically (d : Dispatch) : Prop := ∃ target, d.fillFunc = fillStatic target

/-- The hook sees the frame before the fill function does. -/
theorem Dispatch.perform_eq (d : Dispatch) (fetch : Fetch) (job : Job) :
    d.perform fetch job = d.fillFunc d.pipeline fetch
      (match d.hook with
        | some hook => { job with frame := hook d.pipeline job.frame job.fill fetch }
        | none => job) := by
  obtain ⟨p, fillFunc, hook⟩ := d
  cases hook <;> rfl

/-- What is left of a fill that is drawn well is what drawing leaves of it. -/
theorem Dispatch.DrawsStatically.perform_ok {d : Dispatch} (hd : d.DrawsStatically) {fetch : Fetch}
    {job job' : Job} (h : d.perform fetch job = some (.ok (), job')) :
    ∃ s t, job.fill.draw? s = some (job'.fill, t) := by
  obtain ⟨target, hfill⟩ := hd
  have hdrawn (frame : Frame)
      (h : d.fillFunc d.pipeline fetch { job with frame } = some (.ok (), job')) :
      ∃ s t, job.fill.draw? s = some (job'.fill, t) := by
    rw [hfill] at h
    change drawJob { d.pipeline with dst := target } fetch _ = _ at h
    rw [drawJob_eq] at h
    split at h
    · cases h
    · split at h
      · cases h
      · split at h
        · cases h
        · obtain ⟨⟨left, t⟩, hdraw, hjob⟩ := Option.map_eq_some_iff.mp h
          cases hjob
          exact ⟨_, t, hdraw⟩
  rw [perform_eq] at h
  cases hhook : d.hook with
  | none =>
    rw [hhook] at h
    exact hdrawn job.frame h
  | some hook =>
    rw [hhook] at h
    exact hdrawn _ h

namespace Canvas

/-- All pipelines that the canvas can look up draw with fill functions that stand ready. -/
def DrawsStatically (c : Canvas) : Prop := ∀ s d, (c.lookup s).2 = .ok d → d.DrawsStatically

theorem paint_ok {d : Dispatch} (hd : d.DrawsStatically) {image : Image} {origin : Int × Int}
    {fill : Fill} {fetch : Fetch} {n : Nat} (hb : isBanded fill n = false)
    (h : (paint d image origin fill fetch n).2.2 = .ok ()) :
    ∃ s t, fill.draw? s = some ((paint d image origin fill fetch n).2.1, t) := by
  unfold paint at h ⊢
  cases hs : image.toSurface with
  | error e => rw [hs] at h; cases h
  | ok surface =>
    rw [hs] at h
    simp only [hb, Bool.false_eq_true, if_false] at h ⊢
    cases hrun : d.perform fetch ⟨⟨surface, origin⟩, fill⟩ with
    | none => rw [hrun] at h; cases h
    | some out =>
      obtain ⟨result, job⟩ := out
      rw [hrun] at h
      cases result with
      | error e => cases h
      | ok u => exact hd.perform_ok hrun

/-- A fill that is not cut into bands is left alone where drawing comes down to nothing; otherwise
it is what drawing has left of it, or there is an error. -/
theorem DrawsStatically.render_cases {c : Canvas} (hc : c.DrawsStatically) (op : Operator)
    (source : Prepared Fetch) (fill : Fill) (hb : ∀ n, isBanded fill n = false) :
    c.IdleOn op source ∧ c.render op source fill = (c, fill, .ok ()) ∨
      ¬ c.IdleOn op source ∧
        ((∃ s left t, fill.draw? s = some (left, t) ∧
            (c.render op source fill).2 = (left, .ok ())) ∨
          ∃ e, (c.render op source fill).2.2 = .error e) := by
  by_cases hidle : c.IdleOn op source
  · exact .inl ⟨hidle, hidle.render fill⟩
  · refine .inr ⟨hidle, ?_⟩
    obtain ⟨hkind, hskip⟩ := not_or.mp hidle
    obtain ⟨fetch, kind⟩ := source
    cases kind with
    | none => exact absurd rfl hkind
    | some kind =>
      simp only [render, if_neg hskip]
      generalize hfound : Canvas.lookup c _ = found
      obtain ⟨c', dispatch⟩ := found
      cases dispatch with
      | error e => exact .inr ⟨_, rfl⟩
      | ok d =>
        have hd : d.DrawsStatically := hc _ d (by rw [hfound])
        dsimp only
        generalize hpaint : paint d c'.image c'.origin fill _ c'.bandHeight = out
        obtain ⟨image, left, result⟩ := out
        cases result with
        | error e => exact .inr ⟨e, rfl⟩
        | ok u =>
          obtain ⟨s, t, hdraw⟩ := paint_ok hd (hb _) (congrArg (·.2.2) hpaint)
          rw [hpaint] at hdraw
          exact .inl ⟨s, left, t, hdraw, rfl⟩

/-- The same with the style and the operator of the canvas. -/
theorem DrawsStatically.renderStyle_cases {c : Canvas} (hc : c.DrawsStatically) (fill : Fill)
    (hb : ∀ n, isBanded fill n = false) :
    c.Idle ∧ c.renderStyle fill = (c, fill, .ok ()) ∨
      ¬ c.Idle ∧
        ((∃ s left t, fill.draw? s = some (left, t) ∧ (c.renderStyle fill).2 = (left, .ok ())) ∨
          ∃ e, (c.renderStyle fill).2.2 = .error e) := by
  unfold renderStyle Idle
  cases c.style.prepare? with
  | none => exact .inr ⟨fun ⟨_, hsource, _⟩ => (nomatch hsource), .inr ⟨_, rfl⟩⟩
  | some source =>
    have hidle : (∃ source', some source = some source' ∧ c.IdleOn c.op source') ↔
        c.IdleOn c.op source := by simp
    rw [hidle]
    exact hc.render_cases c.op source fill hb

end Canvas

end Scanline
