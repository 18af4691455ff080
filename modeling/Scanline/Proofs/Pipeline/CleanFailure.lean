import Scanline.Proofs.Numeric.Words
import Scanline.Proofs.Render.Frame

/-
  Runs that are refused. A pipeline looks at a job three times before it draws: whether the fill is
  of its kind and the format is one that it draws to, whether the bounds of the fill stay inside of
  the surface, and whether it reads the fetch. The first answer that is no decides the error, and a
  run that ends with an error has changed nothing (`Dispatch.eq_of_drawJob_error`): neither bytes
  nor the buffers of an analytic fill nor the origin.

  The error is the one that is due by these three questions (`Dispatch.drawJob_endsAs`), with the
  second one asked of sides that are seen as 32-bit words. Such a side is never longer than the true
  one (`Surface.Holds.encloses`), but one of `2 ^ 31` or more is seen as negative, and bounds inside
  of the surface are overlooked. `Dispatch.perform_endsAs_iff` says that runs end as they should by
  the true sides except for a fitting job where this happens.
-/

namespace Scanline

/-! ## What a pipeline reads -/

/-- The sources of pixels that kinds of fetches are made for. -/
inductive SourceFamily where
  | solid
  /-- A pattern at a place. -/
  | placed
  /-- A pattern under a map. -/
  | mapped
  | linear
  | radial
  | conic
  deriving DecidableEq, Repr

/-- The family of sources that a kind is made for. -/
def FetchKind.family : FetchKind → SourceFamily
  | solid => .solid
  | alignedBlit | alignedPad | alignedRepeat | alignedFold | fractionalXPad | fractionalXFold
  | fractionalYPad | fractionalYFold | fractionalXYPad | fractionalXYFold => .placed
  | affineNearest | affineNearestShort | affineBilinear | affineBilinearShort => .mapped
  | linearPad | linearFold | linearDitherPad | linearDitherFold => .linear
  | radialPad | radialFold | radialDitherPad | radialDitherFold => .radial
  | conic | conicDither => .conic

def PatternMode.family : PatternMode → SourceFamily
  | placed _ => .placed
  | mapped _ => .mapped

def GradientCourse.family : GradientCourse → SourceFamily
  | linear _ => .linear
  | radial _ => .radial
  | conic _ => .conic

/-- Whether pipelines of a kind read a fetch: it is of the family of the kind. In an empty pattern
there is nothing to read, and every kind for patterns takes it. -/
def FetchKind.Reads (k : FetchKind) : Fetch → Prop
  | .solid _ => k.family = .solid
  | .pattern f =>
    k.family = f.mode.family ∨ f.source.isEmpty ∧ (k.family = .placed ∨ k.family = .mapped)
  | .gradient f => k.family = f.course.family

instance FetchKind.decidableReads (k : FetchKind) : DecidablePred k.Reads
  | .solid _ => inferInstanceAs (Decidable (_ = _))
  | .pattern _ => inferInstanceAs (Decidable (_ ∨ _))
  | .gradient _ => inferInstanceAs (Decidable (_ = _))

namespace Cursor

variable (k : FetchKind)

theorem isSome_ofPattern?_iff (f : PatternFetch) :
    (ofPattern? k f).isSome ↔ k.family = f.mode.family := by
  obtain ⟨source, mode⟩ := f
  cases mode <;> cases k <;> simp [ofPattern?, FetchKind.family, PatternMode.family]

theorem isSome_ofGradient?_iff (f : GradientFetch) (origin : Int × Int) :
    (ofGradient? k f origin).isSome ↔ k.family = f.course.family := by
  obtain ⟨table, course⟩ := f
  cases course <;> cases k <;> simp [ofGradient?, FetchKind.family, GradientCourse.family]

/-- There is a cursor exactly for the fetches that the kind reads. -/
theorem isSome_ofFetch?_iff (fetch : Fetch) (origin : Int × Int) :
    (ofFetch? k fetch origin).isSome ↔ k.Reads fetch := by
  have hpatterns : k.isPattern ↔ k.family = .placed ∨ k.family = .mapped := by
    cases k <;> decide
  have hgradients : k.isGradient ↔ k.family = .linear ∨ k.family = .radial ∨ k.family = .conic := by
    cases k <;> decide
  cases fetch with
  | solid pixel =>
    have hsolid : k.isSolid ↔ k.family = .solid := by cases k <;> decide
    by_cases h : k.isSolid <;> simp [ofFetch?, FetchKind.Reads, h, ← hsolid]
  | pattern f =>
    have hmode : k.family = f.mode.family → k.isPattern := fun h =>
      hpatterns.mpr (by rw [h]; cases f.mode <;> simp [PatternMode.family])
    by_cases hk : k.isPattern
    · by_cases hempty : f.source.isEmpty
      · simp [ofFetch?, FetchKind.Reads, hk, hempty, hpatterns.mp hk]
      · simp [ofFetch?, FetchKind.Reads, hk, hempty, isSome_ofPattern?_iff]
    · simp [ofFetch?, FetchKind.Reads, hk, ← hpatterns, mt hmode hk]
  | gradient f =>
    have hcourse : k.family = f.course.family → k.isGradient := fun h =>
      hgradients.mpr (by rw [h]; cases f.course <;> simp [GradientCourse.family])
    by_cases hk : k.isGradient
    · simp [ofFetch?, FetchKind.Reads, hk, isSome_ofGradient?_iff]
    · simp [ofFetch?, FetchKind.Reads, hk, mt hcourse hk]

end Cursor

/-! ## Bounds inside of a surface -/

namespace Surface

variable {s : Surface} {b : Box}

/-- Whether a box lies inside of the columns and rows of the surface. -/
def Encloses (s : Surface) (b : Box) : Prop :=
  0 ≤ b.x0 ∧ b.x1 ≤ s.width ∧ s.top ≤ b.y0 ∧ b.y1 ≤ s.top + s.height

instance (s : Surface) (b : Box) : Decidable (s.Encloses b) :=
  inferInstanceAs (Decidable (_ ∧ _))

/-- The box lies inside of the surface, but not of what is seen of its sides in 32-bit words. -/
def Overlooks (s : Surface) (b : Box) : Prop :=
  s.Encloses b ∧ (wrap32 s.width < b.x1 ∨ s.top + wrap32 s.height < b.y1)

instance (s : Surface) (b : Box) : Decidable (s.Overlooks b) :=
  inferInstanceAs (Decidable (_ ∧ _))

theorem Holds.encloses (h : s.Holds b) : s.Encloses b := by
  obtain ⟨hx0, hx1, hy0, hy1⟩ := h
  exact ⟨hx0, hx1.trans (wrap32_natCast_le _), hy0,
    hy1.trans (Int.add_le_add_left (wrap32_natCast_le _) _)⟩

theorem overlooks_iff : s.Overlooks b ↔ s.Encloses b ∧ ¬ s.Holds b := by
  refine and_congr_right fun ⟨hx0, _, hy0, _⟩ => ?_
  simp only [Holds, bottom, hx0, hy0, true_and, not_and_or, not_le]

/-- Only sides of half the words and more are not seen as they are. -/
theorem Overlooks.side_ge (h : s.Overlooks b) : 2 ^ 31 ≤ s.width ∨ 2 ^ 31 ≤ s.height := by
  by_contra hsides
  obtain ⟨hw, hh⟩ := not_or.mp hsides
  have hcount (n : Nat) (hn : ¬ 2 ^ 31 ≤ n) : wrap32 n = n :=
    wrap32_of_range (by unfold minInt32; omega) (by unfold maxInt32; omega)
  obtain ⟨⟨-, hx1, -, hy1⟩, hlost | hlost⟩ := h
  · rw [hcount _ hw] at hlost
    exact absurd hx1 (not_le.mpr hlost)
  · rw [hcount _ hh] at hlost
    exact absurd hy1 (not_le.mpr hlost)

end Surface

/-! ## Which error is due -/

/-- A job whose fill is of the kind of the pipeline, on a surface of a format that the pipeline
draws to: its own one, or `xrgb32` for `prgb32`. -/
def Pipeline.Fits (p : Pipeline) (job : Job) : Prop :=
  job.fill.kind = p.fill ∧
    (job.frame.surface.format = p.dst ∨ p.dst = .prgb32 ∧ job.frame.surface.format = .xrgb32)

instance (p : Pipeline) (job : Job) : Decidable (p.Fits job) :=
  inferInstanceAs (Decidable (_ ∧ _))

/-- The error that a job deserves, where `inside` says that the bounds of its fill lie inside of the
surface. -/
def Pipeline.fault? (p : Pipeline) (fetch : Fetch) (job : Job) (inside : Prop)
    [Decidable inside] : Option RenderError :=
  if ¬ p.Fits job then some (.invalidSignature p.signature)
  else if ¬ inside then some .invalidBuffer
  else if ¬ p.fetch.Reads fetch then some (.invalidSignature p.signature)
  else none

/-- Sides that are seen as words lead to the error that is due by the sides themselves, unless the
job fits and its bounds are overlooked. -/
theorem Pipeline.fault?_eq_iff {p : Pipeline} (fetch : Fetch) {job : Job} :
    p.fault? fetch job (job.frame.surface.Holds job.fill.bounds) =
        p.fault? fetch job (job.frame.surface.Encloses job.fill.bounds) ↔
      ¬ (p.Fits job ∧ job.frame.surface.Overlooks job.fill.bounds) := by
  rw [Surface.overlooks_iff]
  by_cases hfits : p.Fits job
  · by_cases hholds : job.frame.surface.Holds job.fill.bounds
    · simp [fault?, hholds, hholds.encloses]
    · by_cases hencloses : job.frame.surface.Encloses job.fill.bounds
      · -- Whether the fetch is read does not matter: the errors differ in both cases.
        by_cases hread : p.fetch.Reads fetch <;> simp [fault?, hfits, hholds, hencloses, hread]
      · simp [fault?, hholds, hencloses]
  · simp [fault?, hfits]

/-- The end of a run that is refused with the error that is due. Without one, it is not refused: it
ends well or leaves a buffer. -/
def Job.EndsAs (due : Option RenderError) (result : Option (Except RenderError Unit × Job)) :
    Prop :=
  match due with
  | some e => ∃ job, result = some (.error e, job)
  | none => result = none ∨ ∃ job, result = some (.ok (), job)

theorem Job.EndsAs.unique {a b : Option RenderError}
    {result : Option (Except RenderError Unit × Job)} (ha : Job.EndsAs a result)
    (hb : Job.EndsAs b result) : a = b := by
  cases a with
  | some e =>
    obtain ⟨job, rfl⟩ := ha
    cases b with
    | some e' => obtain ⟨_, h⟩ := hb; cases h; rfl
    | none => obtain h | ⟨_, h⟩ := hb <;> cases h
  | none =>
    cases b with
    | some e' => obtain ⟨_, rfl⟩ := hb; obtain h | ⟨_, h⟩ := ha <;> cases h
    | none => rfl

namespace Dispatch

variable {p : Pipeline} {fetch : Fetch} {job : Job}

theorem not_fits_iff :
    job.fill.kind ≠ p.fill ∨ (!Pipeline.accepts p.dst job.frame.surface.format) = true ↔
      ¬ p.Fits job := by
  simp [Pipeline.Fits, Pipeline.accepts, imp_iff_not_or]

theorem fits_of_accepts (hkind : job.fill.kind = p.fill)
    (haccepts : Pipeline.accepts p.dst job.frame.surface.format) : p.Fits job :=
  not_not.mp (mt not_fits_iff.mpr (by simp [hkind, haccepts]))

/-- The error that is due, with the sides of the surface as words. -/
theorem drawJob_endsAs :
    Job.EndsAs (p.fault? fetch job (job.frame.surface.Holds job.fill.bounds))
      (drawJob p fetch job) := by
  have hread := Cursor.isSome_ofFetch?_iff p.fetch fetch job.frame.origin
  simp only [Pipeline.fault?, drawJob_eq, not_fits_iff]
  by_cases hfits : ¬ p.Fits job
  · rw [if_pos hfits, if_pos hfits]
    exact ⟨job, rfl⟩
  rw [if_neg hfits, if_neg hfits]
  by_cases hholds : ¬ job.frame.surface.Holds job.fill.bounds
  · rw [if_pos hholds, if_pos hholds]
    exact ⟨job, rfl⟩
  rw [if_neg hholds, if_neg hholds]
  cases hcursor : Cursor.ofFetch? p.fetch fetch job.frame.origin with
  | none =>
    rw [hcursor] at hread
    rw [if_pos (mt hread.mpr nofun)]
    exact ⟨job, rfl⟩
  | some cursor =>
    rw [hcursor] at hread
    rw [if_neg (not_not.mpr (hread.mp rfl))]
    dsimp only
    cases job.fill.draw? ⟨p.op, job.frame.surface, cursor⟩ with
    | none => exact .inl rfl
    | some drawn => exact .inr ⟨_, rfl⟩

/-- What is refused is left as it was. -/
theorem eq_of_drawJob_error {e : RenderError} {job' : Job}
    (h : drawJob p fetch job = some (.error e, job')) : job' = job := by
  rw [drawJob_eq] at h
  split at h
  · cases h; rfl
  · split at h
    · cases h; rfl
    · split at h
      · cases h; rfl
      · -- Behind the checks there is no error left.
        obtain ⟨_, -, hend⟩ := Option.map_eq_some_iff.mp h
        cases hend

/-- A job that fits, with bounds outside of what is seen of the surface, is refused. -/
theorem drawJob_of_not_holds (hfits : p.Fits job)
    (hholds : ¬ job.frame.surface.Holds job.fill.bounds) :
    drawJob p fetch job = some (.error .invalidBuffer, job) := by
  rw [drawJob_eq, if_neg (mt not_fits_iff.mp (not_not.mpr hfits)), if_pos hholds]

/-- A ready-made pipeline goes straight to the job. -/
theorem perform_of_ofSignature {signature : Signature} {d : Dispatch}
    (hd : Dispatch.ofSignature signature = .ok d) (fetch : Fetch) (job : Job) :
    d.perform fetch job = drawJob d.pipeline fetch job := by
  rw [(ofSignature_eq_ok hd).1]
  exact congrFun (perform_static d.pipeline fetch) job

/-! ## The run of a ready-made pipeline -/

/-- When the runs of ready-made pipelines end as they should: with the error that is due by the
true sides of the surface, and without one where no error is due. They do unless the job fits the
pipeline and its bounds are overlooked, for which the surface needs a side of `2 ^ 31` or more; then
the run ends with `invalidBuffer`. A run that ends with an error, whichever it is, leaves the bytes,
the origin and the buffers of the fill as they were. -/
theorem perform_endsAs_iff {signature : Signature} {d : Dispatch}
    (hd : Dispatch.ofSignature signature = .ok d) (fetch : Fetch) (job : Job) :
    (Job.EndsAs (d.pipeline.fault? fetch job (job.frame.surface.Encloses job.fill.bounds))
        (d.perform fetch job) ↔
      ¬ (d.pipeline.Fits job ∧ job.frame.surface.Overlooks job.fill.bounds)) ∧
    (d.pipeline.Fits job → job.frame.surface.Overlooks job.fill.bounds →
      (2 ^ 31 ≤ job.frame.surface.width ∨ 2 ^ 31 ≤ job.frame.surface.height) ∧
        d.perform fetch job = some (.error .invalidBuffer, job)) ∧
    ∀ e job', d.perform fetch job = some (.error e, job') → job' = job := by
  rw [perform_of_ofSignature hd]
  refine ⟨?_, fun hfits hover => ⟨hover.side_ge, ?_⟩, fun e job' => eq_of_drawJob_error⟩
  · rw [← Pipeline.fault?_eq_iff fetch]
    constructor
    · exact fun hclaimed => drawJob_endsAs.unique hclaimed
    · exact fun heq => heq ▸ drawJob_endsAs
  · exact drawJob_of_not_holds hfits (Surface.overlooks_iff.mp hover).2

/-- A surface without columns has no bytes and can have any number of rows; a fill of its first row
is refused if there are `2 ^ 31`. -/
theorem perform_endsAs_iff_tall :
    let surface : Surface := ⟨#[], 0, 0, 0x80000000, .a8, 0⟩
    let job : Job := ⟨⟨surface, (0, 0)⟩, .mask ⟨⟨0, 0, 0, 1⟩, 255, [.once]⟩⟩
    ∃ d, Dispatch.ofSignature ⟨0xC113⟩ = .ok d ∧
      Surface.ofBytes #[] 0 0 0x80000000 .a8 = .ok surface ∧
      MaskFill.ofCommands? 255 ⟨0, 0, 0, 1⟩ [.once] = some ⟨⟨0, 0, 0, 1⟩, 255, [.once]⟩ ∧
      surface.Encloses job.fill.bounds ∧
      ¬ Job.EndsAs none (d.perform (.solid 0x80402010) job) ∧
      d.perform (.solid 0x80402010) job = some (.error .invalidBuffer, job) := by
  intro surface job
  obtain ⟨d, hd, hfits, hread⟩ : ∃ d, Dispatch.ofSignature ⟨0xC113⟩ = .ok d ∧
      d.pipeline.Fits job ∧ d.pipeline.fetch.Reads (.solid 0x80402010) :=
    ⟨_, rfl, by decide, by decide⟩
  have hover : surface.Overlooks job.fill.bounds := by decide
  obtain ⟨hends, hrefused, -⟩ := perform_endsAs_iff hd (.solid 0x80402010) job
  refine ⟨d, hd, rfl, rfl, hover.1, ?_, (hrefused hfits hover).2⟩
  have hdue : d.pipeline.fault? (.solid 0x80402010) job (surface.Encloses job.fill.bounds) =
      none := by
    rw [Pipeline.fault?, if_neg (not_not.mpr hfits), if_neg (not_not.mpr hover.1),
      if_neg (not_not.mpr hread)]
  rw [← hdue]
  exact fun h => hends.mp h ⟨hfits, hover⟩

end Dispatch

end Scanline
