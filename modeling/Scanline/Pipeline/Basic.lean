import Scanline.Fetch.Cursor
import Scanline.Render.Fill

/-
  Pipelines: the parts that a signature names, and running them over a surface. A signature that
  is not pending and whose five ids mean something, with a fill, describes a pipeline. A run works
  on a job, a surface with its origin and a fill, and gives it back also where it is refused
  (`Dispatch.perform`); `Dispatch.run` is what is left of it for those who stop at an error. What a
  pipeline draws with is up to where it comes from; the ones that stand ready draw by
  `Dispatch.fillStatic`. `Dispatch.drawJob_eq`: its checks come before anything is drawn.
-/

namespace Scanline

/-- The parts of a pipeline. -/
structure Pipeline where
  signature : Signature
  dst : PixelFormat
  src : PixelFormat
  op : Operator
  fill : FillKind
  fetch : FetchKind
  deriving DecidableEq, Repr

namespace Pipeline

/-- The pipeline that a signature describes. -/
def ofSignature (s : Signature) : Except RenderError Pipeline :=
  if s.isPending then .error (.pending s)
  else
    match s.dst?, s.src?, s.op?, s.fill?, s.fetch? with
    | some dst, some src, some op, some fill, some fetch =>
      if fill = .none then .error (.invalidSignature s)
      else .ok ⟨s, dst, src, op, fill, fetch⟩
    | _, _, _, _, _ => .error (.invalidSignature s)

/-- The pipeline as text. -/
def describe (p : Pipeline) : String :=
  s!"Pipeline \x7b signature: {p.signature.describe}, dst_format: {p.dst.label}, src_format: {p.src.label}, comp_op: {p.op.label}, fill_type: {p.fill.label}, fetch_type: {p.fetch.label} \x7d"

/-- Whether a pipeline for `dst` can draw to pixels of `format`. -/
def accepts (dst format : PixelFormat) : Bool :=
  format == dst || (dst == .prgb32 && format == .xrgb32)

end Pipeline

/-- A surface and where it lies in the render target. -/
structure Frame where
  surface : Surface
  origin : Int × Int := (0, 0)

/-- A fill and the frame that it is drawn to. -/
structure Job where
  frame : Frame
  fill : Fill

/-- A program that works on a job. Where it refuses, the job is what has been made of it until then;
a read or write outside of a buffer leaves nothing to go on with. -/
abbrev Job.Run (α : Type) := ExceptT RenderError (StateT Job Option) α

theorem Job.get_bind {α : Type} (f : Job → Job.Run α) (job : Job) :
    (get >>= f) job = f job job := rfl

/-- What is left of a job that ends well, or why it ends early. -/
def Job.outcome : Option (Except RenderError Unit × Job) → Except Halt (Surface × Fill)
  | some (.ok (), job) => .ok (job.frame.surface, job.fill)
  | some (.error e, _) => .error (.refused e)
  | none => .error .outOfRange

/-- A pipeline that can be run. -/
structure Dispatch where
  pipeline : Pipeline
  /-- Draws the fill of a job with the pixels of a fetch. -/
  fillFunc : Pipeline → Fetch → Job.Run Unit
  /-- Changes the frame before the fill runs. -/
  hook : Option (Pipeline → Frame → Fill → Fetch → Frame) := none

namespace Dispatch

def signature (d : Dispatch) : Signature := d.pipeline.signature

/-- The pipeline and whether it has a hook, as text. -/
def describe (d : Dispatch) : String :=
  let hooked := if d.hook.isSome then "true" else "false"
  s!"DispatchData \x7b pipeline: {d.pipeline.describe}, fetch_func: {hooked}, .. \x7d"

/-- Draws the fill of a job by a pipeline for `target`. Nothing is drawn before it is known that the
pipeline fits the job. -/
def fillStatic (target : PixelFormat) (p : Pipeline) (fetch : Fetch) : Job.Run Unit := do
  let ⟨frame, fill⟩ ← get
  if fill.kind ≠ p.fill ∨ !Pipeline.accepts target frame.surface.format then
    throw (.invalidSignature p.signature)
  else if ¬ frame.surface.Holds fill.bounds then throw .invalidBuffer
  else
    match Cursor.ofFetch? p.fetch fetch frame.origin with
    | none => throw (.invalidSignature p.signature)
    | some cursor =>
      let (fill, stroke) ← fill.draw? ⟨p.op, frame.surface, cursor⟩
      set ({ frame := { frame with surface := stroke.surface }, fill } : Job)

/-- Draws the fill of a job by a pipeline for its own format. -/
def drawJob (p : Pipeline) (fetch : Fetch) : Job.Run Unit := fillStatic p.dst p fetch

/-- The dispatch of a pipeline that stands ready. -/
def static (p : Pipeline) : Dispatch := ⟨p, fillStatic p.dst, none⟩

/-- The dispatch that stands ready for a signature. -/
def ofSignature (s : Signature) : Except RenderError Dispatch := do
  let p ← Pipeline.ofSignature s
  if p.dst.isDrawable then .ok (static p) else .error (.unsupportedFormat p.dst)

/-- Runs the hook and then the pipeline. -/
def perform (d : Dispatch) (fetch : Fetch) : Job.Run Unit := do
  if let some hook := d.hook then
    modify fun job => { job with frame := hook d.pipeline job.frame job.fill fetch }
  d.fillFunc d.pipeline fetch

/-- The surface and what is left of the fill, where `drawJob` ends well. -/
def draw (p : Pipeline) (frame : Frame) (fill : Fill) (fetch : Fetch) :
    Except Halt (Surface × Fill) :=
  Job.outcome (drawJob p fetch ⟨frame, fill⟩)

/-- The surface and what is left of the fill, where `perform` ends well. -/
def run (d : Dispatch) (frame : Frame) (fill : Fill) (fetch : Fetch) :
    Except Halt (Surface × Fill) :=
  Job.outcome (d.perform fetch ⟨frame, fill⟩)

/-- The checks of a pipeline one by one: a job that is refused is left as it was. -/
theorem drawJob_eq (p : Pipeline) (fetch : Fetch) (job : Job) :
    drawJob p fetch job =
      if job.fill.kind ≠ p.fill ∨ !Pipeline.accepts p.dst job.frame.surface.format then
        some (.error (.invalidSignature p.signature), job)
      else if ¬ job.frame.surface.Holds job.fill.bounds then some (.error .invalidBuffer, job)
      else
        match Cursor.ofFetch? p.fetch fetch job.frame.origin with
        | none => some (.error (.invalidSignature p.signature), job)
        | some cursor =>
          (job.fill.draw? ⟨p.op, job.frame.surface, cursor⟩).map fun (fill, stroke) =>
            (.ok (), { frame := { job.frame with surface := stroke.surface }, fill }) := by
  obtain ⟨frame, fill⟩ := job
  rw [drawJob, fillStatic, Job.get_bind]
  dsimp only
  by_cases hk : fill.kind ≠ p.fill ∨ !Pipeline.accepts p.dst frame.surface.format
  · rw [if_pos hk, if_pos hk]; rfl
  · rw [if_neg hk, if_neg hk]
    by_cases hb : ¬ frame.surface.Holds fill.bounds
    · rw [if_pos hb, if_pos hb]; rfl
    · rw [if_neg hb, if_neg hb]
      cases Cursor.ofFetch? p.fetch fetch frame.origin with
      | none => rfl
      | some cursor =>
        dsimp only
        cases fill.draw? ⟨p.op, frame.surface, cursor⟩ <;> rfl

theorem draw_eq (p : Pipeline) (frame : Frame) (fill : Fill) (fetch : Fetch) :
    draw p frame fill fetch =
      if fill.kind ≠ p.fill ∨ !Pipeline.accepts p.dst frame.surface.format then
        .error (.refused (.invalidSignature p.signature))
      else if ¬ frame.surface.Holds fill.bounds then .error (.refused .invalidBuffer)
      else
        match Cursor.ofFetch? p.fetch fetch frame.origin with
        | none => .error (.refused (.invalidSignature p.signature))
        | some cursor =>
          match fill.draw? ⟨p.op, frame.surface, cursor⟩ with
          | some (fill, stroke) => .ok (stroke.surface, fill)
          | none => .error .outOfRange := by
  rw [draw, drawJob_eq, apply_ite Job.outcome, apply_ite Job.outcome]
  split
  · rfl
  · split
    · rfl
    · cases Cursor.ofFetch? p.fetch fetch frame.origin with
      | none => rfl
      | some cursor =>
        dsimp only
        cases fill.draw? ⟨p.op, frame.surface, cursor⟩ <;> rfl

/-- A run that ends well has drawn its fill, on a surface that holds the bounds. -/
theorem draw_eq_ok {p : Pipeline} {frame : Frame} {fill left : Fill} {fetch : Fetch}
    {surface : Surface} (h : draw p frame fill fetch = .ok (surface, left)) :
    frame.surface.Holds fill.bounds ∧ Pipeline.accepts p.dst frame.surface.format ∧
      ∃ cursor t, Cursor.ofFetch? p.fetch fetch frame.origin = some cursor ∧
        fill.draw? ⟨p.op, frame.surface, cursor⟩ = some (left, t) ∧ t.surface = surface := by
  rw [draw_eq] at h
  split at h
  · cases h
  · rename_i haccepts
    split at h
    · cases h
    · rename_i hholds
      split at h
      · cases h
      · rename_i cursor hcursor
        split at h
        · rename_i left' t hdraw
          cases h
          exact ⟨Decidable.not_not.mp hholds, by simpa using (not_or.mp haccepts).2, cursor, t,
            hcursor, hdraw, rfl⟩
        · cases h

/-- A pipeline that stands ready has no hook. -/
theorem perform_static (p : Pipeline) (fetch : Fetch) :
    (static p).perform fetch = drawJob p fetch := rfl

theorem run_static (p : Pipeline) (frame : Frame) (fill : Fill) (fetch : Fetch) :
    (static p).run frame fill fetch = draw p frame fill fetch := rfl

/-- A dispatch that stands ready is the one of a pipeline whose format can be drawn to. -/
theorem ofSignature_eq_ok {s : Signature} {d : Dispatch}
    (h : ofSignature s = .ok d) :
    d = static d.pipeline ∧ d.pipeline.dst.isDrawable ∧
      Pipeline.ofSignature s = .ok d.pipeline := by
  unfold ofSignature at h
  cases hp : Pipeline.ofSignature s with
  | error e => rw [hp] at h; cases h
  | ok p =>
    rw [hp] at h
    change (if p.dst.isDrawable then _ else _) = _ at h
    split at h
    · rename_i hdst
      cases h
      exact ⟨rfl, hdst, rfl⟩
    · cases h

end Dispatch

end Scanline
