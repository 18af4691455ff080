import Scanline.Pipeline.Basic

/-
  Where pipelines come from. The ready-made pipelines serve every destination that can be drawn
  to; a primary source, such as a generator, can be asked first.
-/

namespace Scanline

/-- How a source makes its pipelines. -/
inductive SourceKind where
  /-- From parts that stand ready. -/
  | static
  /-- When they are asked for. -/
  | generated
  deriving DecidableEq, Repr

def SourceKind.label : SourceKind → String
  | static => "Static"
  | generated => "Jit"

/-- A source of pipelines. -/
structure PipelineSource where
  kind : SourceKind
  get : Signature → Except RenderError Dispatch

/-- The ready-made pipelines. -/
def PipelineSource.readyMade : PipelineSource := ⟨.static, Dispatch.ofSignature⟩

/-- A primary source, if there is one, backed by the ready-made pipelines. -/
structure Provider where
  primary : Option PipelineSource := none
  /-- Whether the ready-made pipelines serve what the primary source cannot. -/
  fallback : Bool := true

namespace Provider

/-- The kind of the source that is asked first. -/
def kind (p : Provider) : SourceKind :=
  match p.primary with
  | some source => source.kind
  | none => .static

/-- The pipeline for a signature. Where the signature itself is at fault the primary source has
the last word. -/
def get (p : Provider) (s : Signature) : Except RenderError Dispatch :=
  match p.primary with
  | none => Dispatch.ofSignature s
  | some source =>
    match source.get s with
    | .ok d => .ok d
    | .error e =>
      if !e.blamesSignature && p.fallback then Dispatch.ofSignature s else .error e

end Provider

end Scanline
