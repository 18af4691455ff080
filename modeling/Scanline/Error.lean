import Scanline.Signature.Basic

/-
  Why drawing stops. A request can be refused with an error; a read or write outside of a buffer
  is not refused but ends the whole operation.
-/

namespace Scanline

/-- Why a pipeline cannot be made or run. -/
inductive RenderError where
  /-- No pipeline exists for the signature. -/
  | notImplemented (s : Signature)
  /-- The fetch of the signature is not ready. -/
  | pending (s : Signature)
  /-- The signature does not describe what is drawn. -/
  | invalidSignature (s : Signature)
  /-- Pipelines cannot be generated here. -/
  | generatorUnavailable
  /-- A format that cannot be drawn to. -/
  | unsupportedFormat (f : PixelFormat)
  /-- The fill reaches outside of the destination, or the destination outside of its bytes. -/
  | invalidBuffer
  /-- The buffers of an analytic fill are too small. -/
  | analyticBuffers
  deriving DecidableEq, Repr

namespace RenderError

def message : RenderError → String
  | notImplemented s => s!"No pipeline available for {s.display}"
  | pending s => s!"Signature {s.display} is pending"
  | invalidSignature s => s!"Invalid signature {s.display}"
  | generatorUnavailable => "Code generation is not available"
  | unsupportedFormat f => s!"Format {f.name} can't be used as a destination"
  | invalidBuffer => "Destination buffer doesn't match the fill"
  | analyticBuffers => "analytic buffers are too small for the fill bounds"

/-- Whether the signature itself is at fault, so that no other source of pipelines can help. -/
def blamesSignature : RenderError → Bool
  | pending _ | invalidSignature _ => true
  | _ => false

end RenderError

/-- Why an operation ends early. -/
inductive Halt where
  | refused (e : RenderError)
  /-- A read or write outside of a buffer. -/
  | outOfRange
  deriving DecidableEq, Repr

/-- The value of a step that may leave its buffers. -/
def orOutOfRange {α : Type} : Option α → Except Halt α
  | some a => .ok a
  | none => .error .outOfRange

theorem orOutOfRange_eq_ok {α : Type} {o : Option α} {a : α} :
    orOutOfRange o = .ok a ↔ o = some a := by
  cases o <;> simp [orOutOfRange]

/-- A result that can only be refused. -/
def orRefused {α : Type} : Except RenderError α → Except Halt α
  | .ok a => .ok a
  | .error e => .error (.refused e)

/-- Two steps go well if both do. -/
theorem except_bind_eq_ok {ε α β : Type} {r : Except ε α} {f : α → Except ε β} {b : β} :
    (r >>= f) = .ok b ↔ ∃ a, r = .ok a ∧ f a = .ok b := by
  cases r <;> simp [bind, Except.bind]

end Scanline
