import Scanline.Pattern.Sampling

/-
  Pattern fetches: a source with the way it is sampled, made ready from a placement or a map.
  There is none where a coordinate leaves the 32-bit words.
-/

namespace Scanline

/-- How pattern coordinates follow from destination coordinates. -/
inductive PatternMode where
  | placed (p : Placement)
  | mapped (s : Sampling)
  deriving DecidableEq, Repr

/-- A pattern with the way it is sampled. -/
structure PatternFetch where
  source : PatternSource
  mode : PatternMode

/-- A fetch that has been made ready. Without a kind it is pending: nothing can be drawn. -/
structure Prepared (α : Type) where
  fetch : α
  kind : Option FetchKind

/-- The signature of the fetch alone. -/
def Prepared.signature {α : Type} (p : Prepared α) : Signature :=
  match p.kind with
  | some k => .ofFetch k
  | none => (Signature.mk 0).withPending

namespace PatternFetch

/-- A pattern that nothing can be taken from. -/
def pending (source : PatternSource) : Prepared PatternFetch := ⟨⟨source, .placed {}⟩, none⟩

/-- A placed pattern with its kind. -/
def placed (source : PatternSource) (p : Placement × FetchKind) : Prepared PatternFetch :=
  ⟨⟨source, .placed p.1⟩, some p.2⟩

/-- A pattern copied to `x`, `y`. -/
def blit (source : PatternSource) (x y : Int) : Prepared PatternFetch :=
  placed source ({ tx := x, ty := y }, .alignedBlit)

/-- A pattern placed at `x`, `y`. -/
def atPixel? (source : PatternSource) (extend : ExtendMode) (x y : Int) :
    Option (Prepared PatternFetch) :=
  (Placement.atPixel? source extend x y).map (placed source)

/-- A pattern placed at `x64 / 256`, `y64 / 256`. -/
def atFraction? (source : PatternSource) (extend : ExtendMode) (quality : PatternQuality)
    (x64 y64 : Int) : Option (Prepared PatternFetch) :=
  (Placement.atFraction? source extend quality x64 y64).map (placed source)

/-- Whether two numbers are the same for the purpose of placing a pattern. -/
def isNear (x y : Float) : Bool := (x - y).abs ≤ 1e-14

/-- Whether a map only moves. -/
def onlyMoves (t : Affine) : Bool :=
  isNear t.a 1 && isNear t.b 0 && isNear t.c 0 && isNear t.d 1

/-- A pattern under a map to the destination. A map that only moves places the pattern. -/
def mapped? (source : PatternSource) (extend : ExtendMode) (quality : PatternQuality)
    (transform : Affine) : Option (Prepared PatternFetch) :=
  match transform.inverse? with
  | none => some (pending source)
  | some inv =>
    if source.width = 0 then some (pending source)
    else if onlyMoves inv then
      atFraction? source extend quality (floorToInt64 (-inv.e * 256)) (floorToInt64 (-inv.f * 256))
    else
      (Sampling.ofInverse? source extend quality inv).map fun s =>
        ⟨⟨source, .mapped s⟩, some (Sampling.kind source quality)⟩

end PatternFetch

end Scanline
