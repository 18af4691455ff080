import Scanline.Canvas.Style
import Scanline.Pipeline.Cache
import Scanline.Pipeline.Provider

/-
  Canvases: an image with the settings to draw on it. A fill is simplified, its pipeline is looked
  up in a small cache or asked for, and box fills taller than a band are drawn band by band.
-/

namespace Scanline

/-- An image with the settings to draw on it. -/
structure Canvas where
  image : Image
  provider : Provider
  /-- The rows of a band. -/
  bandHeight : Nat := 64
  op : Operator := .srcOver
  /-- The coverage of every fill. -/
  alpha : Nat := 255
  style : Style := .solid 0xFF000000
  /-- Where the image lies in the render target. -/
  origin : Int × Int := (0, 0)
  cache : PipelineCache 16 := .empty
  /-- How often the provider has been asked. -/
  asked : Nat := 0

namespace Canvas

/-- How a fill ended. -/
abbrev Result := Except Halt Unit

/-- The pipeline of a signature, from the cache or else from the provider. -/
def lookup (c : Canvas) (s : Signature) : Canvas × Except RenderError Dispatch :=
  match c.cache.get? s with
  | some d => (c, .ok d)
  | none =>
    let c := { c with asked := c.asked + 1 }
    match c.provider.get s with
    | .ok d => ({ c with cache := c.cache.insert d }, .ok d)
    | .error e => (c, .error e)

/-- Whether a fill is drawn in bands of `n` rows. -/
def isBanded (fill : Fill) (n : Nat) : Bool :=
  match fill with
  | .alignedBox _ | .fractionalBox _ => n < fill.bounds.height
  | .mask _ | .analytic _ => false

/-- Draws the part of a fill that lies in one band. Gives what has been made of the band, also where
a pipeline refuses. -/
def performBand (d : Dispatch) (origin : Int × Int) (fill : Fill) (fetch : Fetch) (band : Surface) :
    Surface × Result :=
  match fill.clipRows? band.top band.bottom with
  | none => (band, .ok ())
  | some part =>
    match d.perform fetch ⟨⟨band, origin⟩, part⟩ with
    | none => (band, .error .outOfRange)
    | some (result, job) => (job.frame.surface, orRefused result)

/-- Draws a fill in bands, one after the other up to the first that is refused. -/
def performBands (d : Dispatch) (origin : Int × Int) (fill : Fill) (fetch : Fetch) :
    List Surface → List Surface × Result
  | [] => ([], .ok ())
  | band :: rest =>
    match performBand d origin fill fetch band with
    | (band, .error e) => (band :: rest, .error e)
    | (band, .ok ()) =>
      let (rest, result) := performBands d origin fill fetch rest
      (band :: rest, result)

/-- What `performBand` makes of a band, where it ends well. -/
def drawBand (d : Dispatch) (origin : Int × Int) (fill : Fill) (fetch : Fetch) (band : Surface) :
    Except Halt Surface :=
  let (band, result) := performBand d origin fill fetch band
  result.map fun _ => band

/-- The surface that `performBands` makes of a surface, where it ends well. -/
def drawBands (d : Dispatch) (frame : Frame) (fill : Fill) (fetch : Fetch) (n : Nat) :
    Except Halt Surface :=
  let (bands, result) := performBands d frame.origin fill fetch (frame.surface.bands n)
  result.map fun _ => frame.surface.withBands n bands

/-- Runs a pipeline over an image. Gives the image and what is left of the fill, and how the run
ended. Rows are numbered in 32-bit words, which bands need up to the last row. -/
def paint (d : Dispatch) (image : Image) (origin : Int × Int) (fill : Fill) (fetch : Fetch)
    (bandHeight : Nat) : Image × Fill × Result :=
  match image.toSurface with
  | .error e => (image, fill, .error e)
  | .ok surface =>
    if isBanded fill bandHeight then
      if maxInt32 < image.height then (image, fill, .error .outOfRange)
      else
        let (bands, result) := performBands d origin fill fetch (surface.bands bandHeight)
        (image.withSurface (surface.withBands bandHeight bands), fill, result)
    else
      match d.perform fetch ⟨⟨surface, origin⟩, fill⟩ with
      | none => (image, fill, .error .outOfRange)
      | some (result, job) => (image.withSurface job.frame.surface, job.fill, orRefused result)

/-- Draws a fill with a prepared fetch by an operator. Nothing is drawn with a pending fetch or by
an operator that changes nothing. Gives what is left of the fill, and how drawing ended. -/
def render (c : Canvas) (op : Operator) (source : Prepared Fetch) (fill : Fill) :
    Canvas × Fill × Result :=
  match source.kind with
  | none => (c, fill, .ok ())
  | some kind =>
    let x := op.simplify c.image.format source.fetch.format
    if x.solid = .skip then (c, fill, .ok ())
    else
      let (fetch, kind) :=
        match x.solid.color? with
        | some pixel => (Fetch.solid pixel, FetchKind.solid)
        | none => (source.fetch, kind)
      let s := ((Signature.ofSimplified x).withFill fill.kind).withFetch kind
      let (c, dispatch) := c.lookup s
      match dispatch with
      | .error e => (c, fill, .error (.refused e))
      | .ok d =>
        let (image, fill, result) := paint d c.image c.origin fill fetch c.bandHeight
        ({ c with image }, fill, result)

/-- Draws a fill with the style and the operator of the canvas. -/
def renderStyle (c : Canvas) (fill : Fill) : Canvas × Fill × Result :=
  match c.style.prepare? with
  | none => (c, fill, .error .outOfRange)
  | some source => c.render c.op source fill

/-- Draws a fill, if there is one, with the style and the operator of the canvas. -/
def renderSome (c : Canvas) (fill : Option Fill) : Canvas × Result :=
  match fill with
  | none => (c, .ok ())
  | some fill =>
    let (c, _, result) := c.renderStyle fill
    (c, result)

/-- A box of whole pixels, cut to the image. -/
def boxFill? (c : Canvas) (bounds : Box) : Option Fill :=
  (AlignedBox.ofBounds? c.alpha (bounds.clampTo c.image.width c.image.height)).map .alignedBox

/-- A rectangle, cut to the image. -/
def rectFill? (c : Canvas) (r : Rect) : Option Fill :=
  let r := r.ordered
  let r : Rect :=
    ⟨largerDouble r.x0 0, largerDouble r.y0 0, smallerDouble r.x1 (Float.ofNat c.image.width),
      smallerDouble r.y1 (Float.ofNat c.image.height)⟩
  (FractionalBox.ofRect? c.alpha r).map .fractionalBox

/-- Rows of mask commands, cut to the image. -/
def maskFill? (c : Canvas) (bounds : Box) (commands : List MaskCommand) : Option Fill :=
  (MaskFill.ofCommands? c.alpha (bounds.clampTo c.image.width c.image.height) commands).map .mask

def fillBox (c : Canvas) (bounds : Box) : Canvas × Result := c.renderSome (c.boxFill? bounds)

def fillRect (c : Canvas) (r : Rect) : Canvas × Result := c.renderSome (c.rectFill? r)

def fillMask (c : Canvas) (bounds : Box) (commands : List MaskCommand) : Canvas × Result :=
  c.renderSome (c.maskFill? bounds commands)

/-- The rows of an analytic fill that lie in `bounds`, with the buffers from there on. -/
def dropRows (f : AnalyticFill) (bounds : Box) (alpha : Nat) : AnalyticFill :=
  let skipped := (bounds.y0 - f.bounds.y0).toNat
  { f with
    bounds, alpha
    bits := f.bits.extract (skipped * f.bitStride) f.bits.size
    cells := f.cells.extract (skipped * f.cellStride) f.cells.size }

/-- Whether the buffers of an analytic fill reach to the first row of `bounds`. -/
def reaches (f : AnalyticFill) (bounds : Box) : Bool :=
  let skipped := (bounds.y0 - f.bounds.y0).toNat
  skipped * f.bitStride ≤ f.bits.size && skipped * f.cellStride ≤ f.cells.size

/-- Fills rows of coverage changes, cut to the image, and gives the fill back with nothing left in
its buffers. -/
def fillAnalytic (c : Canvas) (f : AnalyticFill) : Canvas × AnalyticFill × Result :=
  let alpha := mul255 f.alpha c.alpha
  let bounds := f.bounds.clampTo c.image.width c.image.height
  if alpha = 0 ∨ bounds.isEmpty then (c, f.emptied, .ok ())
  else if !reaches f bounds then (c, f.emptied, .error (.refused .analyticBuffers))
  else
    let (c, left, result) := c.renderStyle (.analytic (dropRows f bounds alpha))
    match left, result with
    | .analytic left, .ok () =>
      if bounds = f.bounds then (c, { f with bits := left.bits, cells := left.cells }, result)
      else (c, f.emptied, result)
    | _, _ => (c, f.emptied, result)

/-- A box over the image, as far as 32-bit words count its sides. -/
def clearFill? (c : Canvas) : Option Fill :=
  (AlignedBox.ofBounds? 255 ⟨0, 0, wrap32 c.image.width, wrap32 c.image.height⟩).map .alignedBox

/-- Makes every pixel transparent, whatever the settings are. -/
def clear (c : Canvas) : Canvas × Result :=
  match c.clearFill? with
  | none => (c, .ok ())
  | some fill =>
    let (c, _, result) := c.render .clear ⟨.solid 0, some .solid⟩ fill
    (c, result)

end Canvas

end Scanline
