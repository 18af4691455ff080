import Scanline.Canvas.Basic
import Scanline.Canvas.Image
import Scanline.Canvas.Style
import Scanline.Error
import Scanline.Fetch.Basic
import Scanline.Fetch.Cursor
import Scanline.Fill.AlignedBox
import Scanline.Fill.Analytic
import Scanline.Fill.Basic
import Scanline.Fill.FractionalBox
import Scanline.Fill.Mask
import Scanline.Geometry.Affine
import Scanline.Geometry.Box
import Scanline.Gradient.Cursor
import Scanline.Gradient.Dither
import Scanline.Gradient.Fetch
import Scanline.Gradient.Table
import Scanline.Numeric.Extremes
import Scanline.Numeric.FloatValue
import Scanline.Numeric.Remainder
import Scanline.Numeric.Word
import Scanline.Operator.Basic
import Scanline.Operator.BlendMode
import Scanline.Operator.FloatMix
import Scanline.Operator.Formula
import Scanline.Operator.Simplify
import Scanline.Operator.Traits
import Scanline.Pattern.Cursor
import Scanline.Pattern.Extend
import Scanline.Pattern.Fetch
import Scanline.Pattern.Placement
import Scanline.Pattern.Sampling
import Scanline.Pattern.Source
import Scanline.Pattern.Walk
import Scanline.Pipeline.Basic
import Scanline.Pipeline.Cache
import Scanline.Pipeline.Provider
import Scanline.Pixel.Bytes
import Scanline.Pixel.Channels
import Scanline.Pixel.Format
import Scanline.Pixel.Premultiply
import Scanline.Proofs.Analytic.Cells
import Scanline.Proofs.Analytic.Consumption
import Scanline.Proofs.Analytic.Coverage
import Scanline.Proofs.Analytic.Extraction
import Scanline.Proofs.Analytic.Invariants
import Scanline.Proofs.Analytic.Marks
import Scanline.Proofs.Analytic.Rows
import Scanline.Proofs.Analytic.Safety
import Scanline.Proofs.Analytic.Scan
import Scanline.Proofs.Box.Clipping
import Scanline.Proofs.Box.Exactness
import Scanline.Proofs.Box.Layers
import Scanline.Proofs.Box.Visibility
import Scanline.Proofs.Box.Words
import Scanline.Proofs.Canvas.Arguments
import Scanline.Proofs.Canvas.Banding
import Scanline.Proofs.Canvas.CacheTransparency
import Scanline.Proofs.Canvas.Calls
import Scanline.Proofs.Canvas.Cropping
import Scanline.Proofs.Canvas.EmptyPattern
import Scanline.Proofs.Canvas.Premultiplied
import Scanline.Proofs.Canvas.Render
import Scanline.Proofs.Canvas.Safety
import Scanline.Proofs.Fetch.Bounds
import Scanline.Proofs.Fetch.Exact
import Scanline.Proofs.Fetch.Fractional
import Scanline.Proofs.Fetch.Kinds
import Scanline.Proofs.Fetch.Linear
import Scanline.Proofs.Fetch.Mapped
import Scanline.Proofs.Fetch.Path
import Scanline.Proofs.Fetch.PathIndependence
import Scanline.Proofs.Fetch.Placed
import Scanline.Proofs.Fetch.Reading
import Scanline.Proofs.Fetch.Steady
import Scanline.Proofs.Gradient.Indices
import Scanline.Proofs.Gradient.OneColor
import Scanline.Proofs.Mask.Execution
import Scanline.Proofs.Mask.Grammar
import Scanline.Proofs.Mask.Replacement
import Scanline.Proofs.Mask.Rows
import Scanline.Proofs.Numeric.DoubleUnits
import Scanline.Proofs.Numeric.Doubles
import Scanline.Proofs.Numeric.Singles
import Scanline.Proofs.Numeric.Words
import Scanline.Proofs.Operator.Channels
import Scanline.Proofs.Operator.FloatSimplify
import Scanline.Proofs.Operator.Mirrors
import Scanline.Proofs.Operator.OpaqueDestination
import Scanline.Proofs.Operator.PorterDuff
import Scanline.Proofs.Operator.Promises
import Scanline.Proofs.Operator.SimplifySound
import Scanline.Proofs.Operator.Sources
import Scanline.Proofs.Pattern.Axes
import Scanline.Proofs.Pattern.Cells
import Scanline.Proofs.Pattern.Coordinates
import Scanline.Proofs.Pattern.Offsets
import Scanline.Proofs.Pattern.Placements
import Scanline.Proofs.Pattern.Steps
import Scanline.Proofs.Pattern.Walks
import Scanline.Proofs.Pipeline.CacheOrder
import Scanline.Proofs.Pipeline.CleanFailure
import Scanline.Proofs.Pixel.Mixing
import Scanline.Proofs.Pixel.Raw
import Scanline.Proofs.Pixel.Rounding
import Scanline.Proofs.Pixel.Stored
import Scanline.Proofs.Render.AlphaChannel
import Scanline.Proofs.Render.Invariants
import Scanline.Proofs.Render.Layers
import Scanline.Proofs.Render.Movements
import Scanline.Proofs.Render.Padding
import Scanline.Proofs.Render.Painting
import Scanline.Proofs.Render.Strokes
import Scanline.Proofs.Render.Tiling
import Scanline.Proofs.Signature.Settings
import Scanline.Render.AnalyticFill
import Scanline.Render.BoxFill
import Scanline.Render.Fill
import Scanline.Render.MaskFill
import Scanline.Render.Stroke
import Scanline.Render.Surface
import Scanline.Signature.Basic
import Scanline.Signature.Kind
