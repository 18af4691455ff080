import Scanline.Operator.Basic

/-
  Blend modes as drawing interfaces name them, a mixing formula with a way of composing, and the
  operators that stand for them.
-/

namespace Scanline

/-- How the colors of two layers mix. -/
inductive Mix where
  | normal
  | multiply
  | screen
  | overlay
  | darken
  | lighten
  | colorDodge
  | colorBurn
  | hardLight
  | softLight
  | difference
  | exclusion
  | hue
  | saturation
  | color
  | luminosity
  | clip
  deriving DecidableEq, Repr

/-- Which parts of two layers are kept. -/
inductive Compose where
  | clear
  | copy
  | dest
  | srcOver
  | destOver
  | srcIn
  | destIn
  | srcOut
  | destOut
  | srcAtop
  | destAtop
  | xor
  | plus
  | plusLighter
  deriving DecidableEq, Repr

namespace Mix

def all : List Mix :=
  [normal, multiply, screen, overlay, darken, lighten, colorDodge, colorBurn, hardLight, softLight,
    difference, exclusion, hue, saturation, color, luminosity, clip]

def label : Mix → String
  | normal => "Normal"
  | multiply => "Multiply"
  | screen => "Screen"
  | overlay => "Overlay"
  | darken => "Darken"
  | lighten => "Lighten"
  | colorDodge => "ColorDodge"
  | colorBurn => "ColorBurn"
  | hardLight => "HardLight"
  | softLight => "SoftLight"
  | difference => "Difference"
  | exclusion => "Exclusion"
  | hue => "Hue"
  | saturation => "Saturation"
  | color => "Color"
  | luminosity => "Luminosity"
  | clip => "Clip"

end Mix

namespace Compose

def all : List Compose :=
  [clear, copy, dest, srcOver, destOver, srcIn, destIn, srcOut, destOut, srcAtop, destAtop, xor,
    plus, plusLighter]

def label : Compose → String
  | clear => "Clear"
  | copy => "Copy"
  | dest => "Dest"
  | srcOver => "SrcOver"
  | destOver => "DestOver"
  | srcIn => "SrcIn"
  | destIn => "DestIn"
  | srcOut => "SrcOut"
  | destOut => "DestOut"
  | srcAtop => "SrcAtop"
  | destAtop => "DestAtop"
  | xor => "Xor"
  | plus => "Plus"
  | plusLighter => "PlusLighter"

end Compose

namespace Operator

def ofCompose : Compose → Operator
  | .clear => clear
  | .copy => srcCopy
  | .dest => dstCopy
  | .srcOver => srcOver
  | .destOver => dstOver
  | .srcIn => srcIn
  | .destIn => dstIn
  | .srcOut => srcOut
  | .destOut => dstOut
  | .srcAtop => srcAtop
  | .destAtop => dstAtop
  | .xor => xor
  | .plus | .plusLighter => plus

/-- The operator of a blend mode. A separable mix keeps its name and ignores the way of
composing; the mixes that work on a whole color have no operator. -/
def ofBlendMode? (mix : Mix) (compose : Compose) : Option Operator :=
  match mix with
  | .normal | .clip => some (ofCompose compose)
  | .multiply => some multiply
  | .screen => some screen
  | .overlay => some overlay
  | .darken => some darken
  | .lighten => some lighten
  | .colorDodge => some colorDodge
  | .colorBurn => some colorBurn
  | .hardLight => some hardLight
  | .softLight => some softLight
  | .difference => some difference
  | .exclusion => some exclusion
  | .hue | .saturation | .color | .luminosity => none

end Operator

end Scanline
