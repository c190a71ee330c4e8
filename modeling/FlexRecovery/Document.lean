import FlexRecovery.DesignId
import FlexRecovery.Number.Single

/-!
Design documents: a canvas and a tree of layers with boxes in floating-point pixels, measured from the
top left, and with their paint and text.
-/

namespace FlexRecovery

/-- Channels from 0 to 255 and an alpha from 0 to 1. -/
structure Rgba where
  r : Float32
  g : Float32
  b : Float32
  a : Float32

structure ColorStop where
  color : Rgba
  position : Float32

structure LinearGradient where
  fromX : Float32
  fromY : Float32
  toX : Float32
  toY : Float32
  stops : List ColorStop

inductive Paint where
  | solid (color : Rgba)
  | gradient (gradient : LinearGradient)

namespace Paint

/-- The color itself, or the first stop of a gradient. -/
def firstSolid? : Paint → Option Rgba
  | solid c => some c
  | gradient g => g.stops.head?.map (·.color)

def isGradient : Paint → Bool
  | solid _ => false
  | gradient _ => true

end Paint

structure Border where
  paint : Paint
  width : Float32

structure Corners where
  topLeft : Float32
  topRight : Float32
  bottomRight : Float32
  bottomLeft : Float32

structure Stroke where
  borders : List Border := []
  radius : Option Corners := none

structure Shadow where
  paint : Paint
  offsetX : Float32
  offsetY : Float32
  blur : Float32
  spread : Float32
  inset : Bool

inductive TextAlign where
  | left
  | center
  | right
  | justify
  deriving DecidableEq, Repr

inductive Decoration where
  | underline
  | lineThrough
  deriving DecidableEq, Repr

structure Font where
  size : Float32
  family : Option String
  weight : Option Nat
  lineHeight : Option Float32
  letterSpacing : Option Float32

/-- A stretch of text in one style. -/
structure TextRun where
  value : String
  font : Font
  paint : Paint
  align : Option TextAlign
  decoration : Option Decoration

inductive LayerKind where
  | artboard
  | group
  | shape
  | mask
  | symbol
  | text
  | image
  | slice
  | unknown
  deriving DecidableEq, Repr

namespace LayerKind

def name : LayerKind → String
  | artboard => "artboard"
  | group => "group"
  | shape => "shape"
  | mask => "mask"
  | symbol => "symbol"
  | text => "text"
  | image => "image"
  | slice => "slice"
  | unknown => "unknown"

/-- The artboard has a second name, and a name that is not listed is an unknown kind. -/
def ofName : String → LayerKind
  | "artboard" | "page" => artboard
  | "group" => group
  | "shape" => shape
  | "mask" => mask
  | "symbol" => symbol
  | "text" => text
  | "image" => image
  | "slice" => slice
  | _ => unknown

end LayerKind

/-- A box in floating-point pixels. -/
structure RawBox where
  left : Float32
  top : Float32
  width : Float32
  height : Float32

/-- What a layer states about itself. -/
structure LayerTraits where
  id : DesignId
  kind : LayerKind
  realType : Option String
  opacity : Float32
  box : RawBox
  fill : List Paint
  stroke : Stroke
  shadows : List Shadow
  runs : Option (List TextRun)
  bitmap : Option String

structure Layer where
  traits : LayerTraits
  children : List Layer

structure Document where
  width : Float32
  height : Float32
  page : Layer

end FlexRecovery
