import FlexRecovery.Document
import FlexRecovery.Document.Fields

/-! Documents and their parts out of JSON values. A `depth` counts the arrays and objects around a value. -/

namespace FlexRecovery

open Json

def Rgba.read? (depth : Nat) (j : Json) : Option Rgba := do
  let [r, g, b, a] ← record? ["r", "g", "b", "a"] depth j | none
  return { r := ← r >>= single?, g := ← g >>= single?, b := ← b >>= single?, a := ← field 1 single? a }

def ColorStop.read? (depth : Nat) (j : Json) : Option ColorStop := do
  let [color, position] ← record? ["color", "position"] depth j | none
  return { color := ← color >>= Rgba.read? (depth + 1), position := ← position >>= single? }

def LinearGradient.read? (depth : Nat) (j : Json) : Option LinearGradient := do
  let [x, y, u, v, stops] ← record? ["fromX", "fromY", "toX", "toY", "colorStops"] depth j | none
  return {
    fromX := ← x >>= single?
    fromY := ← y >>= single?
    toX := ← u >>= single?
    toY := ← v >>= single?
    stops := ← stops >>= items? ColorStop.read? (depth + 1) }

/-- The value of a paint whose kind is known. -/
def Paint.ofKind? (kind : String) (depth : Nat) (value : Json) : Option Paint :=
  match kind with
  | "normal" => (Rgba.read? depth value).map solid
  | "linearGradient" => (LinearGradient.read? depth value).map gradient
  | _ => none

/-- A kind and a value, as an object or as a pair. The first of a pair is text, and only an object may
give its kind as an object of one name. A value that stands before its kind is read as a whole first,
so that nothing in it is passed over. -/
def Paint.read? (depth : Nat) (j : Json) : Option Paint := do
  let [kind, value] ← record? ["type", "value"] depth j | none
  let kind ← match j with
    | array _ => kind >>= toText?
    | _ => kind >>= name? (depth + 1)
  let value ← value
  let valueFirst := match j with
    | object members => (members.map (·.1)).find? (fun k => k == some "type" || k == some "value") == some (some "value")
    | _ => false
  if valueFirst && !value.readable (depth + 1) then none
  else Paint.ofKind? kind (depth + 1) value

def Border.read? (depth : Nat) (j : Json) : Option Border := do
  let [paint, width] ← record? ["color", "width"] depth j | none
  return { paint := ← paint >>= Paint.read? (depth + 1), width := ← field 1 single? width }

/-- The top left corner first, then clockwise. -/
def Corners.read? (depth : Nat) (j : Json) : Option Corners := do
  let [a, b, c, d] ← items? (fun _ => single?) depth j | none
  return ⟨a, b, c, d⟩

def Stroke.read? (depth : Nat) (j : Json) : Option Stroke := do
  let [borders, radius] ← record? ["borders", "radius"] depth j | none
  return {
    borders := ← field [] (items? Border.read? (depth + 1)) borders
    radius := ← optional (Corners.read? (depth + 1)) radius }

def Shadow.read? (depth : Nat) (j : Json) : Option Shadow := do
  let [paint, x, y, blur, spread, inset] ←
    record? ["color", "offsetX", "offsetY", "blur", "spread", "inset"] depth j | none
  return {
    paint := ← paint >>= Paint.read? (depth + 1)
    offsetX := ← field 0 single? x
    offsetY := ← field 0 single? y
    blur := ← field 0 single? blur
    spread := ← field 0 single? spread
    inset := ← field false toBool? inset }

def readFill? (depth : Nat) (j : Json) : Option (List Paint) := do
  let [colors] ← record? ["colors"] depth j | none
  field [] (items? Paint.read? (depth + 1)) colors

def readShadows? (depth : Nat) (j : Json) : Option (List Shadow) := do
  let [shadows] ← record? ["shadows"] depth j | none
  field [] (items? Shadow.read? (depth + 1)) shadows

def TextAlign.read? (depth : Nat) (j : Json) : Option TextAlign :=
  match name? depth j with
  | some "left" => some left
  | some "center" => some center
  | some "right" => some right
  | some "justify" => some justify
  | _ => none

def Decoration.read? (depth : Nat) (j : Json) : Option Decoration :=
  match name? depth j with
  | some "underline" => some underline
  | some "line-through" => some lineThrough
  | _ => none

/-- Font weights have 16 bits. -/
def readWeight? (j : Json) : Option Nat := do
  let w ← j.toInt?
  if 0 ≤ w ∧ w < 65536 then some w.toNat else none

def Font.read? (depth : Nat) (j : Json) : Option Font := do
  let [size, family, weight, lineHeight, letterSpacing] ←
    record? ["size", "family", "weight", "lineHeight", "letterSpacing"] depth j | none
  return {
    size := ← size >>= single?
    family := ← optional toText? family
    weight := ← optional readWeight? weight
    lineHeight := ← optional single? lineHeight
    letterSpacing := ← optional single? letterSpacing }

def TextRun.read? (depth : Nat) (j : Json) : Option TextRun := do
  let [value, font, paint, align, decoration] ←
    record? ["value", "font", "color", "align", "decoration"] depth j | none
  return {
    value := ← value >>= toText?
    font := ← font >>= Font.read? (depth + 1)
    paint := ← paint >>= Paint.read? (depth + 1)
    align := ← optional (TextAlign.read? (depth + 1)) align
    decoration := ← optional (Decoration.read? (depth + 1)) decoration }

def readRuns? (depth : Nat) (j : Json) : Option (List TextRun) := do
  let [styles] ← record? ["styles"] depth j | none
  field [] (items? TextRun.read? (depth + 1)) styles

def readBitmap? (depth : Nat) (j : Json) : Option String := do
  let [url] ← record? ["bitmapURL"] depth j | none
  url >>= toText?

def RawBox.read? (depth : Nat) (j : Json) : Option RawBox := do
  let [left, top, width, height] ← record? ["left", "top", "width", "height"] depth j | none
  return {
    left := ← left >>= single?
    top := ← top >>= single?
    width := ← width >>= single?
    height := ← height >>= single? }

/-- The basic section of a layer: its name, kind, shape and opacity. -/
def readBasic? (depth : Nat) (j : Json) : Option (DesignId × LayerKind × Option String × Float32) := do
  let [id, kind, realType, opacity] ← record? ["id", "type", "realType", "opacity"] depth j | none
  return (⟨← id >>= toText?⟩, LayerKind.ofName (← kind >>= name? (depth + 1)), ← optional toText? realType,
    ← field 1 single? opacity)

/-- A layer lies two levels deeper than the one around it, so the budget never runs out before the depth. -/
def Layer.read? (budget depth : Nat) (j : Json) : Option Layer :=
  match budget with
  | 0 => none
  | budget + 1 => do
    let [basic, box, fill, stroke, effect, styled, slice, children] ←
      record? ["basic", "bounds", "fill", "stroke", "effect", "text", "slice", "children"] depth j | none
    let (id, kind, realType, opacity) ← basic >>= readBasic? (depth + 1)
    let traits : LayerTraits := {
      id, kind, realType, opacity
      box := ← box >>= RawBox.read? (depth + 1)
      fill := ← field [] (readFill? (depth + 1)) fill
      stroke := ← field {} (Stroke.read? (depth + 1)) stroke
      shadows := ← field [] (readShadows? (depth + 1)) effect
      runs := ← optional (readRuns? (depth + 1)) styled
      bitmap := ← optional (readBitmap? (depth + 1)) slice }
    return { traits, children := ← field [] (items? (Layer.read? budget) (depth + 1)) children }

def Document.read? (j : Json) : Option Document := do
  let [size, layers] ← record? ["size", "layers"] 0 j | none
  let [width, height] ← size >>= record? ["width", "height"] 1 | none
  return {
    width := ← width >>= single?
    height := ← height >>= single?
    page := ← layers >>= Layer.read? deepest 1 }

end FlexRecovery
