import FlexRecovery.Document
import FlexRecovery.Number.Hundredths

/-! Color tokens. Hue, saturation and lightness are whole; alpha carries the opacity of the node. -/

namespace FlexRecovery

/-- A pixel length between brackets. -/
def px (v : Int) : String := "[" ++ toString v ++ "px]"

/-- A fractional pixel length between brackets. -/
def pxText (v : Float32) : String := "[" ++ Single.text v ++ "px]"

namespace Rgba

structure Hsl where
  hue : Int
  saturation : Int
  lightness : Int
  deriving DecidableEq, Repr

/-- Hue in degrees, saturation and lightness in percent. -/
def hsl (c : Rgba) : Hsl :=
  let r := Single.unit (c.r / 255)
  let g := Single.unit (c.g / 255)
  let b := Single.unit (c.b / 255)
  let high := Single.larger (Single.larger r g) b
  let low := Single.smaller (Single.smaller r g) b
  let d := high - low
  let l := (high + low) / 2
  let flat := d.abs < 1.1920929e-7
  let s := if flat then 0 else if 0.5 < l then d / (2 - high - low) else d / (high + low)
  let h :=
    if flat then 0
    else if high == r then (g - b) / d + (if g < b then 6 else 0)
    else if high == g then (b - r) / d + 2
    else (r - g) / d + 4
  { hue := Single.nearest (h * 60) % 360
    saturation := Single.nearest (s * 100)
    lightness := Single.nearest (l * 100) }

/-- The alpha under an opacity, in hundredths. -/
def bakedAlpha (c : Rgba) (opacity : Float32) : Float32 := Single.rounded (Single.unit (c.a * opacity) * 100) / 100

/-- As a color function for inline styles. -/
def css (c : Rgba) (opacity : Float32) : String :=
  let v := c.hsl
  "hsla(" ++ toString v.hue ++ "," ++ toString v.saturation ++ "%," ++ toString v.lightness ++ "%,"
    ++ Single.text (c.bakedAlpha opacity) ++ ")"

/-- As the value of a class token. -/
def token (c : Rgba) (opacity : Float32) : String :=
  if c.bakedAlpha opacity ≤ 0 then "transparent" else "[" ++ c.css opacity ++ "]"

end Rgba

end FlexRecovery
