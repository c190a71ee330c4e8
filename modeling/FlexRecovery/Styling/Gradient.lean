import FlexRecovery.Journal
import FlexRecovery.Styling.Color

/-!
Linear gradients as class tokens. Their angle snaps to the eight compass directions and at most three
stops are kept; what is lost is reported.
-/

namespace FlexRecovery.LinearGradient

def compass : List String := ["t", "tr", "r", "br", "b", "bl", "l", "tl"]

/-- In degrees from the top, clockwise. The screen's vertical axis points down, so it is flipped first.
A gradient without direction runs to the bottom. -/
def angle (g : LinearGradient) : Float32 :=
  let dx := g.toX - g.fromX
  let dy := g.fromY - g.toY
  if dx == 0 && dy == 0 then 180
  else
    let a := 90 - dy.atan2 dx * 57.29578
    if a < 0 then a + 360 else a

structure Snapped where
  direction : String
  exact : Bool

/-- The nearest compass direction, and whether the angle was on it. -/
def snap (angle : Float32) : Snapped :=
  let steps := Single.rounded (angle / 45)
  { direction := compass.getD (Single.nearest steps % 8).toNat "t"
    exact := (angle - steps * 45).abs < 1e-3 }

/-- The tokens of one stop: its color, and its position where it is not the usual one. -/
def stopTokens (place : String) (usual opacity : Float32) (s : ColorStop) : List String :=
  [place ++ "-" ++ s.color.token opacity] ++
    if 1e-3 < (s.position - usual).abs then [place ++ "-" ++ Single.text (s.position * 100) ++ "%"] else []

/-- The first stop, the second where there are more than two, and the last. -/
def picked (opacity : Float32) : List ColorStop → List String
  | first :: second :: rest =>
    stopTokens "from" 0 opacity first ++
      match rest.getLast? with
      | none => stopTokens "to" 1 opacity second
      | some last => stopTokens "via" 0.5 opacity second ++ stopTokens "to" 1 opacity last
  | _ => []

def classes (g : LinearGradient) (opacity : Float32) (node : Option DesignId) : Journaled (List String) :=
  match g.stops with
  | [] => pure []
  | [s] => pure ["bg-" ++ s.color.token opacity]
  | stops => do
    let snapped := snap g.angle
    if !snapped.exact then
      Journal.warn node "gradient-angle"
        ("gradient angle " ++ Single.text g.angle ++ "deg snapped to \x60to-" ++ snapped.direction ++ "\x60")
    if 3 < stops.length then
      Journal.warn node "gradient-stops" (toString stops.length ++ " gradient stops reduced to 3")
    return ("bg-gradient-to-" ++ snapped.direction) :: picked opacity stops

end FlexRecovery.LinearGradient
