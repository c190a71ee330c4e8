import FlexRecovery.Styling.Gradient

/-! Fill, stroke, corners and shadows of a layer as class tokens and inline style. -/

namespace FlexRecovery

/-- A plain color where gradients cannot go. -/
def Paint.degraded (p : Paint) (node : Option DesignId) (rule what : String) : Journaled (Option Rgba) := do
  if p.isGradient then
    Journal.warn node rule ("gradient " ++ what ++ " unsupported, using first stop")
  return p.firstSolid?

/-- Only the first of several fills is kept. -/
def fillClasses (fill : List Paint) (opacity : Float32) (node : Option DesignId) : Journaled (List String) :=
  match fill with
  | [] => pure []
  | first :: rest => do
    if !rest.isEmpty then
      Journal.warn node "multi-fill" (toString fill.length ++ " fills, only the first is kept")
    match first with
    | .solid c => pure ["bg-" ++ c.token opacity]
    | .gradient g => g.classes opacity node

/-- Equal corners share one token; corners below half a pixel have none. -/
def Corners.classes (c : Corners) : List String :=
  let all := [("tl", c.topLeft), ("tr", c.topRight), ("br", c.bottomRight), ("bl", c.bottomLeft)]
  if all.all fun (_, r) => (r - c.topLeft).abs < 0.5 then
    if 0.5 ≤ c.topLeft then ["rounded-" ++ pxText c.topLeft] else []
  else
    all.filterMap fun (corner, r) =>
      if 0.5 ≤ r then some ("rounded-" ++ corner ++ "-" ++ pxText r) else none

/-- Only the first of several borders is kept. -/
def Border.classes (borders : List Border) (opacity : Float32) (node : Option DesignId) :
    Journaled (List String) :=
  match borders with
  | [] => pure []
  | first :: rest => do
    if !rest.isEmpty then
      Journal.warn node "multi-border" (toString borders.length ++ " borders, only the first is kept")
    if 0 < first.width then
      match ← first.paint.degraded node "gradient-border" "border" with
      | some c => return ["border-" ++ pxText first.width, "border-" ++ c.token opacity]
      | none => return []
    else return []

def Stroke.classes (s : Stroke) (opacity : Float32) (node : Option DesignId) : Journaled (List String) := do
  let border ← Border.classes s.borders opacity node
  return border ++ s.radius.elim [] Corners.classes

def Shadow.text? (s : Shadow) (opacity : Float32) : Option String :=
  s.paint.firstSolid?.map fun c =>
    (if s.inset then "inset " else "") ++ Single.text s.offsetX ++ "px " ++ Single.text s.offsetY ++ "px "
      ++ Single.text s.blur ++ "px " ++ Single.text s.spread ++ "px " ++ c.css opacity

/-- The value of a box shadow, unless no shadow has a color. -/
def Shadow.style (shadows : List Shadow) (opacity : Float32) : Option String :=
  match shadows.filterMap (·.text? opacity) with
  | [] => none
  | parts => some (", ".intercalate parts)

end FlexRecovery
