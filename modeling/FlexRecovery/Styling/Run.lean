import FlexRecovery.Styling.Surface

/-! Text runs as class tokens. -/

namespace FlexRecovery

def TextAlign.token : TextAlign → String
  | left => "text-left"
  | center => "text-center"
  | right => "text-right"
  | justify => "text-justify"

def Decoration.token : Decoration → String
  | underline => "underline"
  | lineThrough => "line-through"

namespace TextRun

/-- The height of a line in whole pixels; a run that states none has a multiple of its font size. -/
def lineHeight (r : TextRun) (ratio : Float32) : Int :=
  Single.nearest (r.font.lineHeight.getD (r.font.size * ratio))

/-- Regular weight and vanishing letter spacing have no token. -/
def fontClasses (f : Font) : List String :=
  ["text-" ++ pxText f.size] ++
    (f.lineHeight.elim [] fun h => ["leading-" ++ pxText h]) ++
    (f.weight.elim [] fun w => if w = 400 then [] else ["font-[" ++ toString w ++ "]"]) ++
    f.letterSpacing.elim [] fun s => if 0.01 ≤ s.abs then ["tracking-" ++ pxText s] else []

def classes (r : TextRun) (opacity : Float32) (node : Option DesignId) : Journaled (List String) := do
  let color ← r.paint.degraded node "gradient-text" "text color"
  return fontClasses r.font ++ (color.elim [] fun c => ["text-" ++ c.token opacity]) ++
    r.decoration.elim [] fun d => [d.token]

end TextRun

end FlexRecovery
