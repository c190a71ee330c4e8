import FlexRecovery.Box.Relations
import FlexRecovery.Options
import FlexRecovery.Styling.Color
import FlexRecovery.Tree

/-!
How nodes get their sizes. An owner settles those of its children before they are resolved; a content-driven
axis on which every child is fixed turns out fixed afterwards; tokens follow when the alignment is known.
-/

namespace FlexRecovery.Resolve

/-- Bands and list items span their owner, list containers keep their own extent. -/
def isPlainWrapper (n : Node) : Bool := !n.roles.isList && !n.hasRole .spacer && !n.hasRole .overflow

/-- Text follows its content where it can flow, other leaves are fixed, and containers follow their content. -/
def defaultSizing (n : Node) (axis : Axis) : Sizing :=
  if n.isText then if axis == .row || n.multiLine then .auto else .fixed
  else if n.direction.isNone then .fixed
  else .auto

/-- What is stated already stays. -/
def fillSizing (n : Node) (axis : Axis) : Node :=
  if (n.sizing axis).isSome then n else n.setSizing axis (defaultSizing n axis)

def canStretch (n : Node) : Bool :=
  !n.isImage && !n.roles.isChrome && !n.hasRole .spacer && (!n.isText || n.multiLine)

/-- A generated wrapper across the owner's direction spans the owner. -/
def widened (owner : Box) (cross : Axis) (n : Node) : Node :=
  if n.isGenerated && n.direction == some cross && isPlainWrapper n then
    { n with box := n.box.withSpan cross (owner.start cross) (owner.stop cross) }.setSizing cross .constrained
  else n

/-- Wrapping content in an owner that is not stretched keeps its width. -/
def definite (owner n : Node) : Node :=
  if n.wraps && n.width == some .auto && owner.width != some .constrained then { n with width := some .fixed }
  else n

/-- A child in the middle of a stretched owner is stretched with it. -/
def stretched (owner : Node) (cross : Axis) (n : Node) : Node :=
  if owner.sizing cross == some .constrained && canStretch n &&
      close (n.box.start cross - owner.box.start cross) (owner.box.stop cross - n.box.stop cross) then
    n.setSizing cross .constrained
  else n

/-- A child under an owner with that direction. Fixed list items keep the box of the design. -/
def sized (o : Options) (owner : Node) (direction : Axis) (n : Node) : Node :=
  if o.fixedListItems && n.hasRole .listItem then { n with width := some .fixed, height := some .fixed }
  else
    stretched owner direction.cross
      (definite owner (fillSizing (fillSizing (widened owner.box direction.cross n) .row) .column))

/-- An axis that follows fixed children is fixed. -/
def settleAxis (flow : List Tree) (n : Node) (axis : Axis) : Node :=
  if n.sizing axis == some .auto && flow.all fun c => c.node.sizing axis == some .fixed then
    n.setSizing axis .fixed
  else n

/-- The page keeps the height of its content. -/
def settleAuto (n : Node) (flow : List Tree) : Node :=
  if n.hasRole .page || flow.isEmpty then n else settleAxis flow (settleAxis flow n .row) .column

def sizeLetter : Axis → String
  | .row => "w"
  | .column => "h"

def extentToken (n : Node) (axis : Axis) : String := sizeLetter axis ++ "-" ++ px (n.box.extent axis)

/-- The tokens of a child on one axis. -/
def sizeTokens (direction : Axis) (isStretching : Bool) (n : Node) (axis : Axis) : List String :=
  match n.sizing axis with
  | some .fixed => extentToken n axis :: if axis = direction then ["shrink-0"] else []
  | some .constrained => if axis = direction then ["flex-1"] else if isStretching then [] else ["self-stretch"]
  | _ => []

/-- Size tokens for the flow children. -/
def withSizes (owner : Node) (flow : List Tree) : List Tree :=
  match owner.direction with
  | none => flow
  | some direction =>
    let tokens := sizeTokens direction (owner.align == some .stretch)
    flow.map fun t => t.mapNode fun n => n.pushAll (tokens n .row ++ tokens n .column)

end FlexRecovery.Resolve
