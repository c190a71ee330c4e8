import FlexRecovery.Resolve.Margins
import FlexRecovery.Resolve.Sizes

/-! Attached nodes are placed on the box of their owner. -/

namespace FlexRecovery.Resolve

/-- Spanning the owner is stretched, leaves are fixed, and all else follows its content. -/
def pinnedSizing (owner : Box) (n : Node) (axis : Axis) : Sizing :=
  let m := Margins.between n.box owner axis
  if close m.start 0 && close m.stop 0 then .constrained
  else if n.direction.isNone then .fixed
  else .auto

/-- What is stated already stays. -/
def fillPinned (owner : Box) (n : Node) (axis : Axis) : Node :=
  if (n.sizing axis).isSome then n else n.setSizing axis (pinnedSizing owner n axis)

def pinPrepared (owner : Box) (n : Node) : Node := fillPinned owner (fillPinned owner n .row) .column

/-- What an attached node states on one axis. -/
inductive Pin where
  | start (v : Int)
  | stop (v : Int)
  /-- The center lies on the center of the owner. -/
  | center
  | extent (v : Nat)
  deriving DecidableEq, Repr

def pins (owner : Box) (n : Node) (axis : Axis) : List Pin :=
  let m := Margins.between n.box owner axis
  let nearer : Pin := if m.start ≤ m.stop then .start m.start else .stop m.stop
  match n.sizing axis with
  | some .constrained => [.start m.start, .stop m.stop]
  | some .fixed =>
    [if m.isSymmetric && m.start != 0 then .center else nearer, .extent (n.box.extent axis)]
  | _ => [nearer]

def startEdge : Axis → String
  | .row => "left"
  | .column => "top"

def stopEdge : Axis → String
  | .row => "right"
  | .column => "bottom"

def axisLetter : Axis → String
  | .row => "x"
  | .column => "y"

def offset (edge : String) (v : Int) : String := if v = 0 then edge ++ "-0" else edge ++ "-" ++ px v

def Pin.tokens (axis : Axis) : Pin → List String
  | start v => [offset (startEdge axis) v]
  | stop v => [offset (stopEdge axis) v]
  | center => [startEdge axis ++ "-1/2", "-translate-" ++ axisLetter axis ++ "-1/2"]
  | extent v => [sizeLetter axis ++ "-" ++ px v]

def positionTokens (owner : Box) (n : Node) : List String :=
  "absolute" :: ((pins owner n .row).flatMap (Pin.tokens .row) ++ (pins owner n .column).flatMap (Pin.tokens .column))

/-- With its position tokens, when its sizes are final. -/
def pinned (owner : Box) (n : Node) : Node := n.pushAll (positionTokens owner n)

/-- The owner of what is placed on it becomes its containing block; chrome is placed elsewhere. -/
def containing (n : Node) (attached : List Tree) : Node :=
  if attached.any fun a => !a.node.roles.isChrome then n.push "relative" else n

end FlexRecovery.Resolve
