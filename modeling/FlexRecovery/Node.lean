import FlexRecovery.Box
import FlexRecovery.DesignId
import FlexRecovery.Node.Classes
import FlexRecovery.Node.Style
import FlexRecovery.Node.Vocabulary

/-! Layout nodes: everything a node is apart from its members. -/

namespace FlexRecovery

abbrev Roles := Distinct Role

namespace Roles

def isList (rs : Roles) : Bool := rs.toList.any Role.isList

/-- Placed in the draft and never moved after it. -/
def isChrome (rs : Roles) : Bool := rs.contains .header || rs.contains .safeArea

end Roles

/-- A text is one string, or one inline span for each style run. -/
inductive Content (ν : Type) where
  | literal (text : String)
  | spans (spans : List ν)

structure Node where
  /-- The layer it stands for; a generated container stands for none. -/
  id : Option DesignId := none
  /-- Nodes are numbered in the order of their creation. -/
  index : Nat := 0
  tag : Tag := .view
  box : Box
  width : Option Sizing := none
  height : Option Sizing := none
  /-- The axis the flow children are laid along. -/
  direction : Option Axis := none
  align : Option Align := none
  classes : Classes := {}
  style : Style := {}
  roles : Roles := {}
  text : Option (Content Node) := none
  multiLine : Bool := false
  /-- The largest line height of its runs. -/
  lineHeight : Option Int := none
  /-- The picture an image shows. -/
  source : Option String := none

namespace Node

instance : Inhabited Node := ⟨{ box := .zero }⟩

/-- A container that stands for no layer. -/
def generated (index : Nat) (box : Box) (direction : Axis) : Node := { index, box, direction := some direction }

def isGenerated (n : Node) : Bool := n.id.isNone

def isText (n : Node) : Bool := n.tag == .text

def isImage (n : Node) : Bool := n.tag == .image

/-- Carries content and cannot own flow children. -/
def isContent (n : Node) : Bool := n.tag != .view

/-- Paints a background, a border or a shadow. -/
def isPainted (n : Node) : Bool :=
  n.classes.toList.any (fun t => beginsWith "bg-" t || beginsWith "border" t || beginsWith "from-" t)
    || n.style.has "box-shadow" || n.style.has "background-image"

def isBareText (n : Node) : Bool := n.isText && !n.isPainted

/-- Content that wraps needs a definite width. -/
def wraps (n : Node) : Bool := (n.isText && n.multiLine) || n.roles.contains .listWrap

def sizing (n : Node) : Axis → Option Sizing
  | .row => n.width
  | .column => n.height

def setSizing (n : Node) (axis : Axis) (s : Sizing) : Node :=
  match axis with
  | .row => { n with width := some s }
  | .column => { n with height := some s }

def push (n : Node) (token : String) : Node := { n with classes := n.classes.push token }

def pushAll (n : Node) (tokens : List String) : Node := { n with classes := n.classes.pushAll tokens }

def addRole (n : Node) (r : Role) : Node := { n with roles := n.roles.insert r }

def hasRole (n : Node) (r : Role) : Bool := n.roles.contains r

/-- How findings name it. -/
def label (n : Node) : String :=
  match n.id with
  | some id => id.tagged
  | none => "<generated " ++ toString n.index ++ ">"

/-- An image that becomes the background of a view. -/
def promoted (n : Node) : Node :=
  match n.source with
  | none => { n with tag := .view }
  | some source =>
    { n with
      tag := .view
      source := none
      style := n.style.set "background-image" ("url(" ++ source ++ ")")
      classes := n.classes.pushAll ["bg-cover", "bg-no-repeat"] }

mutual

/-- The characters of a text, over all of its spans. -/
def plain : Node → Option String
  | ⟨_, _, _, _, _, _, _, _, _, _, _, none, _, _, _⟩ => none
  | ⟨_, _, _, _, _, _, _, _, _, _, _, some (.literal s), _, _, _⟩ => some s
  | ⟨_, _, _, _, _, _, _, _, _, _, _, some (.spans ns), _, _, _⟩ => some (plainAll ns)

def plainAll : List Node → String
  | [] => ""
  | n :: ns => (plain n).getD "" ++ plainAll ns

end

end Node

end FlexRecovery
