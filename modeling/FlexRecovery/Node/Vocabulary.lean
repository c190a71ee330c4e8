/-! The words a layout is described with. -/

namespace FlexRecovery

/-- How a node gets its size on one axis. -/
inductive Sizing where
  /-- It is stated in pixels. -/
  | fixed
  /-- It follows from the content. -/
  | auto
  /-- The owner stretches it. -/
  | constrained
  deriving DecidableEq, Repr

def Sizing.name : Sizing → String
  | fixed => "fixed"
  | auto => "auto"
  | constrained => "constrained"

/-- How children stand across the direction of their owner. -/
inductive Align where
  | start
  | center
  | stop
  | stretch
  deriving DecidableEq, Repr

namespace Align

def name : Align → String
  | start => "start"
  | center => "center"
  | stop => "end"
  | stretch => "stretch"

def token : Align → String
  | start => "items-start"
  | center => "items-center"
  | stop => "items-end"
  | stretch => "items-stretch"

end Align

/-- What kind of element a node becomes. -/
inductive Tag where
  | view
  | text
  | span
  | image
  deriving DecidableEq, Repr

def Tag.name : Tag → String
  | view => "div"
  | text => "p"
  | span => "span"
  | image => "img"

/-- What a node is for. -/
inductive Role where
  | page
  | header
  | safeArea
  | divider
  | border
  | listX
  | listY
  | listWrap
  | listItem
  | button
  | tableRow
  | tableBody
  | spacer
  | overflow
  deriving DecidableEq, Repr

namespace Role

def name : Role → String
  | page => "page"
  | header => "header"
  | safeArea => "safe-area"
  | divider => "divider"
  | border => "border"
  | listX => "list-x"
  | listY => "list-y"
  | listWrap => "list-wrap"
  | listItem => "list-item"
  | button => "btn"
  | tableRow => "table-row"
  | tableBody => "table-body"
  | spacer => "spacer"
  | overflow => "overflow"

def all : List Role :=
  [page, header, safeArea, divider, border, listX, listY, listWrap, listItem, button, tableRow, tableBody,
    spacer, overflow]

/-- Containers whose members repeat. -/
def isList : Role → Bool
  | listX | listY | listWrap | tableBody => true
  | _ => false

/-- Bars that are fixed to the viewport. -/
def isChrome : Role → Bool
  | header | safeArea => true
  | _ => false

end Role

end FlexRecovery
