import FlexRecovery.Regroup.Siblings
import FlexRecovery.StableSort

/-! Lines: siblings that share a band across an axis, sorted along it. -/

namespace FlexRecovery.Regroup

/-- Siblings and the band that they cover across the axis. -/
structure Line where
  items : List Sibling
  crossStart : Int
  crossStop : Int

namespace Line

def single (cross : Axis) (s : Sibling) : Line := ⟨[s], s.box.start cross, s.box.stop cross⟩

/-- More than half of the smaller span is shared with the band so far. -/
def takes (l : Line) (cross : Axis) (s : Sibling) : Bool :=
  let shared := min (s.box.stop cross) l.crossStop - max (s.box.start cross) l.crossStart
  decide (min (s.box.extent cross : Int) (l.crossStop - l.crossStart) < shared * 2)

def add (l : Line) (cross : Axis) (s : Sibling) : Line :=
  { l with items := l.items ++ [s], crossStop := max l.crossStop (s.box.stop cross) }

/-- Each sibling joins the line before it or opens the next one. -/
def gather (cross : Axis) (l : Line) : List Sibling → List Line
  | [] => [l]
  | s :: rest => if l.takes cross s then gather cross (l.add cross s) rest else l :: gather cross (single cross s) rest

def sorted (axis : Axis) (l : Line) : Line := { l with items := sortByKey (fun s => s.box.start axis) l.items }

/-- By the leading edge across the axis, then by the one along it. -/
def before (axis : Axis) (a b : Sibling) : Bool :=
  decide (a.box.start axis.cross < b.box.start axis.cross ∨
    (a.box.start axis.cross = b.box.start axis.cross ∧ a.box.start axis ≤ b.box.start axis))

def collect (axis : Axis) (siblings : List Sibling) : List Line :=
  match stableSort (before axis) siblings with
  | [] => []
  | s :: rest => (gather axis.cross (single axis.cross s) rest).map (sorted axis)

end Line

/-- The items have one tag and equally many children. -/
def sameKind (a b : Sibling) : Bool :=
  a.node.tag == b.node.tag && a.tree.flow.length == b.tree.flow.length

def sameSize (a b : Box) : Bool := close a.width b.width && close a.height b.height

end FlexRecovery.Regroup
