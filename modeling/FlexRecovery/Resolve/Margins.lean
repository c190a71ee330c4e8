import FlexRecovery.Box.Relations
import FlexRecovery.Tree

/-! Distances of a box from the edges of its owner. -/

namespace FlexRecovery.Resolve

/-- Along one axis; negative where the box sticks out. -/
structure Margins where
  start : Int
  stop : Int
  deriving DecidableEq, Repr

namespace Margins

def between (inner outer : Box) (axis : Axis) : Margins :=
  ⟨inner.start axis - outer.start axis, outer.stop axis - inner.stop axis⟩

/-- Twice the signed distance of the centers. -/
def skew (m : Margins) : Int := m.start - m.stop

def isSymmetric (m : Margins) : Bool := close m.start m.stop

end Margins

/-- The value that most others are close to, the first on ties, and how many are. -/
def cluster (values : List Int) : Option (Int × Nat) :=
  values.foldl (fun best v =>
    let n := (values.filter (close v)).length
    match best with
    | some (w, m) => if n ≤ m then some (w, m) else some (v, n)
    | none => some (v, n)) none

def clusterSize (values : List Int) : Nat := (cluster values).elim 0 (·.2)

/-- Nothing holds the bottom edge of the page. -/
def isOpen (n : Node) (axis : Axis) : Bool := axis == .column && n.hasRole .page

/-- The letters of the leading edge of an axis. -/
def startLetter : Axis → String
  | .row => "l"
  | .column => "t"

def stopLetter : Axis → String
  | .row => "r"
  | .column => "b"

end FlexRecovery.Resolve
