import FlexRecovery.Box
import FlexRecovery.Tuning
import FlexRecovery.Number.Significant

/-!
How boxes lie to one another. Edges carry sub-pixel noise, so each relation allows
`Tuning.tolerance` pixels of slack.
-/

namespace FlexRecovery

open Tuning

/-- Equal up to the tolerance. -/
def close (a b : Int) : Bool := decide (a - b ≤ tolerance ∧ b - a ≤ tolerance)

theorem close_iff {a b : Int} : close a b = true ↔ a - b ≤ 1 ∧ b - a ≤ 1 := by
  unfold close; exact decide_eq_true_iff

namespace Box

/-- The span of `inner` along the axis lies within that of `outer`. -/
def within (inner outer : Box) (axis : Axis) : Bool :=
  decide (outer.start axis - tolerance ≤ inner.start axis ∧ inner.stop axis ≤ outer.stop axis + tolerance)

def contains (outer inner : Box) : Bool := within inner outer .row && within inner outer .column

/-- The same box, edge by edge. -/
def same (a b : Box) : Bool :=
  close a.left b.left && close a.top b.top && close a.right b.right && close a.bottom b.bottom

/-- Contains it, is another box, and is larger. -/
def strictlyContains (outer inner : Box) : Bool :=
  contains outer inner && !same outer inner && decide (inner.area < outer.area)

/-- The length of the shared span along the axis, negative when the boxes are apart. -/
def overlap (a b : Box) (axis : Axis) : Int :=
  min (a.stop axis) (b.stop axis) - max (a.start axis) (b.start axis)

def overlapping (a b : Box) (axis : Axis) : Bool := decide (tolerance < overlap a b axis)

/-- The boxes share area on both axes. -/
def overlaps (a b : Box) : Bool := overlapping a b .row && overlapping a b .column

def meetArea (a b : Box) : Nat := (meet a b).elim 0 area

/-- More than half of the span of `small` lies in `large`; lengths are compared as singles. -/
def intrudes (small large : Box) (axis : Axis) : Bool :=
  decide (0 < small.extent axis) &&
    decide (Number.toSingle (small.extent axis) < 2 * Number.toSingle (overlap small large axis))

/-- On both axes. -/
def intrudesFully (small large : Box) : Bool := intrudes small large .row && intrudes small large .column

/-- The position of the smallest box that strictly contains the target, the earliest on ties. -/
def bestContainer (target : Box) (candidates : List Box) : Option Nat :=
  let better (best : Option (Nat × Nat)) (c : Box × Nat) : Option (Nat × Nat) :=
    if strictlyContains c.1 target then
      match best with
      | some (i, area) => if area ≤ c.1.area then some (i, area) else some (c.2, c.1.area)
      | none => some (c.2, c.1.area)
    else best
  (candidates.zipIdx.foldl better none).map (·.1)

end Box

end FlexRecovery
