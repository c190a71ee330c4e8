/-! The two axes of a page. -/

namespace FlexRecovery

/-- A row runs from left to right, a column from top to bottom. -/
inductive Axis where
  | row
  | column
  deriving DecidableEq, Repr, Inhabited

namespace Axis

def cross : Axis → Axis
  | row => column
  | column => row

def name : Axis → String
  | row => "row"
  | column => "column"

@[simp] theorem cross_cross (a : Axis) : a.cross.cross = a := by cases a <;> rfl

/-- Both axes, the horizontal one first. -/
def all : List Axis := [row, column]

end Axis

end FlexRecovery
