import FlexRecovery.Regroup.Lines

/-! Runs: repetitions of a group of items in a line, with repeating gaps. -/

namespace FlexRecovery.Regroup

/-- `groups` repetitions of `period` items from `start` on. -/
structure Run where
  start : Nat
  period : Nat
  groups : Nat
  deriving DecidableEq, Repr

namespace Run

def length (r : Run) : Nat := r.period * r.groups

def items (r : Run) (l : List α) : List α := (l.drop r.start).take r.length

def group (r : Run) (l : List α) (k : Nat) : List α := (l.drop (r.start + k * r.period)).take r.period

/-- Two items can repeat one another. Single items may differ in length along the axis. -/
def matching (axis : Axis) (period : Nat) (a b : Sibling) : Bool :=
  sameKind a b && close (a.box.extent axis.cross) (b.box.extent axis.cross) &&
    (period == 1 || close (a.box.extent axis) (b.box.extent axis))

/-- Group `next` repeats the first group, item by item. -/
def repeatsShapes (axis : Axis) (items : List Sibling) (start period next : Nat) : Bool :=
  (List.range period).all fun j =>
    match items[start + j]?, items[start + next * period + j]? with
    | some a, some b => matching axis period a b
    | _, _ => false

/-- The gap is no overlap, and it repeats the one a period earlier if that lies in the run. -/
def gapFits (gaps : List Int) (start period i : Nat) : Bool :=
  match gaps[i]? with
  | none => false
  | some g =>
    decide (-Tuning.tolerance ≤ g) &&
      (decide (i < start + period) || (gaps[i - period]?).any fun h => close g h)

/-- Gap `i` lies between items `i` and `i + 1`; a group brings the gaps before and within it. -/
def repeatsGaps (gaps : List Int) (start period next : Nat) : Bool :=
  (List.range period).all fun j => gapFits gaps start period (start + next * period - 1 + j)

/-- Group `next` lies in the line and continues the run. -/
def continues (axis : Axis) (items : List Sibling) (gaps : List Int) (start period next : Nat) : Bool :=
  decide (start + (next + 1) * period ≤ items.length) &&
    repeatsShapes axis items start period next && repeatsGaps gaps start period next

/-- As many groups as continue the run from `start` on. -/
def longest (axis : Axis) (items : List Sibling) (gaps : List Int) (period start : Nat) : Run :=
  ⟨start, period, 1 + ((List.range' 1 items.length).takeWhile (continues axis items gaps start period)).length⟩

/-- The shorter period first, then the earlier start. -/
def candidates (axis : Axis) (items : List Sibling) : List Run :=
  let gaps := Box.gaps axis (items.map Sibling.box)
  (List.range' 1 Tuning.longestPeriod).flatMap fun period =>
    (List.range items.length).map fun start => longest axis items gaps period start

/-- Only a longer run replaces the best one so far. -/
def better (best : Option Run) (r : Run) : Option Run :=
  if r.groups < 2 then best
  else
    match best with
    | none => some r
    | some b => if b.length < r.length then some r else some b

/-- The longest run of a line. -/
def find (axis : Axis) (items : List Sibling) : Option Run := (candidates axis items).foldl better none

end Run

end FlexRecovery.Regroup
