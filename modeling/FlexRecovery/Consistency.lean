import FlexRecovery.Box.Relations
import FlexRecovery.Failure
import FlexRecovery.Tree

/-!
Rules that hold between the steps of a recovery. A tree that breaks one stops the recovery at the first
node that does, instead of giving a layout that is half resolved.
-/

namespace FlexRecovery.Consistency

/-- Exactly the nodes with flow children have a direction. -/
def directionFault? (t : Tree) : Option Failure :=
  match t.isLeaf, t.node.direction with
  | false, none => some (.inconsistent t.node.label "container without a direction")
  | true, some d => some (.inconsistent t.node.label ("leaf with direction " ++ d.name))
  | _, _ => none

/-- Neither box strictly contains the other. -/
def isNested (a b : Box) : Bool := a.strictlyContains b || b.strictlyContains a

/-- The smaller box, or the first of two that are equally large, intrudes into the other on both axes. -/
def isIntruding (a b : Box) : Bool := if a.area ≤ b.area then a.intrudesFully b else b.intrudesFully a

def pairFault? (a b : Tree) : Option Failure :=
  if isNested a.box b.box then
    some (.inconsistent a.node.label ("sibling " ++ b.node.label ++ " is nested by geometry"))
  else if isIntruding a.box b.box then
    some (.inconsistent a.node.label ("overlaps sibling " ++ b.node.label ++ " past the attach threshold"))
  else none

/-- The first faulty pair of siblings. -/
def siblingFault? : List Tree → Option Failure
  | [] => none
  | a :: rest => (rest.findSome? (pairFault? a)) <|> siblingFault? rest

def structureFault? (t : Tree) : Option Failure :=
  t.subtrees.findSome? fun s => directionFault? s <|> siblingFault? s.flow

/-- Every node has a size on both axes. -/
def sizingFault? (t : Tree) : Option Failure :=
  t.subtrees.findSome? fun s =>
    if s.node.width.isNone then some (.inconsistent s.node.label "width spec left unresolved")
    else if s.node.height.isNone then some (.inconsistent s.node.label "height spec left unresolved")
    else none

end FlexRecovery.Consistency
