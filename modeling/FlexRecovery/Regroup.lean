import FlexRecovery.Regroup.Bands
import FlexRecovery.Regroup.EqualBoxes
import FlexRecovery.Regroup.Overlap
import FlexRecovery.Regroup.Tables

/-!
Regrouping a draft into flex containers. The flow children of a node are normalized before those of its
members, so that generated containers are normalized too.
-/

namespace FlexRecovery.Regroup

/-- Rebuilds nesting and takes strays out of the flow. -/
def rebuildNesting (t : Tree) : Journaled Tree := collapseEqual t >>= nestContained >>= attachOverlapping

/-- Lists and table rows are laid out already. -/
def isPreset (n : Node) : Bool := n.roles.isList || n.hasRole .tableRow

/-- One node with its flow children. -/
def level (t : Tree) : Journaled Tree :=
  if isPreset t.node then pure t
  else do
    let (t, _) ← mergeRedundant t
    rebuildNesting t >>= makeLists >>= makeFlex

/-- A node and all below it, as deep as the budget goes. -/
def within : (budget : Nat) → Tree → Journaled Tree
  | 0, t => pure t
  | budget + 1, t =>
    if t.node.isContent then pure t
    else do
      let t ← level t
      let flow ← t.flow.mapM (within budget)
      let attached ← t.attached.mapM (within budget)
      return ⟨t.node, flow, attached⟩

/-- Three levels for each node suffice: a container that is made on the way and regrouped in its turn
holds fewer of the nodes that were there, and at most two list containers lie above it. -/
def depth (t : Tree) : Nat := 3 * t.size + 3

def tree (t : Tree) : Journaled Tree := within (depth t) t

end FlexRecovery.Regroup
