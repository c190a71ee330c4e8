import FlexRecovery.Regroup.Siblings

/-!
Siblings that lie inside a sibling move into the smallest one that contains them. Text and dividers take
nobody in: what lies in them is attached to the owner instead.
-/

namespace FlexRecovery.Regroup

/-- A sibling and the position of the sibling that contains it. -/
structure Guest where
  position : Nat
  tree : Tree
  host : Option Nat

/-- All hosts are chosen before anything moves. -/
def guests (siblings : List Tree) : List Guest :=
  siblings.zipIdx.map fun (t, i) => ⟨i, t, t.box.bestContainer (siblings.map Tree.box)⟩

def takesNobody (n : Node) : Bool := n.isText || n.hasRole .divider

def hostOf (all : List Guest) (g : Guest) : Option Guest := g.host >>= fun h => all.find? (·.position == h)

/-- A guest whose host takes nobody in. -/
def isTurnedAway (all : List Guest) (g : Guest) : Bool :=
  (hostOf all g).any fun h => takesNobody h.tree.node

/-- An image that takes others in becomes a view. -/
def hosting (t : Tree) : Tree := if t.node.isImage then t.mapNode Node.promoted else t

/-- A guest with its own guests, and theirs. No chain of hosts is longer than the list of siblings. -/
def settled (all : List Guest) : Nat → Guest → Tree
  | 0, g => g.tree
  | budget + 1, g =>
    let own := all.filter fun m => m.host == some g.position
    if own.isEmpty || takesNobody g.tree.node then g.tree
    else (hosting g.tree).addFlow (own.map (settled all budget))

def nestContained (t : Tree) : Journaled Tree := do
  let all := guests t.flow
  let turnedAway := all.filter (isTurnedAway all)
  turnedAway.forM fun g =>
    Journal.inform g.tree.node.id "inside-leaf"
      ("inside leaf " ++ ((hostOf all g).elim "" fun h => h.tree.node.label) ++ ", positioned absolutely")
  return { t with
    flow := (all.filter (·.host.isNone)).map (settled all all.length)
    attached := t.attached ++ turnedAway.map (settled all all.length) }

end FlexRecovery.Regroup
