import FlexRecovery.Regroup.Nesting
import FlexRecovery.StableSort

/-!
Siblings that only overlap: the smaller one, or the upper of two that are equally large, is attached to
what it sits on. A thin strip along an edge becomes a border.
-/

namespace FlexRecovery.Regroup

/-- Smallest first; of equal areas the upper layer moves. -/
def movesBefore (a b : Sibling) : Bool :=
  decide (a.box.area < b.box.area ∨ (a.box.area = b.box.area ∧ b.position ≤ a.position))

/-- Can be moved onto `m`: it is larger, or as large and painted earlier. -/
def liesBelow (m n : Sibling) : Bool :=
  decide (n.box.area < m.box.area ∨ (m.box.area = n.box.area ∧ m.position < n.position))

def canHost (n : Node) : Bool := !n.isText && !n.hasRole .divider && !n.hasRole .border

/-- A thin strip along one edge of the host. -/
def isEdgeStrip (strip host : Box) : Bool :=
  (decide (strip.height ≤ Tuning.borderThickness) &&
      (close strip.top host.top || close strip.bottom host.bottom)) ||
    (decide (strip.width ≤ Tuning.borderThickness) &&
      (close strip.left host.left || close strip.right host.right))

/-- The first of the smallest. -/
def smallest : List Sibling → Option Sibling
  | [] => none
  | s :: rest => some (rest.foldl (fun best m => if m.box.area < best.box.area then m else best) s)

/-- Where a sibling goes. -/
inductive Move where
  | stays
  /-- Onto the sibling at that position. -/
  | onto (position : Nat)
  /-- Onto a leaf, which takes nothing: it is attached to the owner. -/
  | offLeaf
  | asBorder (position : Nat)
  deriving DecidableEq

def moveOf (siblings : List Sibling) (n : Sibling) : Move :=
  let overlapping := siblings.filter fun m => m.position != n.position && n.box.overlaps m.box
  let intruded := overlapping.filter fun m => liesBelow m n && n.box.intrudesFully m.box
  match smallest (intruded.filter fun m => canHost m.node) with
  | some host => .onto host.position
  | none =>
    if !intruded.isEmpty then .offLeaf
    else
      match overlapping.find? fun m => canHost m.node && isEdgeStrip n.box m.box with
      | some host => .asBorder host.position
      | none => .stays

/-- The siblings that are left, and what was attached to their owner. -/
structure Attaching where
  siblings : List Sibling
  out : List Tree := []

/-- A sibling leaves and is attached to another, which may have to be prepared for it. -/
def attachTo (a : Attaching) (n : Sibling) (host : Nat) (prepare : Tree → Tree) (t : Tree) : Attaching :=
  { a with siblings := (a.siblings.filter (·.position != n.position)).map fun m =>
      if m.position = host then { m with tree := (prepare m.tree).addAttached [t] } else m }

def attachOne (a : Attaching) (position : Nat) : Journaled Attaching :=
  match a.siblings.find? (·.position == position) with
  | none => pure a
  | some n =>
    match moveOf a.siblings n with
    | .stays => pure a
    | .onto host => pure (attachTo a n host hosting n.tree)
    | .asBorder host => pure (attachTo a n host id (n.tree.mapNode (·.addRole .border)))
    | .offLeaf => do
      Journal.inform n.node.id "overlap-leaf" "overlaps a leaf, positioned absolutely"
      return { siblings := a.siblings.filter (·.position != n.position), out := a.out ++ [n.tree] }

def attachOverlapping (t : Tree) : Journaled Tree := do
  let siblings := Sibling.list t.flow
  let order := (stableSort movesBefore siblings).map (·.position)
  let done ← order.foldlM attachOne { siblings }
  return { t with flow := done.siblings.map (·.tree), attached := t.attached ++ done.out }

end FlexRecovery.Regroup
