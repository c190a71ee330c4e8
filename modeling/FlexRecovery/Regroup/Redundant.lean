import FlexRecovery.Regroup.Siblings

/-!
Redundant wrappers: a child that has its owner's box folds into the owner. Its style and roles move over,
and its members take its place.
-/

namespace FlexRecovery

/-- Tokens of one kind of paint; those of the upper layer replace the lower's. -/
def paintPrefixes : List String := ["bg-", "from-", "via-", "to-"]

namespace Node

def paints (n : Node) : Bool := n.classes.toList.any fun t => paintPrefixes.any (beginsWith · t)

/-- Without its background. -/
def bare (n : Node) : Node :=
  { n with classes := paintPrefixes.foldl Classes.erasePrefix n.classes, style := n.style.erase "background-image" }

/-- The style and roles of the node that lies on top move over; what the lower one states already stays. -/
def absorb (lower upper : Node) : Node :=
  let n := if upper.paints then lower.bare else lower
  { n with
    classes := n.classes.pushAll upper.classes.toList
    style := n.style.merge upper.style
    roles := n.roles.insertAll (upper.roles.toList.filter (· != .divider))
    id := n.id <|> upper.id
    direction := n.direction <|> upper.direction
    width := n.width <|> upper.width
    height := n.height <|> upper.height }

theorem box_absorb (lower upper : Node) : (lower.absorb upper).box = lower.box := by
  unfold absorb; split <;> rfl

end Node

namespace Regroup

/-- Content is never folded, and neither are lists. -/
def isRedundant (outer : Box) (t : Tree) : Bool :=
  !t.node.isContent && !t.node.roles.isList && t.box.same outer

/-- Folds the first redundant child until there is none, and counts. -/
def foldRedundant (t : Tree) (count : Nat) : Tree × Nat :=
  match h : splitFirst (isRedundant t.box) t.flow with
  | none => (t, count)
  | some (before, c, after) =>
    foldRedundant ⟨t.node.absorb c.node, before ++ c.flow ++ after, t.attached ++ c.attached⟩ (count + 1)
termination_by Tree.sizeAll t.flow
decreasing_by
  obtain ⟨he, -⟩ := eq_of_splitFirst h
  rw [he]
  simp only [Tree.sizeAll_append, Tree.sizeAll, Tree.size_eq c]
  omega

def mergeRedundant (t : Tree) : Journaled (Tree × Nat) := do
  let (t, count) := foldRedundant t 0
  if 0 < count then
    Journal.inform t.node.id "merge" (toString count ++ " redundant wrappers folded")
  return (t, count)

end Regroup

end FlexRecovery
