import FlexRecovery.Box.Relations
import FlexRecovery.Journal
import FlexRecovery.Tree

/-! The flow children of one owner, told apart by their positions. -/

namespace FlexRecovery.Regroup

/-- The first element that passes, with what stands before and after it. -/
def splitFirst (p : α → Bool) : List α → Option (List α × α × List α)
  | [] => none
  | a :: as =>
    if p a then some ([], a, as)
    else (splitFirst p as).map fun (before, x, after) => (a :: before, x, after)

theorem eq_of_splitFirst {p : α → Bool} {as before after : List α} {x : α}
    (h : splitFirst p as = some (before, x, after)) : as = before ++ x :: after ∧ p x = true := by
  induction as generalizing before with
  | nil => simp [splitFirst] at h
  | cons a as ih =>
    unfold splitFirst at h
    split at h
    · next ha =>
      obtain ⟨rfl, rfl, rfl⟩ := by simpa using h
      exact ⟨rfl, ha⟩
    · obtain ⟨⟨b, y, c⟩, hs, he⟩ := Option.map_eq_some_iff.1 h
      obtain ⟨rfl, rfl, rfl⟩ := by simpa using he
      obtain ⟨rfl, hp⟩ := ih hs
      exact ⟨rfl, hp⟩

/-- A flow child and where it stands in its owner's list. -/
structure Sibling where
  position : Nat
  tree : Tree

namespace Sibling

def box (s : Sibling) : Box := s.tree.box

def node (s : Sibling) : Node := s.tree.node

def list (ts : List Tree) : List Sibling := ts.zipIdx.map fun (t, i) => ⟨i, t⟩

def hull (ss : List Sibling) : Box := Box.hull (ss.map box)

/-- One tree in place of several siblings, where the first of them stood. -/
def replace (taken : List Nat) (made : Tree) : List Sibling → List Sibling
  | [] => []
  | s :: rest =>
    if taken.contains s.position then ⟨s.position, made⟩ :: rest.filter fun r => !taken.contains r.position
    else s :: replace taken made rest

/-- A sibling that is not taken shares area with the box. -/
def overlapsOther (siblings : List Sibling) (taken : List Nat) (b : Box) : Bool :=
  siblings.any fun s => !taken.contains s.position && b.overlaps s.box

end Sibling

/-- A new container around some trees. -/
def wrapped (box : Box) (direction : Axis) (roles : List Role) (members : List Tree) : Journaled Tree := do
  let index ← Journal.nextIndex
  let n := Node.generated index box direction
  return { node := { n with roles := n.roles.insertAll roles }, flow := members }

end FlexRecovery.Regroup
