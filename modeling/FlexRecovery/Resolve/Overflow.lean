import FlexRecovery.Journal
import FlexRecovery.Resolve.Sizes

/-!
What happens to content that does not fit: lists scroll, long texts are clamped to their lines, and a line
of text is cut off, if asked at the space that it has. Where that space is not symmetric in a column, the
text is put into a wrapper with its margin on both sides.
-/

namespace FlexRecovery.Resolve

/-- A child as its owner sees it before it is resolved, and the wrapper it is put into, if it is. -/
structure Slot where
  node : Node
  wrapper : Option Node := none

namespace Slot

/-- The tree of the child, in its wrapper. -/
def seat (s : Slot) (t : Tree) : Tree :=
  match s.wrapper with
  | none => { t with node := s.node }
  | some w => { node := w, flow := [{ t with node := s.node }] }

end Slot

def scrolling (o : Options) (n : Node) : Node :=
  if !o.scrollLists then n
  else if n.hasRole .listX then n.push "overflow-x-auto"
  else if n.hasRole .listY then n.push "overflow-y-auto"
  else n

/-- How many lines fit the box, rounded, and at least one. The quotient is that of singles. -/
def lineCount (height : Nat) (line : Int) : Int := max 1 (Single.nearest (Float32.ofNat height / Float32.ofInt line))

def clamped (o : Options) (n : Node) : Node :=
  match n.lineHeight with
  | some line =>
    if o.clampText && decide (0 < line) then n.push ("line-clamp-" ++ toString (lineCount n.box.height line)) else n
  | none => n

/-- Up to the next sibling in a row, and else up to the edge of the owner. -/
def space (owner : Box) (direction : Axis) (n : Node) (next : Option Node) : Int :=
  match direction, next with
  | .row, some s => s.box.left - n.box.left
  | _, _ => owner.right - n.box.left

/-- The wrapper leaves the margin on the far side that the text has on the near one. -/
def overflowBox (owner inner : Box) : Box :=
  .ofEdges inner.left inner.top (owner.right - (inner.left - owner.left)) inner.bottom

def overflowWrapper (owner : Node) (index : Nat) (box : Box) : Node :=
  { Node.generated index box .row with
    roles := ({} : Roles).insert .overflow
    width := if owner.width == some .constrained then some .constrained else some .fixed
    height := some .auto }

def maxWidth (v : Int) : String := "max-w-" ++ px v

/-- A line of text with more space than it takes is bounded by that space. -/
def bounded (owner : Node) (direction : Axis) (n : Node) (next : Option Node) : Journaled Slot :=
  let limit := space owner.box direction n next
  let margin := n.box.left - owner.box.left
  if limit ≤ n.box.width then pure { node := n }
  else if direction == .row || close margin (owner.box.right - n.box.right) then
    pure { node := n.push (maxWidth limit) }
  else if owner.box.right - margin ≤ n.box.right then
    pure { node := n.push (maxWidth (owner.box.right - n.box.left)) }
  else do
    let index ← Journal.nextIndex
    return { node := n.push "max-w-full", wrapper := some (overflowWrapper owner index (overflowBox owner.box n.box)) }

/-- A child whose sizes are settled, before the sibling `next`. -/
def slot (o : Options) (owner : Node) (direction : Axis) (n : Node) (next : Option Node) : Journaled Slot :=
  let n := scrolling o n
  if n.isText && n.multiLine then pure { node := clamped o n }
  else if !n.isText || n.width != some .auto then pure { node := n }
  else if !o.boundOverflow || owner.hasRole .overflow then pure { node := n.push "truncate" }
  else bounded owner direction (n.push "truncate") next

def slotsFrom (o : Options) (owner : Node) (direction : Axis) : List Node → Journaled (List Slot)
  | [] => pure []
  | n :: ns => do
    let s ← slot o owner direction n ns.head?
    let ss ← slotsFrom o owner direction ns
    return s :: ss

/-- The flow children of an owner; one without a direction leaves them as they are. -/
def slots (o : Options) (owner : Node) (children : List Node) : Journaled (List Slot) :=
  match owner.direction with
  | none => pure (children.map fun n => { node := n })
  | some direction => slotsFrom o owner direction (children.map (sized o owner direction))

/-- Settles the children of a tree without resolving them. -/
def prepare (o : Options) (t : Tree) : Journaled Tree := do
  let ss ← slots o t.node (t.flow.map (·.node))
  return { t with flow := (ss.zip t.flow).map fun (s, c) => s.seat c }

end FlexRecovery.Resolve
