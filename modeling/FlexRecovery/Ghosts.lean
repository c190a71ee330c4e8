import FlexRecovery.Options
import FlexRecovery.Tree

/-!
Ghosts are groups that paint nothing and only order a design file. Each is replaced by its members; what
is attached to it moves up to the next owner that stays.
-/

namespace FlexRecovery.Ghosts

/-- Asked of flow children only: the page, chrome and attached nodes stay. -/
def isGhost (o : Options) (t : Tree) : Bool :=
  t.node.tag == .view && t.node.roles.isEmpty && !t.node.isPainted && !t.isLeaf &&
    t.node.id.any fun id => !o.keeps id

/-- What takes the place of some flow children: the flow, what moves up, and how many were unwrapped. -/
structure Unwrapped where
  flow : List Tree := []
  raised : List Tree := []
  count : Nat := 0

mutual

def unwrap (o : Options) : Tree → Unwrapped
  | ⟨n, flow, attached⟩ =>
    let inner := unwrapAll o flow
    let outer := unwrapAttached o attached
    let attached' := outer.flow ++ inner.raised
    if isGhost o ⟨n, flow, attached⟩ then ⟨inner.flow, attached', inner.count + outer.count + 1⟩
    else ⟨[⟨n, inner.flow, attached'⟩], [], inner.count + outer.count⟩

/-- The last ghost is unwrapped first, so what it raises comes first. -/
def unwrapAll (o : Options) : List Tree → Unwrapped
  | [] => {}
  | t :: ts =>
    let a := unwrap o t
    let b := unwrapAll o ts
    ⟨a.flow ++ b.flow, b.raised ++ a.raised, a.count + b.count⟩

def unwrapAttached (o : Options) : List Tree → Unwrapped
  | [] => {}
  | ⟨n, flow, attached⟩ :: ts =>
    let inner := unwrapAll o flow
    let outer := unwrapAttached o attached
    let b := unwrapAttached o ts
    ⟨⟨n, inner.flow, outer.flow ++ inner.raised⟩ :: b.flow, [], inner.count + outer.count + b.count⟩

end

/-- The tree without its ghosts, and how many there were. -/
def remove (o : Options) (t : Tree) : Tree × Nat :=
  let inner := unwrapAll o t.flow
  let outer := unwrapAttached o t.attached
  (⟨t.node, inner.flow, outer.flow ++ inner.raised⟩, inner.count + outer.count)

end FlexRecovery.Ghosts
