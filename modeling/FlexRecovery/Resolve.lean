import FlexRecovery.Resolve.MainAxis
import FlexRecovery.Resolve.Overflow
import FlexRecovery.Resolve.Pinning

/-!
Sizes, alignment, placement and positions over a regrouped tree, in one walk: a node settles the sizes of
its children, the children are resolved, and then the node itself is finished from what they became.
-/

namespace FlexRecovery.Resolve

def directionToken : Axis → String
  | .row => "flex-row"
  | .column => "flex-col"

/-- A painted box around exactly one centered line of text. -/
def isButton (n : Node) (flow : List Tree) : Bool :=
  match flow with
  | [only] =>
    !n.isGenerated && n.isPainted && only.node.isText && !only.node.multiLine &&
      (Margins.between only.box n.box .row).isSymmetric && (Margins.between only.box n.box .column).isSymmetric
  | _ => false

/-- A node whose flow children are resolved. A wrapping list has its own gaps. -/
def finish (n : Node) (flow : List Tree) : Journaled (Node × List Tree) := do
  let n := settleAuto n flow
  match n.direction with
  | none => return (n, flow)
  | some direction => do
    let n := n.pushAll ["flex", directionToken direction]
    let (n, flow) ←
      if n.hasRole .listWrap then pure (n, flow)
      else do
        let (n, flow) := alignChildren n flow
        justifyChildren n flow
    let flow := withSizes n flow
    return (if isButton n flow then n.addRole .button else n, flow)

mutual

/-- A tree with that node in place of its own. -/
def resolve (o : Options) (n : Node) : Tree → Journaled Tree
  | ⟨_, flow, attached⟩ => do
    let ss ← slots o n (flow.map (·.node))
    let resolved ← resolveFlow o ss flow
    let (n, resolved) ← finish n resolved
    let n := containing n attached
    let placed ← resolveAttached o n.box attached
    return ⟨n, resolved, placed⟩

/-- Each child with its slot. A child in a wrapper is settled once more under it. -/
def resolveFlow (o : Options) : List Slot → List Tree → Journaled (List Tree)
  | s :: ss, t :: ts => do
    let r ← match s.wrapper with
      | none => resolve o s.node t
      | some w => do
        let inner ← slots o w [s.node]
        let c ← resolve o (inner.head?.elim s.node (·.node)) t
        let (w, flow) ← finish w [c]
        pure ⟨w, flow, []⟩
    let rs ← resolveFlow o ss ts
    return r :: rs
  | _, _ => pure []

/-- Chrome was placed in the draft. -/
def resolveAttached (o : Options) (owner : Box) : List Tree → Journaled (List Tree)
  | [] => pure []
  | t :: ts => do
    let r ←
      if t.node.roles.isChrome then resolve o t.node t
      else do
        let r ← resolve o (pinPrepared owner t.node) t
        pure (r.mapNode (pinned owner))
    let rs ← resolveAttached o owner ts
    return r :: rs

end

def tree (o : Options) (t : Tree) : Journaled Tree := resolve o t.node t

end FlexRecovery.Resolve
