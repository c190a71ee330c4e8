import FlexRecovery.Node

/-!
Layout trees. A node owns flow children, which are laid out along its direction, and attached nodes,
which are placed on its box; both in order.
-/

namespace FlexRecovery

structure Tree where
  node : Node
  flow : List Tree := []
  attached : List Tree := []

namespace Tree

instance : Inhabited Tree := ⟨⟨default, [], []⟩⟩

def box (t : Tree) : Box := t.node.box

def isLeaf (t : Tree) : Bool := t.flow.isEmpty

def mapNode (f : Node → Node) (t : Tree) : Tree := { t with node := f t.node }

def addFlow (t : Tree) (ts : List Tree) : Tree := { t with flow := t.flow ++ ts }

def addAttached (t : Tree) (ts : List Tree) : Tree := { t with attached := t.attached ++ ts }

/-- The smallest box around all of them. -/
def hull (ts : List Tree) : Box := Box.hull (ts.map box)

mutual

def size : Tree → Nat
  | ⟨_, flow, attached⟩ => 1 + sizeAll flow + sizeAll attached

def sizeAll : List Tree → Nat
  | [] => 0
  | t :: ts => size t + sizeAll ts

end

mutual

/-- The tree and all trees below it: a node, then its flow children, then what is attached to it. -/
def subtrees : Tree → List Tree
  | ⟨n, flow, attached⟩ => ⟨n, flow, attached⟩ :: (subtreesAll flow ++ subtreesAll attached)

def subtreesAll : List Tree → List Tree
  | [] => []
  | t :: ts => subtrees t ++ subtreesAll ts

end

/-- Its nodes in order. -/
def nodes (t : Tree) : List Node := t.subtrees.map node

/-- How a member hangs on its owner. -/
inductive Link where
  | flow
  | attached
  deriving DecidableEq, Repr

/-- One step of a path from an owner to a member. -/
structure Step where
  link : Link
  position : Nat
  deriving DecidableEq, Repr

def member? (t : Tree) (s : Step) : Option Tree :=
  match s.link with
  | .flow => t.flow[s.position]?
  | .attached => t.attached[s.position]?

def setMember (t : Tree) (s : Step) (m : Tree) : Tree :=
  match s.link with
  | .flow => { t with flow := t.flow.set s.position m }
  | .attached => { t with attached := t.attached.set s.position m }

def at? (t : Tree) : List Step → Option Tree
  | [] => some t
  | s :: path => t.member? s >>= (at? · path)

/-- Puts a tree at the end of a path, if the path leads anywhere. -/
def replaceAt (t new : Tree) : List Step → Tree
  | [] => new
  | s :: path =>
    match t.member? s with
    | some m => t.setMember s (m.replaceAt new path)
    | none => t

theorem sizeAll_append (ts us : List Tree) : sizeAll (ts ++ us) = sizeAll ts + sizeAll us := by
  induction ts with
  | nil => simp [sizeAll]
  | cons t ts ih => simp [sizeAll, ih, Nat.add_assoc]

theorem size_eq (t : Tree) : t.size = 1 + sizeAll t.flow + sizeAll t.attached := by
  cases t; rfl

end Tree

end FlexRecovery
