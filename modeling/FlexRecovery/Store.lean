import FlexRecovery.StableSort
import FlexRecovery.Tree

/-!
A store of nodes that are moved between owners. A node has at most one owner: every operation takes it from
the one that it had. The order of members lies in ranks on the edges, so taking one out touches no other.
-/

namespace FlexRecovery

/-- Names a node of a store, and is never given out again. -/
abbrev Key := Nat

structure Edge where
  owner : Key
  member : Key
  link : Tree.Link
  rank : Nat
  deriving DecidableEq, Repr

structure Store where
  /-- In the order of insertion. -/
  nodes : List (Key × Node)
  edges : List Edge := []
  next : Key

namespace Store

/-- The key of the node that a store is made with. -/
def root : Key := 0

def ofRoot (n : Node) : Store := { nodes := [(root, n)], next := 1 }

def size (s : Store) : Nat := s.nodes.length

def get? (s : Store) (k : Key) : Option Node := s.nodes.lookup k

/-- A node without an owner. -/
def insert (s : Store) (n : Node) : Store × Key :=
  ({ s with nodes := s.nodes ++ [(s.next, n)], next := s.next + 1 }, s.next)

/-- The edges from an owner of one kind. -/
def edgesFrom (s : Store) (owner : Key) (link : Tree.Link) : List Edge :=
  s.edges.filter fun e => e.owner == owner && e.link == link

/-- Members in the order of their ranks. -/
def members (s : Store) (owner : Key) (link : Tree.Link) : List Key :=
  (sortByKey (fun e => (e.rank : Int)) (s.edgesFrom owner link)).map (·.member)

def children (s : Store) (owner : Key) : List Key := s.members owner .flow

def attached (s : Store) (owner : Key) : List Key := s.members owner .attached

def owner? (s : Store) (k : Key) : Option (Key × Tree.Link) :=
  (s.edges.find? (·.member == k)).map fun e => (e.owner, e.link)

/-- The owner of a flow child. -/
def parent? (s : Store) (k : Key) : Option Key :=
  match s.owner? k with
  | some (owner, .flow) => some owner
  | _ => none

def isLeaf (s : Store) (k : Key) : Bool := (s.children k).isEmpty

/-- The node and all that it owns stay alive. -/
def detach (s : Store) (k : Key) : Store := { s with edges := s.edges.filter (·.member != k) }

/-- A rank after all that are taken. -/
def nextRank (es : List Edge) : Nat := es.foldl (fun r e => max r (e.rank + 1)) 0

/-- Moves a node to the end of the members of an owner. -/
def push (s : Store) (owner : Key) (link : Tree.Link) (k : Key) : Store :=
  let s := s.detach k
  { s with edges := s.edges ++ [⟨owner, k, link, nextRank (s.edgesFrom owner link)⟩] }

/-- A new node at the end of the members of an owner. -/
def add (s : Store) (owner : Key) (link : Tree.Link) (n : Node) : Store × Key :=
  let (s, k) := s.insert n
  (s.push owner link k, k)

/-- Gives each listed node the rank of its position. -/
def place (owner : Key) (s : Store) (k : Key × Nat) : Store :=
  let s := s.detach k.1
  { s with edges := s.edges ++ [⟨owner, k.1, .flow, k.2⟩] }

/-- Replaces the flow children. A node that is listed twice takes its last place, and one that is no longer
listed has no owner. -/
def setChildren (s : Store) (owner : Key) (order : List Key) : Store :=
  let s := { s with edges := s.edges.filter fun e => !(e.owner == owner && e.link == .flow) }
  order.zipIdx.foldl (place owner) s

/-- The node alone; what it owned stays without an owner. -/
def remove (s : Store) (k : Key) : Store :=
  { s with
    nodes := s.nodes.filter (·.1 != k)
    edges := s.edges.filter fun e => e.owner != k && e.member != k }

/-- Takes out a node and all that it owns, as deep as the budget goes, and hands the node back. -/
def takeWithin : (budget : Nat) → Store → Key → Option Node × Store
  | 0, s, _ => (none, s)
  | budget + 1, s, k =>
    let s := (s.children k ++ s.attached k).foldl (fun s m => (takeWithin budget s m).2) s
    (s.get? k, s.remove k)

/-- No node lies deeper than there are nodes. -/
def takeSubtree (s : Store) (k : Key) : Option Node × Store := takeWithin s.size s k

def removeSubtree (s : Store) (k : Key) : Store := (s.takeSubtree k).2

/-- Takes the first node off the stack and puts its members in its place. -/
def walk (s : Store) : (budget : Nat) → List Key → List Key
  | 0, _ => []
  | _, [] => []
  | budget + 1, k :: stack => k :: walk s budget (s.children k ++ (s.attached k ++ stack))

/-- The node and all that it owns: a node, then its flow children, then what is attached to it. -/
def descendants (s : Store) (k : Key) : List Key := walk s s.size [k]

/-- The node of that layer that was inserted first. -/
def find? (s : Store) (id : DesignId) : Option Key :=
  (s.nodes.find? fun (_, n) => n.id == some id).map (·.1)

end Store

end FlexRecovery
