import FlexRecovery.Styling.Color
import FlexRecovery.Tree
import FlexRecovery.Tuning

/-!
Stacking numbers from paint order. Later siblings paint on top, so they have the higher number; a text is
put above its siblings. An owner gets the count of what it stacks, and a node that its owner has numbered
keeps that number.
-/

namespace FlexRecovery.Stacking

def level (n : Nat) : String := "z-[" ++ toString n ++ "]"

def isNumbered (n : Node) : Bool := n.classes.hasPrefix "z-"

def numbered (n : Node) (l : Nat) : Node :=
  if isNumbered n then n else (n.push (level l)).push "relative"

/-- How many of the members are not text. -/
def stacked (ts : List Tree) : Nat := (ts.filter fun t => !t.node.isText).length

def owning (n : Node) (flow : List Tree) : Node :=
  if flow.isEmpty || isNumbered n then n else n.push (level (stacked flow))

mutual

/-- The tree with that node in place of its own. -/
def assign (n : Node) : Tree → Tree
  | ⟨_, flow, attached⟩ => ⟨owning n flow, assignFlow 0 flow, assignAttached attached⟩

/-- Flow children from the one after `below` numbered siblings on. -/
def assignFlow (below : Nat) : List Tree → List Tree
  | [] => []
  | t :: ts =>
    if t.node.isText then assign (numbered t.node Tuning.textLevel) t :: assignFlow below ts
    else assign (numbered t.node (below + 1)) t :: assignFlow (below + 1) ts

def assignAttached : List Tree → List Tree
  | [] => []
  | t :: ts => assign t.node t :: assignAttached ts

end

def number (t : Tree) : Tree := assign t.node t

end FlexRecovery.Stacking
