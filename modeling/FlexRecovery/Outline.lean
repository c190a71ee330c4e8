import FlexRecovery.Text.Quoted
import FlexRecovery.Tree

/-! A layout as an indented outline, one line for each node. Attached nodes are marked. -/

namespace FlexRecovery.Outline

def sizingLetter : Option Sizing → String
  | some .fixed => "F"
  | some .auto => "A"
  | some .constrained => "C"
  | none => "?"

/-- A node without its indentation. -/
def body (n : Node) : String :=
  n.tag.name ++ (n.id.elim "~" DesignId.tagged) ++
    String.join (n.roles.toList.map fun r => " (" ++ r.name ++ ")") ++
    (n.direction.elim "" fun d => " " ++ d.name) ++
    " " ++ sizingLetter n.width ++ sizingLetter n.height ++
    (if n.classes.toList.isEmpty then "" else " ." ++ ".".intercalate n.classes.toList) ++
    n.plain.elim "" fun s => " " ++ Text.quoted s

def line (depth : Nat) (isAttached : Bool) (n : Node) : String :=
  String.ofList (List.replicate (2 * depth) ' ') ++ (if isAttached then "@" else "") ++ body n ++ "\n"

mutual

/-- The lines of a tree at some depth: its own, then those of its flow children and of what is attached. -/
def render (depth : Nat) (isAttached : Bool) : Tree → String
  | ⟨n, flow, attached⟩ =>
    line depth isAttached n ++ renderAll (depth + 1) false flow ++ renderAll (depth + 1) true attached

def renderAll (depth : Nat) (isAttached : Bool) : List Tree → String
  | [] => ""
  | t :: ts => render depth isAttached t ++ renderAll depth isAttached ts

end

def ofTree (t : Tree) : String := render 0 false t

end FlexRecovery.Outline
