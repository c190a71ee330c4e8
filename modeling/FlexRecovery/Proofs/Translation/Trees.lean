import FlexRecovery.Proofs.Translation.Boxes
import FlexRecovery.Tree

/-!
Nodes and trees that are translated, with every box in them.
-/

namespace FlexRecovery

namespace Node

mutual

/-- The box of a node, and those of the spans in its text. -/
def translate (d : Offset) : Node → Node
  | ⟨id, index, tag, box, width, height, direction, align, classes, style, roles, text, multiLine, lineHeight, source⟩ =>
    ⟨id, index, tag, box.translate d, width, height, direction, align, classes, style, roles, translateText d text,
      multiLine, lineHeight, source⟩

def translateText (d : Offset) : Option (Content Node) → Option (Content Node)
  | none => none
  | some (.literal s) => some (.literal s)
  | some (.spans ns) => some (.spans (translateAll d ns))

def translateAll (d : Offset) : List Node → List Node
  | [] => []
  | n :: ns => translate d n :: translateAll d ns

end

variable (d : Offset) (n : Node)

theorem translate_eq : n.translate d = { n with box := n.box.translate d, text := translateText d n.text } := by
  cases n
  rfl

end Node

namespace Tree

mutual

def translate (d : Offset) : Tree → Tree
  | ⟨n, flow, attached⟩ => ⟨n.translate d, translateAll d flow, translateAll d attached⟩

def translateAll (d : Offset) : List Tree → List Tree
  | [] => []
  | t :: ts => translate d t :: translateAll d ts

end

variable (d : Offset) (t : Tree)

theorem translateAll_eq (ts : List Tree) : translateAll d ts = ts.map (translate d) := by
  induction ts with
  | nil => rfl
  | cons t ts ih => rw [translateAll, ih, List.map_cons]

theorem translate_mk (n : Node) (flow attached : List Tree) :
    translate d ⟨n, flow, attached⟩ = ⟨n.translate d, flow.map (translate d), attached.map (translate d)⟩ := by
  rw [translate, translateAll_eq, translateAll_eq]

theorem translate_eq :
    t.translate d = ⟨t.node.translate d, t.flow.map (translate d), t.attached.map (translate d)⟩ := by
  cases t
  exact translate_mk d _ _ _

end Tree

end FlexRecovery
