import FlexRecovery.Json
import FlexRecovery.Tree

/-! What a renderer sees of a layout: tags, classes, style, text and roles, and no geometry. -/

namespace FlexRecovery

/-- One element of the output. -/
structure Output where
  tag : Tag
  id : Option DesignId
  classes : List String
  style : List (String × String)
  roles : List Role
  text : Option (Content Output)
  source : Option String
  children : List Output
  attached : List Output

namespace Output

mutual

/-- A node on its own; the spans of its text are elements without members. -/
def ofNode : Node → Output
  | ⟨id, _, tag, _, _, _, _, _, classes, style, roles, none, _, _, source⟩ =>
    ⟨tag, id, classes.toList, style.entries, roles.toList, none, source, [], []⟩
  | ⟨id, _, tag, _, _, _, _, _, classes, style, roles, some (.literal s), _, _, source⟩ =>
    ⟨tag, id, classes.toList, style.entries, roles.toList, some (.literal s), source, [], []⟩
  | ⟨id, _, tag, _, _, _, _, _, classes, style, roles, some (.spans ns), _, _, source⟩ =>
    ⟨tag, id, classes.toList, style.entries, roles.toList, some (.spans (ofNodes ns)), source, [], []⟩

def ofNodes : List Node → List Output
  | [] => []
  | n :: ns => ofNode n :: ofNodes ns

end

mutual

def ofTree : Tree → Output
  | ⟨n, flow, attached⟩ => { ofNode n with children := ofTrees flow, attached := ofTrees attached }

def ofTrees : List Tree → List Output
  | [] => []
  | t :: ts => ofTree t :: ofTrees ts

end

/-- The members that every element has, or has where they are not empty. -/
def plainMembers (tag : Tag) (id : Option DesignId) (classes : List String) (style : List (String × String))
    (roles : List Role) : List (String × Json) :=
  [("tagName", .ofText tag.name)] ++
    (id.map fun i => ("id", .ofText i.name)).toList ++
    [("classList", .ofList .ofText classes)] ++
    (if style.isEmpty then [] else [("style", .ofMembers (style.map fun (k, v) => (k, .ofText v)))]) ++
    if roles.isEmpty then [] else [("role", .ofList (fun r => .ofText (Role.name r)) roles)]

def memberUnlessEmpty (name : String) (items : List Json) : List (String × Json) :=
  if items.isEmpty then [] else [(name, .array items)]

mutual

/-- Empty parts are left out. -/
def toJson : Output → Json
  | ⟨tag, id, classes, style, roles, none, source, children, attached⟩ =>
    .ofMembers (plainMembers tag id classes style roles ++
      (source.map fun s => ("src", .ofText s)).toList ++
      memberUnlessEmpty "children" (toJsons children) ++ memberUnlessEmpty "attachNodes" (toJsons attached))
  | ⟨tag, id, classes, style, roles, some (.literal s), source, children, attached⟩ =>
    .ofMembers (plainMembers tag id classes style roles ++ [("textContent", .ofText s)] ++
      (source.map fun s => ("src", .ofText s)).toList ++
      memberUnlessEmpty "children" (toJsons children) ++ memberUnlessEmpty "attachNodes" (toJsons attached))
  | ⟨tag, id, classes, style, roles, some (.spans spans), source, children, attached⟩ =>
    .ofMembers (plainMembers tag id classes style roles ++ [("textContent", .array (toJsons spans))] ++
      (source.map fun s => ("src", .ofText s)).toList ++
      memberUnlessEmpty "children" (toJsons children) ++ memberUnlessEmpty "attachNodes" (toJsons attached))

def toJsons : List Output → List Json
  | [] => []
  | o :: os => toJson o :: toJsons os

end

end Output

end FlexRecovery
