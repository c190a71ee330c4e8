import FlexRecovery.Regroup.Runs
import FlexRecovery.Styling.Color

/-!
Lists: a line that repeats a group often enough, or neighbouring lines that repeat the same structure.
Lines of equal items form a wrapping grid; otherwise the groups that correspond are zipped into items.
-/

namespace FlexRecovery.Regroup

/-- A line with the run found in it. -/
structure Track where
  line : Line
  run : Run

namespace Track

def items (t : Track) : List Sibling := t.run.items t.line.items

def group (t : Track) (k : Nat) : List Sibling := t.run.group t.line.items k

/-- Where the items start along the axis, measured from the first one. -/
def offsets (axis : Axis) (t : Track) : List Int :=
  match t.items with
  | [] => []
  | s :: rest => (s :: rest).map fun i => i.box.start axis - s.box.start axis

/-- Both repeat the same groups at the same offsets. -/
def sameStructure (axis : Axis) (a b : Track) : Bool :=
  a.run.period == b.run.period && a.run.groups == b.run.groups &&
    ((a.offsets axis).zip (b.offsets axis)).all fun (x, y) => close x y

end Track

def tracks (axis : Axis) (lines : List Line) : List (Option Track) :=
  lines.map fun l => (Run.find axis l.items).map fun r => ⟨l, r⟩

/-- Neighbouring tracks of one structure belong together. -/
def linked (axis : Axis) (a b : Option Track) : Bool :=
  match a, b with
  | some a, some b => a.sameStructure axis b
  | _, _ => false

def chains (axis : Axis) (lines : List Line) : List (List Track) :=
  ((tracks axis lines).splitBy (linked axis)).map (·.filterMap id)

def listRole : Axis → Role
  | .row => .listX
  | .column => .listY

def positions (ss : List Sibling) : List Nat := ss.map (·.position)

def trees (ss : List Sibling) : List Tree := ss.map (·.tree)

/-- A group of one is an item itself, a longer one is wrapped. -/
def listItem (axis : Axis) (group : List Sibling) : Journaled Tree :=
  match group with
  | [s] => pure (s.tree.mapNode (·.addRole .listItem))
  | group => wrapped (Sibling.hull group) axis [.listItem] (trees group)

def listItems (axis : Axis) (t : Track) : Journaled (List Tree) :=
  (List.range t.run.groups).mapM fun k => listItem axis (t.group k)

/-- The flow children of an owner while lists are made of them. -/
abbrev Siblings := List Sibling

/-- The list takes the place of the first of its members. -/
def placed (owner : Option DesignId) (rule message : String) (siblings : Siblings) (members : List Sibling)
    (made : Tree) : Journaled Siblings := do
  Journal.inform owner rule message
  return Sibling.replace (positions members) made siblings

/-- One line on its own has to repeat often, and texts alone stay texts. -/
def standsAlone (t : Track) : Bool :=
  decide (Tuning.fewestGroups ≤ t.run.groups) && !t.items.all fun s => s.node.isBareText

def makeSingle (owner : Option DesignId) (axis : Axis) (siblings : Siblings) (t : Track) : Journaled Siblings := do
  let items ← listItems axis t
  let list ← wrapped (Sibling.hull t.items) axis [listRole axis] items
  placed owner "list" ((listRole axis).name ++ " of " ++ toString items.length ++ " items") siblings t.items list

/-- The common space between the lines of a grid of equal items. -/
def gridGap (chain : List Track) : Option Int :=
  match chain with
  | [] => none
  | first :: rest =>
    let uniform := chain.all fun t =>
      (t.items.zip first.items).all fun (a, b) => sameKind a b && sameSize a.box b.box
    let spaces := (chain.zip rest).map fun (a, b) => b.line.crossStart - a.line.crossStop
    match spaces with
    | [] => none
    | g :: _ => if uniform && decide (0 ≤ g) && spaces.all fun h => close h g then some g else none

/-- The space between the first two groups of a track. -/
def groupGap (axis : Axis) (t : Track) : Int :=
  match (t.group 0).getLast?, (t.group 1).head? with
  | some a, some b => b.box.start axis - a.box.stop axis
  | _, _ => 0

def makeGrid (owner : Option DesignId) (siblings : Siblings) (chain : List Track) (rowGap : Int) :
    Journaled Siblings := do
  let members := chain.flatMap Track.items
  let columnGap := chain.head?.elim 0 (groupGap .row)
  let items ← chain.flatMapM (listItems .row)
  let list ← wrapped (Sibling.hull members) .row [.listWrap] items
  let list := list.mapNode (·.pushAll ["flex-wrap", "gap-x-" ++ px columnGap, "gap-y-" ++ px rowGap])
  placed owner "list" ("list-wrap of " ++ toString items.length ++ " items") siblings members list

/-- How the members of a zipped item line up along the axis. -/
def sharedAlign (axis : Axis) (group : List Sibling) : Option Align :=
  let shared (f : Box → Int) : Bool :=
    match group with
    | [] => false
    | s :: _ => group.all fun m => close (f m.box) (f s.box)
  if shared fun b => b.start axis + b.stop axis then some .center
  else if shared fun b => b.start axis then some .start
  else if shared fun b => b.stop axis then some .stop
  else none

/-- What more than half of them are. -/
def majority (aligns : List (Option Align)) : Option Align :=
  [.start, .center, .stop, .stretch].find? fun a => decide (aligns.length < 2 * aligns.count (some a))

def makeZipped (owner : Option DesignId) (axis : Axis) (siblings : Siblings) (chain : List Track) :
    Journaled Siblings := do
  let members := chain.flatMap Track.items
  let groups := (List.range (chain.head?.elim 0 (·.run.groups))).map fun k => chain.flatMap (·.group k)
  let items ← groups.mapM fun g => wrapped (Sibling.hull g) axis.cross [.listItem] (trees g)
  let align := majority (groups.map (sharedAlign axis))
  let items := items.map fun t => t.mapNode fun n => { n with align := align <|> n.align }
  let list ← wrapped (Sibling.hull members) axis [listRole axis] items
  placed owner "list" ("zipped " ++ (listRole axis).name ++ " of " ++ toString items.length ++ " items")
    siblings members list

/-- No list is made whose box shares area with a sibling outside it. -/
def isClear (siblings : Siblings) (members : List Sibling) : Bool :=
  !Sibling.overlapsOther siblings (positions members) (Sibling.hull members)

def makeList (owner : Option DesignId) (axis : Axis) (siblings : Siblings) (chain : List Track) :
    Journaled Siblings :=
  match chain with
  | [] => pure siblings
  | [t] => if standsAlone t && isClear siblings t.items then makeSingle owner axis siblings t else pure siblings
  | chain =>
    if !isClear siblings (chain.flatMap Track.items) then pure siblings
    else
      match axis, gridGap chain with
      | .row, some rowGap => makeGrid owner siblings chain rowGap
      | axis, _ => makeZipped owner axis siblings chain

def listsAlong (axis : Axis) (t : Tree) : Journaled Tree := do
  let siblings := Sibling.list t.flow
  let made ← (chains axis (Line.collect axis siblings)).foldlM (makeList t.node.id axis) siblings
  return { t with flow := trees made }

end FlexRecovery.Regroup
