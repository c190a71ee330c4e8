import FlexRecovery.Regroup.Lists

/-! Tables: neighbouring lines of uneven cells whose columns line up. -/

namespace FlexRecovery.Regroup

/-- At least two cells that are no plain repetition. -/
def isTableRow (l : Line) : Bool :=
  match l.items with
  | first :: second :: rest =>
    let cells := first :: second :: rest
    let gaps := Box.gaps .row (cells.map Sibling.box)
    let homogeneous := cells.all fun c => sameKind c first && sameSize c.box first.box
    let even := gaps.all fun g => close g (gaps.headD 0)
    !(homogeneous && even)
  | _ => false

/-- The cells share their left edge, their right edge or their center. -/
def columnMatches (a b : Box) : Bool :=
  close a.left b.left || close a.right b.right || close (a.left + a.right) (b.left + b.right)

def columnsMatch (a b : Line) : Bool :=
  a.items.length == b.items.length && (a.items.zip b.items).all fun (x, y) => columnMatches x.box y.box

def sameTable (a b : Line) : Bool := isTableRow a && isTableRow b && columnsMatch a b

/-- Three rows, or two rows of at least three columns. -/
def isTable (rows : List Line) : Bool :=
  decide (3 ≤ rows.length ∨ (rows.length = 2 ∧ 3 ≤ (rows.head?.elim 0 (·.items.length))))

def makeTable (owner : Option DesignId) (siblings : Siblings) (rows : List Line) : Journaled Siblings := do
  let members := rows.flatMap (·.items)
  if isTable rows && isClear siblings members then
    let made ← rows.mapM fun l => wrapped (Sibling.hull l.items) .row [.tableRow] (trees l.items)
    let body ← wrapped (Sibling.hull members) .column [.tableBody] made
    placed owner "table"
      (toString rows.length ++ " rows x " ++ toString (rows.head?.elim 0 (·.items.length)) ++ " columns")
      siblings members body
  else return siblings

def tables (t : Tree) : Journaled Tree := do
  let siblings := Sibling.list t.flow
  let made ← ((Line.collect .row siblings).splitBy sameTable).foldlM (makeTable t.node.id) siblings
  return { t with flow := trees made }

/-- Tables first, then lists in rows, then lists in columns. -/
def makeLists (t : Tree) : Journaled Tree :=
  if t.flow.length < 2 then pure t else tables t >>= listsAlong .row >>= listsAlong .column

end FlexRecovery.Regroup
