import FlexRecovery.Journal
import FlexRecovery.Resolve.CrossAxis

/-!
Placement along the direction of an owner, from the gaps before, between and after its children. Uniform
gaps may be distributed; otherwise the children are packed against the closer edge and the gaps become one
gap token or margins. A stretched owner with uneven gaps gets a flexible spacer in its widest one.
-/

namespace FlexRecovery.Resolve

structure Gaps where
  start : Int
  stop : Int
  interior : List Int
  deriving DecidableEq, Repr

namespace Gaps

def along (boxes : List Box) (outer : Box) (axis : Axis) : Gaps :=
  match boxes.head?, boxes.getLast? with
  | some first, some last =>
    ⟨first.start axis - outer.start axis, outer.stop axis - last.stop axis, Box.gaps axis boxes⟩
  | _, _ => ⟨0, 0, []⟩

/-- The gap that all are close to, the first one. -/
def uniform? (g : Gaps) : Option Int :=
  match g.interior with
  | [] => none
  | first :: rest => if (first :: rest).all fun h => close h first then some first else none

/-- The position of the widest interior gap, the first on ties, and its width. -/
def widest? (g : Gaps) : Option (Nat × Int) :=
  g.interior.zipIdx.foldl (fun best (w, i) =>
    match best with
    | some (k, v) => if w ≤ v then some (k, v) else some (i, w)
    | none => some (i, w)) none

end Gaps

inductive Plan where
  | start
  | stop
  | center
  | between
  | around
  | evenly
  /-- A spacer after the child at that position. -/
  | spacer (position : Nat)
  deriving DecidableEq, Repr

namespace Plan

def token : Plan → String
  | start | spacer _ => "justify-start"
  | stop => "justify-end"
  | center => "justify-center"
  | between => "justify-between"
  | around => "justify-around"
  | evenly => "justify-evenly"

/-- The gaps are distributed by the layout and not stated. -/
def distributes : Plan → Bool
  | between | around | evenly => true
  | _ => false

end Plan

/-- The distribution of uniform gaps, if there is one. -/
def distribution? (g : Gaps) : Option Plan :=
  match g.uniform? with
  | none => none
  | some gap =>
    if gap ≤ 0 then none
    else if close (g.start * 2) gap && close (g.stop * 2) gap then some .around
    else if g.start + Tuning.tolerance < gap && decide (g.stop + Tuning.tolerance < gap) then some .between
    else if close g.start gap && close g.stop gap then some .evenly
    else none

/-- The widest of several uneven gaps in a stretched owner. -/
def spacer? (g : Gaps) (sizing : Option Sizing) : Option Plan :=
  if sizing == some .constrained && decide (2 ≤ g.interior.length) && g.uniform?.isNone then
    match g.widest? with
    | some (k, w) => if 0 < w then some (.spacer k) else none
    | none => none
  else none

def classify (g : Gaps) (sizing : Option Sizing) (isOpenEnd : Bool) : Plan :=
  if sizing == some .auto || isOpenEnd then .start
  else
    match distribution? g with
    | some p => p
    | none =>
      if close g.start g.stop && !close g.start 0 then .center
      else
        match spacer? g sizing with
        | some p => p
        | none => if g.start ≤ g.stop then .start else .stop

/-- What a child states along its owner's direction. -/
inductive MainToken where
  | marginStart (v : Int)
  | marginStop (v : Int)
  deriving DecidableEq, Repr

def MainToken.text (axis : Axis) : MainToken → String
  | marginStart v => "m" ++ startLetter axis ++ "-" ++ px v
  | marginStop v => "m" ++ stopLetter axis ++ "-" ++ px v

/-- How the children of an owner stand along its direction. -/
structure MainPlan where
  plan : Plan
  padStart : Int
  padStop : Int
  gap : Option Int
  children : List (List MainToken)
  deriving DecidableEq, Repr

def mainPadding (plan : Plan) (g : Gaps) (closes : Bool) : Int × Int :=
  match plan with
  | .start => (g.start, if closes then g.stop else 0)
  | .stop => (0, g.stop)
  | .between | .spacer _ => (g.start, g.stop)
  | .center | .around | .evenly => (0, 0)

/-- The interior gaps that are stated: all but the one that the spacer fills. -/
def statedGaps (plan : Plan) (g : Gaps) : List (Nat × Int) :=
  let all := g.interior.zipIdx.map fun (w, i) => (i, w)
  match plan with
  | .spacer k => all.filter fun (i, _) => i != k
  | _ => all

/-- One gap token, if the stated gaps agree. -/
def commonGap (stated : List (Nat × Int)) : Option Int :=
  match stated with
  | [] => none
  | (_, g) :: rest => if 0 < g && rest.all fun (_, h) => close g h then some g else none

/-- The gap as a margin of the child at a position: after it when packed to the end, and else before it. -/
def gapMargins (plan : Plan) (stated : List (Nat × Int)) (position : Nat) : List MainToken :=
  stated.filterMap fun (i, g) =>
    if g = 0 then none
    else if plan = .stop then if i = position then some (.marginStop g) else none
    else if i + 1 = position then some (.marginStart g) else none

def mainPlan (owner : Node) (axis : Axis) (children : List Node) : MainPlan :=
  let gaps := Gaps.along (children.map (·.box)) owner.box axis
  let sizing := owner.sizing axis
  let isOpenEnd := isOpen owner axis
  let plan := if owner.roles.isList then .start else classify gaps sizing isOpenEnd
  let (padStart, padStop) := mainPadding plan gaps (sizing == some .auto && !isOpenEnd)
  let stated := if plan.distributes then [] else statedGaps plan gaps
  let gap := commonGap stated
  let edge (position : Nat) : List MainToken :=
    if position = 0 && decide (padStart < 0) && plan != .stop then [.marginStart padStart] else []
  { plan, padStart, padStop, gap
    children := (List.range children.length).map fun i =>
      edge i ++ if gap.isSome then [] else gapMargins plan stated i }

def gapToken : Axis → Int → String
  | .row, g => "gap-x-" ++ px g
  | .column, g => "gap-y-" ++ px g

/-- Fills the space between two children and is stretched with their owner. -/
def spacerNode (owner : Box) (axis : Axis) (index : Nat) (before after : Box) : Node :=
  ({ index
     box := owner.withSpan axis (before.stop axis) (after.start axis)
     roles := ({} : Roles).insert .spacer } : Node).setSizing axis .constrained |>.setSizing axis.cross .auto

def insertSpacer (owner : Box) (axis : Axis) (position : Nat) (flow : List Tree) : Journaled (List Tree) :=
  match flow[position]?, flow[position + 1]? with
  | some before, some after => do
    let index ← Journal.nextIndex
    return flow.take (position + 1) ++ ⟨spacerNode owner axis index before.box after.box, [], []⟩ ::
      flow.drop (position + 1)
  | _, _ => pure flow

/-- The owner and its flow children with the tokens of the plan, and with the spacer. -/
def justifyChildren (owner : Node) (flow : List Tree) : Journaled (Node × List Tree) :=
  match owner.direction with
  | none => pure (owner, flow)
  | some axis =>
    if flow.isEmpty then pure (owner, flow)
    else do
      let p := mainPlan owner axis (flow.map (·.node))
      let n := owner.pushAll (p.plan.token :: (padToken (startLetter axis) p.padStart ++
        padToken (stopLetter axis) p.padStop ++ (p.gap.map (gapToken axis)).toList))
      let placed := (p.children.zip flow).map fun (ts, t) => t.mapNode (·.pushAll (ts.map (MainToken.text axis)))
      match p.plan with
      | .spacer k => return (n, ← insertSpacer owner.box axis k placed)
      | _ => return (n, placed)

end FlexRecovery.Resolve
