import FlexRecovery.Resolve.Margins
import FlexRecovery.Styling.Color
import FlexRecovery.Tuning

/-!
Alignment across the direction of an owner. The children vote with their margins; margins that they share
become padding, and what remains of a child's own margin becomes a token of its own.
-/

namespace FlexRecovery.Resolve

/-- What a child states across its owner's direction. -/
inductive CrossToken where
  | marginStart (v : Int)
  | marginStop (v : Int)
  | selfStart
  | selfStop
  | selfCenter
  deriving DecidableEq, Repr

def CrossToken.text (cross : Axis) : CrossToken → String
  | marginStart v => "m" ++ startLetter cross ++ "-" ++ px v
  | marginStop v => "m" ++ stopLetter cross ++ "-" ++ px v
  | selfStart => "self-start"
  | selfStop => "self-end"
  | selfCenter => "self-center"

/-- Stretch if the stretched children are at least as many as agree otherwise; then what most agree on. -/
def chooseAlign (margins : List Margins) (constrained : List Bool) : Align :=
  let free := ((margins.zip constrained).filter fun (_, c) => !c).map (·.1)
  let fixedToStretch := constrained.countP id
  let starts := clusterSize (free.map (·.start))
  let stops := clusterSize (free.map (·.stop))
  let centers := clusterSize (free.map (·.skew))
  let best := max (max starts stops) centers
  if 0 < fixedToStretch && decide (best ≤ fixedToStretch) then .stretch
  else if (cluster (free.map (·.skew))).any fun (skew, n) => n == best && close skew 0 then .center
  else if starts = best then .start
  else if stops = best then .stop
  else .center

/-- A margin shared by enough children, and by more than half of them. -/
def sharedMargin (values : List Int) : Int :=
  match cluster values with
  | some (v, n) => if Tuning.fewestSharing ≤ n && decide (values.length < n * 2) then v else 0
  | none => 0

def least (values : List Int) : Int :=
  match values with
  | [] => 0
  | v :: vs => vs.foldl min v

/-- How the children of an owner stand across its direction. -/
structure CrossPlan where
  align : Align
  padStart : Int
  padStop : Int
  children : List (List CrossToken)
  deriving DecidableEq, Repr

/-- Moves the center of a child by half the skew. -/
def centerShift (skew : Int) : List CrossToken :=
  if close skew 0 then []
  else if 0 < skew then [.marginStart skew]
  else [.marginStop (-skew)]

/-- A child that does not follow the alignment is pinned where it is closest. -/
def pinnedTokens (align : Align) (rest : Margins) : List CrossToken :=
  if close rest.start 0 then [.selfStart]
  else if close rest.stop 0 then [.selfStop]
  else if rest.isSymmetric then [.selfCenter]
  else if rest.stop < rest.start then (if align = .stop then [] else [.selfStop]) ++ [.marginStop rest.stop]
  else (if align = .start then [] else [.selfStart]) ++ [.marginStart rest.start]

/-- The tokens of a child whose margins, less the padding, are `rest`. -/
def childTokens (align : Align) (centerSkew : Int) (isConstrained : Bool) (rest : Margins) : List CrossToken :=
  if isConstrained then
    (if rest.start = 0 then [] else [.marginStart rest.start]) ++
      if rest.stop = 0 then [] else [.marginStop rest.stop]
  else
    match align with
    | .start => if close rest.start 0 then [] else pinnedTokens align rest
    | .stretch => if close rest.start 0 then [.selfStart] else pinnedTokens align rest
    | .stop => if close rest.stop 0 then [] else pinnedTokens align rest
    | .center => if close rest.skew centerSkew then centerShift centerSkew else pinnedTokens align rest

/-- Padding on both sides, none below a page. -/
def padding (follows : Bool) (isOpenEnd : Bool) (align : Align) (margins : List Margins) : Int × Int :=
  let (s, e) :=
    if follows then (least (margins.map (·.start)), least (margins.map (·.stop)))
    else if align = .center then (0, 0)
    else (sharedMargin (margins.map (·.start)), sharedMargin (margins.map (·.stop)))
  (max s 0, if isOpenEnd then 0 else max e 0)

def crossPlan (owner : Node) (cross : Axis) (children : List Node) : CrossPlan :=
  let margins := children.map fun c => Margins.between c.box owner.box cross
  let constrained := children.map fun c => c.sizing cross == some .constrained
  let align := owner.align.getD (chooseAlign margins constrained)
  let (padStart, padStop) := padding (owner.sizing cross == some .auto) (isOpen owner cross) align margins
  let rests := margins.map fun m => (⟨m.start - padStart, m.stop - padStop⟩ : Margins)
  let centerSkew := (cluster (rests.map (·.skew))).elim 0 (·.1)
  { align, padStart, padStop
    children := (constrained.zip rests).map fun (c, rest) => childTokens align centerSkew c rest }

def padToken (letter : String) (v : Int) : List String := if 0 < v then ["p" ++ letter ++ "-" ++ px v] else []

/-- The owner and its flow children with the tokens of the plan. -/
def alignChildren (owner : Node) (flow : List Tree) : Node × List Tree :=
  match owner.direction with
  | none => (owner, flow)
  | some direction =>
    if flow.isEmpty then (owner, flow)
    else
      let cross := direction.cross
      let plan := crossPlan owner cross (flow.map (·.node))
      ({ owner with align := some plan.align }.pushAll
          (plan.align.token :: (padToken (startLetter cross) plan.padStart ++ padToken (stopLetter cross) plan.padStop)),
        (plan.children.zip flow).map fun (ts, t) => t.mapNode (·.pushAll (ts.map (CrossToken.text cross))))

end FlexRecovery.Resolve
