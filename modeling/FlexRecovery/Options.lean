import FlexRecovery.DesignId
import FlexRecovery.Document.Fields

/-! What a recovery is asked to do. Every optional step is off unless it is asked for. -/

namespace FlexRecovery

/-- How far a recovery goes. -/
inductive Stage where
  /-- The draft: nodes with absolute boxes, nested like the layers. -/
  | draft
  /-- The draft regrouped into flex containers. -/
  | regrouped
  /-- Sizes, alignment and positions resolved. -/
  | resolved
  deriving DecidableEq, Repr, Inhabited

namespace Stage

def rank : Stage → Nat
  | draft => 0
  | regrouped => 1
  | resolved => 2

def read? (depth : Nat) (j : Json) : Option Stage :=
  match Json.name? depth j with
  | some "pre" => some draft
  | some "tree" => some regrouped
  | some "measure" => some resolved
  | _ => none

end Stage

structure Options where
  stage : Stage := .resolved
  /-- Headers and safe areas keep their content. -/
  keepChromeContent : Bool := false
  unwrapGhosts : Bool := false
  /-- Layers that are left out with everything in them. -/
  excluded : List String := []
  /-- Layers that are never left out for their opacity or kind and never unwrapped. -/
  kept : List String := []
  /-- Layers that are taken out of flow. -/
  detached : List String := []
  fixedListItems : Bool := false
  clampText : Bool := false
  scrollLists : Bool := false
  /-- Text that may overflow is bounded by the space up to its neighbour. -/
  boundOverflow : Bool := false
  stacking : Bool := false
  /-- Layers of unknown kind are left out. -/
  strict : Bool := false
  deriving Repr, Inhabited

namespace Options

def excludes (o : Options) (id : DesignId) : Bool := o.excluded.contains id.name

def keeps (o : Options) (id : DesignId) : Bool := o.kept.contains id.name

def detaches (o : Options) (id : DesignId) : Bool := o.detached.contains id.name

def reaches (o : Options) (stage : Stage) : Bool := decide (stage.rank ≤ o.stage.rank)

def names : List String :=
  ["buildStage", "buildAllNodes", "removeGhostNodes", "blackListNodes", "whiteListNodes", "attachNodes",
    "listItemSizeFixed", "textClamp", "listOverflowAuto", "overflowMargin", "experimentalZIndex", "strict"]

def read? (j : Json) : Option Options := do
  let [stage, chrome, ghosts, black, white, attach, fixed, clamp, scroll, bound, stack, strict] ←
    Json.record? names 0 j | none
  let flag := Json.field false Json.toBool?
  let ids := Json.field [] (Json.items? (fun _ => Json.toText?) 1)
  return {
    stage := ← Json.field .resolved (Stage.read? 1) stage
    keepChromeContent := ← flag chrome
    unwrapGhosts := ← flag ghosts
    excluded := ← ids black
    kept := ← ids white
    detached := ← ids attach
    fixedListItems := ← flag fixed
    clampText := ← flag clamp
    scrollLists := ← flag scroll
    boundOverflow := ← flag bound
    stacking := ← flag stack
    strict := ← flag strict }

end Options

end FlexRecovery
