import FlexRecovery.Box.Relations
import FlexRecovery.Failure
import FlexRecovery.Options
import FlexRecovery.Styling.Run
import FlexRecovery.Tree

/-!
The draft of a layout: every layer that can be seen becomes one node with a box on the page grid and
resolved style tokens, nested like the layers. Boxes are clipped to the owner; a layer outside its owner
moves up to the page.
-/

namespace FlexRecovery

/-- Each edge is rounded on its own, so boxes that touch still touch. -/
def RawBox.rounded (b : RawBox) : Box :=
  .ofEdges (Single.nearest b.left) (Single.nearest b.top) (Single.nearest (b.left + b.width))
    (Single.nearest (b.top + b.height))

namespace Draft

/-- What holds for every layer of a document. -/
structure Canvas where
  options : Options
  page : Box
  originX : Float32
  originY : Float32

/-- The box of a layer relative to the origin, as far as it lies on the page. -/
def Canvas.place (c : Canvas) (b : RawBox) : Option Box :=
  ({ b with left := b.left - c.originX, top := b.top - c.originY } : RawBox).rounded.meet c.page

/-- Fill, border, corners and shadow, which every kind of layer can have. -/
def styled (t : LayerTraits) (tag : Tag) (box : Box) (opacity : Float32) : Journaled Node := do
  let index ← Journal.nextIndex
  let fill ← fillClasses t.fill opacity (some t.id)
  let stroke ← t.stroke.classes opacity (some t.id)
  let classes := (Classes.pushAll {} fill).pushAll stroke
  let round := t.realType == some "oval" || t.realType == some "ellipse"
  return {
    id := some t.id, index, tag, box
    classes := if round then (classes.erasePrefix "rounded").push "rounded-full" else classes
    style := (Shadow.style t.shadows opacity).elim {} fun s => ({} : Style).set "box-shadow" s }

/-- A symbol right on the page is a header at its top left corner, and else a safe area at the bottom. -/
def chrome (c : Canvas) (t : LayerTraits) (box : Box) (opacity : Float32) : Journaled Node := do
  let n ← styled t .view box opacity
  let isHeader := close box.left c.page.left && close box.top c.page.top
  let n := n.addRole (if isHeader then .header else .safeArea)
  let n := n.pushAll
    ["fixed", if isHeader then "top-0" else "bottom-0", "left-0", "w-full", "h-" ++ px box.height, "z-50"]
  return { n with width := some .fixed, height := some .fixed }

/-- The family of a run goes into the style, all else into the classes. -/
def dressed (n : Node) (classes : List String) (font : Font) : Node :=
  { n.pushAll classes with style := font.family.elim n.style (n.style.set "font-family") }

def span (t : LayerTraits) (box : Box) (opacity : Float32) (r : TextRun) : Journaled Node := do
  let index ← Journal.nextIndex
  let classes ← r.classes opacity (some t.id)
  return { dressed { index, tag := .span, box } classes r.font with text := some (.literal r.value) }

/-- The largest line height of the runs; a text without runs is one line. -/
def lineHeight (box : Box) : List TextRun → Int
  | [] => box.height
  | r :: rs => rs.foldl (fun h r => max h (r.lineHeight Tuning.lineHeightRatio)) (r.lineHeight Tuning.lineHeightRatio)

/-- Higher than one and a half lines. -/
def isMultiLine (lineHeight : Int) (box : Box) : Bool := decide (3 * lineHeight < 2 * (box.height : Int))

def text (t : LayerTraits) (runs : List TextRun) (box : Box) (opacity : Float32) : Journaled Node := do
  let n ← styled t .text box opacity
  let height := lineHeight box runs
  let multiLine := isMultiLine height box
  let n := { n with lineHeight := some height, multiLine }
  let n := (runs.findSome? (·.align)).elim n fun a => n.push a.token
  let n ← match runs with
    | [] => pure { n with text := some (.literal "") }
    | [r] => do
      let classes ← r.classes opacity (some t.id)
      pure { dressed n classes r.font with text := some (.literal r.value) }
    | runs => do
      let spans ← runs.mapM (span t box opacity)
      pure { n with text := some (.spans spans) }
  if multiLine then return { n with width := some .auto, height := some .auto }
  else return { n.push "whitespace-nowrap" with height := some .fixed }

def image (t : LayerTraits) (box : Box) (opacity : Float32) : Journaled Node := do
  let n ← styled t .image box opacity
  return { n with source := t.bitmap, width := some .fixed, height := some .fixed }

/-- A slice shows its picture as a background. -/
def slice (t : LayerTraits) (box : Box) (opacity : Float32) : Journaled Node := do
  let n ← styled t .view box opacity
  let n := { n with width := some .fixed, height := some .fixed }
  match t.bitmap with
  | some url =>
    return { n.pushAll ["bg-cover", "bg-no-repeat"] with style := n.style.set "background-image" ("url(" ++ url ++ ")") }
  | none => do
    Journal.warn (some t.id) "slice-source" "slice without a bitmap"
    return n

/-- Whether a layer is chrome: only symbols right on the page are. -/
def isChrome (onPage : Bool) (t : LayerTraits) : Bool := onPage && t.kind == .symbol

def node (c : Canvas) (onPage : Bool) (t : LayerTraits) (box : Box) (opacity : Float32) : Journaled Node :=
  if isChrome onPage t then chrome c t box opacity
  else
    match t.kind, t.runs with
    | .text, some runs => text t runs box opacity
    | .image, _ => image t box opacity
    | .slice, _ => slice t box opacity
    | _, _ => styled t .view box opacity

/-- Thin, elongated, painted leaves are dividers. -/
def marked (n : Node) : Node :=
  let short := min n.box.width n.box.height
  let long := max n.box.width n.box.height
  if n.tag == .view && n.isPainted && !n.roles.isChrome && short ≤ Tuning.dividerThickness && short * 4 ≤ long then
    { n.addRole .divider with width := some .fixed, height := some .fixed }
  else n

/-- A drafted layer and how it hangs on its owner. -/
abbrev Member := Tree.Link × Tree

/-- What a layer yields: at most one member of its owner, and members of the page that were found under it. -/
structure Yield where
  own : List Member := []
  strays : List Member := []

def flowOf (ms : List Member) : List Tree := ms.filterMap fun (link, t) => if link = .flow then some t else none

def attachedOf (ms : List Member) : List Tree := ms.filterMap fun (link, t) => if link = .flow then none else some t

/-- A node with its members; one without flow children may be a divider. -/
def assembled (n : Node) (ms : List Member) : Tree :=
  { node := if (flowOf ms).isEmpty then marked n else n, flow := flowOf ms, attached := attachedOf ms }

/-- Whether the layers inside are drafted: not in content, in slices, or in chrome unless it is kept. -/
def descends (c : Canvas) (onPage : Bool) (t : LayerTraits) (n : Node) : Bool :=
  !n.isContent && t.kind != .slice && (!isChrome onPage t || c.options.keepChromeContent)

def linkOf (c : Canvas) (onPage : Bool) (t : LayerTraits) : Tree.Link :=
  if isChrome onPage t || c.options.detaches t.id then .attached else .flow

mutual

/-- A layer whose owner has the given box and effective opacity. -/
def layer (c : Canvas) (owner : Box) (onPage : Bool) (inherited : Float32) : Layer → Journaled Yield
  | ⟨t, children⟩ =>
    let keep := c.options.keeps t.id
    let opacity := inherited * Single.unit t.opacity
    if c.options.excludes t.id then pure {}
    else if t.kind == .unknown && c.options.strict && !keep then do
      Journal.warn (some t.id) "unknown-type" "node of unknown type dropped"
      return {}
    else if opacity ≤ 0 && !keep then pure {}
    else
      match c.place t.box with
      | none => pure {}
      | some placed => do
        let clipped := placed.meet owner
        let stray := clipped.isNone && !onPage
        if stray then
          Journal.warn (some t.id) "out-of-parent" "outside its parent, promoted to the page"
        let box := clipped.getD placed
        let n ← node c onPage t box opacity
        let below ← if descends c onPage t n then layers c box false opacity children else pure []
        let member : Member := (linkOf c onPage t, assembled n (below.flatMap (·.own)))
        let strays := below.flatMap (·.strays)
        return if stray then { strays := member :: strays } else { own := [member], strays }

/-- Layers with one owner, in order. -/
def layers (c : Canvas) (owner : Box) (onPage : Bool) (inherited : Float32) : List Layer → Journaled (List Yield)
  | [] => pure []
  | l :: ls => do
    let y ← layer c owner onPage inherited l
    let ys ← layers c owner onPage inherited ls
    return y :: ys

end

/-- The page covers the canvas, and its height follows the content. -/
def pageNode (t : LayerTraits) (page : Box) (opacity : Float32) : Journaled Node := do
  let index ← Journal.nextIndex
  let fill ← fillClasses t.fill opacity (some t.id)
  return {
    id := some t.id, index, box := page
    roles := ({} : Roles).insert .page
    width := some .constrained
    height := some .auto
    classes := (Classes.pushAll {} ["flex", "w-full", "min-h-screen"]).pushAll fill }

def isSupported (edge : Float32) : Bool := 0 < edge && edge ≤ Tuning.longestEdge

/-- What stops a document from being drafted. -/
def failure? (d : Document) : Option Failure :=
  if d.page.traits.kind ≠ .artboard then some (.invalidRoot d.page.traits.kind.name)
  else if isSupported d.width && isSupported d.height then none
  else some (.unsupportedCanvas d.width d.height)

/-- Strays come right after the member of the page that they were found under. -/
def ofPage (o : Options) (d : Document) : Journaled Tree := do
  let t := d.page.traits
  let page := Box.ofSize 0 0 (Single.nearest d.width) (Single.nearest d.height)
  let opacity := Single.unit t.opacity
  let canvas : Canvas := ⟨o, page, t.box.left, t.box.top⟩
  let n ← pageNode t page opacity
  let members ← layers canvas page true opacity d.page.children
  let members := members.flatMap fun y => y.own ++ y.strays
  return ⟨n, flowOf members, attachedOf members⟩

end Draft

end FlexRecovery
