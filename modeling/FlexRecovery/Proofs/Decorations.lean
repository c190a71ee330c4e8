import FlexRecovery.Proofs.Disguise.Agreement
import FlexRecovery.Proofs.Pruning

/-!
What only decorates: whether nodes are numbered for stacking, texts clamped and lists made to scroll tells in nothing
but the tokens that say so.
-/

namespace FlexRecovery

/-- Tells of stacking, of clamped text or of a list that scrolls. -/
def isDecoration (token : String) : Bool :=
  ["relative", "overflow-x-auto", "overflow-y-auto"].contains token ||
    ["z-", "line-clamp-"].any (beginsWith · token)

def Node.undecorated (n : Node) : Node := { n with classes := n.classes.filter (!isDecoration ·) }

namespace Tree

mutual

/-- The tree with no decoration on any node. -/
def undecorated : Tree → Tree
  | ⟨n, flow, attached⟩ => ⟨n.undecorated, undecoratedAll flow, undecoratedAll attached⟩

def undecoratedAll : List Tree → List Tree
  | [] => []
  | t :: ts => undecorated t :: undecoratedAll ts

end

theorem undecoratedAll_eq (ts : List Tree) : undecoratedAll ts = ts.map undecorated := by
  induction ts with
  | nil => rfl
  | cons t ts ih => rw [undecoratedAll, ih, List.map_cons]

theorem undecorated_mk (n : Node) (flow attached : List Tree) :
    undecorated ⟨n, flow, attached⟩ = ⟨n.undecorated, flow.map undecorated, attached.map undecorated⟩ := by
  rw [undecorated, undecoratedAll_eq, undecoratedAll_eq]

end Tree

def Recovery.undecorated (r : Recovery) : Recovery := { r with tree := r.tree.undecorated }

/-- How decorations begin. -/
def decorationStems : List String := ["relative", "overflow-x-auto", "overflow-y-auto", "z-", "line-clamp-"]

theorem opens_decoration {t : String} (h : isDecoration t = true) : Opens decorationStems t := by
  rcases Bool.or_eq_true_iff.1 h with h | h
  · have hself : ∀ t ∈ ["relative", "overflow-x-auto", "overflow-y-auto"], Opens decorationStems t := by decide
    exact hself t (List.contains_iff_mem.1 h)
  · obtain ⟨s, hs, hb⟩ := List.any_eq_true.1 h
    have hstem : ["z-", "line-clamp-"] ⊆ decorationStems := by decide
    exact ⟨s, hstem hs, hb⟩

theorem isDecoration_of_opens {t : String} (h : Opens ["z-", "line-clamp-"] t) : isDecoration t = true :=
  Bool.or_eq_true_iff.2 (.inr (List.any_eq_true.2 h))

/-- No token of paint or layout begins like a decoration. -/
theorem isDecoration_eq_false {t : String} (h : Opens (paintStems ++ Resolve.stems ++ Resolve.pinStems) t) :
    isDecoration t = false := by
  have apart : Apart (paintStems ++ Resolve.stems ++ Resolve.pinStems) decorationStems := by decide
  exact Bool.eq_false_iff.2 fun hd => apart.not_opens h (opens_decoration hd)

/-- The disguise of a tree without its decorations, in its place. -/
def Disguise.plain : Disguise := ⟨fun _ => 0, isDecoration, fun _ => isDecoration_eq_false⟩

theorem Node.recast_plain (n : Node) : n.recast .plain = n.undecorated := by
  rw [recast, undecorated, show Disguise.plain.offset = fun _ => 0 from rfl, translate_zero]
  rfl

theorem Tree.recast_plain (t : Tree) : t.recast .plain = t.undecorated := by
  induction t using induction_members with
  | _ t ih =>
    obtain ⟨n, flow, attached⟩ := t
    rw [recast_mk, undecorated_mk, Node.recast_plain, List.map_congr_left fun m hm => ih m (List.mem_append_left _ hm),
      List.map_congr_left fun m hm => ih m (List.mem_append_right _ hm)]

namespace Stacking

theorem isDecoration_level (l : Nat) : isDecoration (level l) = true :=
  isDecoration_of_opens ((Opens.append (by decide) _).append _)

theorem undecorated_numbered (n : Node) (l : Nat) : (numbered n l).recast .plain = n.recast .plain := by
  unfold numbered
  split
  · rfl
  · have hrelative : Disguise.plain.drops "relative" = true := by decide
    rw [Node.recast_push, if_pos hrelative, Node.recast_push]
    exact if_pos (isDecoration_level l)

theorem undecorated_owning (n : Node) (flow : List Tree) : (owning n flow).recast .plain = n.recast .plain := by
  unfold owning
  split
  · rfl
  · rw [Node.recast_push]
    exact if_pos (isDecoration_level _)

mutual

theorem undecorated_assign {m : Node} : ∀ t : Tree, m.recast .plain = t.node.recast .plain →
    (assign m t).recast .plain = t.recast .plain
  | ⟨n, flow, attached⟩, h => by
    rw [assign, Tree.recast_mk, Tree.recast_mk, undecorated_owning, h, undecorated_assignFlow 0 flow,
      undecorated_assignAttached attached]

theorem undecorated_assignFlow (below : Nat) : ∀ ts : List Tree,
    (assignFlow below ts).map (Tree.recast .plain) = ts.map (Tree.recast .plain)
  | [] => rfl
  | t :: ts => by
    rw [assignFlow]
    split
    · rw [List.map_cons, List.map_cons, undecorated_assign t (undecorated_numbered ..), undecorated_assignFlow _ ts]
    · rw [List.map_cons, List.map_cons, undecorated_assign t (undecorated_numbered ..), undecorated_assignFlow _ ts]

theorem undecorated_assignAttached : ∀ ts : List Tree,
    (assignAttached ts).map (Tree.recast .plain) = ts.map (Tree.recast .plain)
  | [] => rfl
  | t :: ts => by
    rw [assignAttached, List.map_cons, List.map_cons, undecorated_assign t rfl, undecorated_assignAttached ts]

end

theorem undecorated_number (t : Tree) : (number t).recast .plain = t.recast .plain := undecorated_assign t rfl

end Stacking

namespace Consistency

variable (d : Disguise)

theorem subtrees_recast (t : Tree) : (t.recast d).subtrees = t.subtrees.map (Tree.recast d) := by
  induction t using Tree.induction_members with
  | _ t ih =>
    have hall {ts : List Tree} (h : ∀ m ∈ ts, (m.recast d).subtrees = m.subtrees.map (Tree.recast d)) :
        (ts.map (Tree.recast d)).flatMap Tree.subtrees = (ts.flatMap Tree.subtrees).map (Tree.recast d) := by
      rw [List.flatMap_map, List.map_flatMap]
      exact List.flatMap_congr h
    rw [Tree.subtrees_eq, Tree.subtrees_eq t, Tree.flow_recast, Tree.attached_recast,
      hall fun m hm => ih m (List.mem_append_left _ hm), hall fun m hm => ih m (List.mem_append_right _ hm),
      List.map_cons, List.map_append]

theorem siblingFault?_recast (ts : List Tree) : siblingFault? (ts.map (Tree.recast d)) = siblingFault? ts := by
  have hpair (a b : Tree) : pairFault? (a.recast d) (b.recast d) = pairFault? a b := by
    simp only [pairFault?, isNested, isIntruding, Tree.box_recast, Tree.node_recast, Node.label_recast,
      Box.strictlyContains_translate, Box.intrudesFully_translate, Box.area_translate]
    rfl
  induction ts with
  | nil => rfl
  | cons a ts ih =>
    rw [List.map_cons, siblingFault?, siblingFault?, ih, List.findSome?_map]
    simp only [Function.comp_def, hpair]

theorem structureFault?_recast (t : Tree) : structureFault? (t.recast d) = structureFault? t := by
  have hdirection (s : Tree) : directionFault? (s.recast d) = directionFault? s := by
    simp only [directionFault?, Tree.isLeaf, Tree.node_recast, Tree.flow_recast, List.isEmpty_map,
      Node.direction_recast, Node.label_recast]
  unfold structureFault?
  rw [subtrees_recast, List.findSome?_map]
  simp only [Function.comp_def, hdirection, Tree.flow_recast, siblingFault?_recast]

theorem sizingFault?_recast (t : Tree) : sizingFault? (t.recast d) = sizingFault? t := by
  unfold sizingFault?
  rw [subtrees_recast, List.findSome?_map]
  simp only [Function.comp_def, Tree.node_recast, Node.width_recast, Node.height_recast, Node.label_recast]

end Consistency

/-- The same options but for what decorates. -/
def Options.decorating (o : Options) (stacking clampText scrollLists : Bool) : Options :=
  { o with stacking, clampText, scrollLists }

namespace Draft

variable (stacking clampText scrollLists : Bool)

mutual

theorem layer_decorating (c : Canvas) : (l : Layer) → ∀ owner onPage inherited,
    layer { c with options := c.options.decorating stacking clampText scrollLists } owner onPage inherited l =
      layer c owner onPage inherited l
  | ⟨t, children⟩, owner, onPage, inherited => by
    rw [layer, layer]
    simp only [layers_decorating c children]
    rfl

theorem layers_decorating (c : Canvas) : (ls : List Layer) → ∀ owner onPage inherited,
    layers { c with options := c.options.decorating stacking clampText scrollLists } owner onPage inherited ls =
      layers c owner onPage inherited ls
  | [], _, _, _ => by rw [layers, layers]
  | l :: ls, owner, onPage, inherited => by
    rw [layers, layers, layer_decorating c l, layers_decorating c ls]

end

theorem ofPage_decorating (o : Options) (d : Document) :
    ofPage (o.decorating stacking clampText scrollLists) d = ofPage o d := by
  refine bind_congr fun n => ?_
  have h := layers_decorating stacking clampText scrollLists
    ⟨o, .ofSize 0 0 (Single.nearest d.width) (Single.nearest d.height), d.page.traits.box.left, d.page.traits.box.top⟩
    d.page.children (.ofSize 0 0 (Single.nearest d.width) (Single.nearest d.height)) true
    (Single.unit d.page.traits.opacity)
  exact congrArg (· >>= _) h

end Draft

namespace Recovery

open Journaled

variable (stacking clampText scrollLists : Bool)

theorem cleaned_decorating (o : Options) (t : Tree) :
    (cleaned (o.decorating stacking clampText scrollLists) t).recast .plain = (cleaned o t).recast .plain := by
  have hghost : Ghosts.isGhost (o.decorating stacking clampText scrollLists) = Ghosts.isGhost o := rfl
  have hnumbered (b : Bool) (t : Tree) :
      (if b then Stacking.number t else t).recast .plain = t.recast .plain := by
    cases b
    · rfl
    · exact Stacking.undecorated_number t
  unfold cleaned
  rw [Ghosts.remove_congr hghost]
  exact (hnumbered stacking _).trans (hnumbered o.stacking _).symm

theorem agree_decorating (o : Options) : Resolve.Agree Disguise.plain.drops (o.decorating stacking clampText scrollLists) o where
  items := rfl
  bounds := rfl
  scrolls := .inr (by decide)
  clamps := .inr fun k => isDecoration_of_opens (Opens.append (t := "line-clamp-") (by decide) k)

theorem map_failing {f f' : Option Failure} (hf : f = f') {x x' : Except Failure Recovery}
    (hx : x.map undecorated = x'.map undecorated) :
    (failing f >>= fun _ => x).map undecorated = (failing f' >>= fun _ => x').map undecorated := by
  subst hf
  cases f with
  | none => exact hx
  | some f => rfl

/-- Trees that are the same without their decorations, with the same record of the recovery. -/
def Alike (p q : Tree × Journal) : Prop := p.1.recast .plain = q.1.recast .plain ∧ p.2 = q.2

theorem alike_of_map {x y : Journaled Tree} (h : Tree.recast .plain <$> x = Tree.recast .plain <$> y) (j : Journal) :
    Alike (x j) (y j) :=
  Prod.mk.inj (congrFun h j)

theorem Alike.found {p q : Tree × Journal} (h : Alike p q) :
    (pure { tree := p.1, findings := p.2.findings } : Except Failure Recovery).map undecorated =
      (pure { tree := q.1, findings := q.2.findings } : Except Failure Recovery).map undecorated := by
  obtain ⟨ht, hj⟩ := h
  rw [Tree.recast_plain, Tree.recast_plain] at ht
  rw [hj]
  exact congrArg (fun tree => (.ok { tree, findings := q.2.findings } : Except Failure Recovery)) ht

theorem Alike.structureFault {p q : Tree × Journal} (h : Alike p q) :
    Consistency.structureFault? p.1 = Consistency.structureFault? q.1 := by
  rw [← Consistency.structureFault?_recast .plain, h.1, Consistency.structureFault?_recast]

theorem Alike.sizingFault {p q : Tree × Journal} (h : Alike p q) :
    Consistency.sizingFault? p.1 = Consistency.sizingFault? q.1 := by
  rw [← Consistency.sizingFault?_recast .plain, h.1, Consistency.sizingFault?_recast]

theorem complete_decorating (o : Options) (t : Tree) (j : Journal) :
    (complete (o.decorating stacking clampText scrollLists) t j).map undecorated =
      (complete o t j).map undecorated := by
  have hclean := cleaned_decorating stacking clampText scrollLists o t
  have hagree := agree_decorating stacking clampText scrollLists o
  have hstage : (o.decorating stacking clampText scrollLists).stage = o.stage := rfl
  generalize o.decorating stacking clampText scrollLists = o' at hclean hagree hstage ⊢
  have hgroup : Tree.recast .plain <$> Regroup.tree (cleaned o' t) =
      Tree.recast .plain <$> Regroup.tree (cleaned o t) := by
    rw [← Regroup.tree_recast, hclean, Regroup.tree_recast]
  have hr : Alike (Regroup.tree (cleaned o' t) j) (Regroup.tree (cleaned o t) j) := alike_of_map hgroup j
  unfold complete
  cases hs : o.stage with
  | draft =>
    simp only [Options.reaches, hstage, hs, Stage.rank]
    exact Alike.found (p := (cleaned o' t, j)) (q := (cleaned o t, j)) ⟨hclean, rfl⟩
  | regrouped =>
    simp only [Options.reaches, hstage, hs, Stage.rank]
    exact map_failing hr.structureFault hr.found
  | resolved =>
    have hv : Alike (Resolve.tree o' (Regroup.tree (cleaned o' t) j).1 (Regroup.tree (cleaned o' t) j).2)
        (Resolve.tree o (Regroup.tree (cleaned o t) j).1 (Regroup.tree (cleaned o t) j).2) := by
      rw [← hr.2]
      exact alike_of_map (Resolve.alike_tree rfl hagree hr.1) _
    simp only [Options.reaches, hstage, hs, Stage.rank]
    exact map_failing hr.structureFault (map_failing hv.structureFault (map_failing hv.sizingFault hv.found))

/-- Numbering for stacking, clamping texts and making lists scroll decorate a layout and do nothing else to it: the
same failure, or the same findings and the same tree once the tokens are left out that tell of them. -/
theorem ofDocument_decorated (o : Options) (stacking clampText scrollLists : Bool) (d : Document) :
    (ofDocument { o with stacking, clampText, scrollLists } d).map undecorated = (ofDocument o d).map undecorated := by
  have hd := Draft.ofPage_decorating stacking clampText scrollLists o d
  unfold Options.decorating at hd
  unfold ofDocument
  rw [hd]
  exact map_failing rfl (complete_decorating stacking clampText scrollLists o _ _)

end Recovery

end FlexRecovery
