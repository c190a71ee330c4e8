import FlexRecovery.Proofs.Disguise.Trees
import FlexRecovery.Proofs.Journaled
import FlexRecovery.Regroup

/-!
The passes over the members of an owner that rebuild nesting: their decisions are those for the same members
elsewhere on the page.
-/

namespace FlexRecovery

variable (d : Disguise)

namespace Regroup

open Tree Journaled

theorem splitFirst_map {α β : Type} (p : β → Bool) (g : α → β) (as : List α) : splitFirst p (as.map g) =
    (splitFirst (fun a => p (g a)) as).map (Prod.map (List.map g) (Prod.map g (List.map g))) := by
  induction as with
  | nil => rfl
  | cons a as ih =>
    rw [List.map_cons, splitFirst, splitFirst, ih]
    cases p (g a) with
    | true => rfl
    | false => cases splitFirst (fun a => p (g a)) as <;> rfl

section redundant

theorem isRedundant_recast (outer : Box) (t : Tree) :
    isRedundant (outer.recast d) (t.recast d) = isRedundant outer t := by
  simp only [isRedundant, node_recast, Node.isContent_recast, Node.roles_recast, Tree.box_recast,
    Box.same_translate]

theorem foldRedundant_recast (t : Tree) (count : Nat) :
    foldRedundant (t.recast d) count = ((foldRedundant t count).1.recast d, (foldRedundant t count).2) := by
  induction h : sizeAll t.flow using Nat.strong_induction_on generalizing t count with
  | _ m ih =>
    have hs : splitFirst (isRedundant (t.recast d).box) (t.recast d).flow =
        (splitFirst (isRedundant t.box) t.flow).map
          (Prod.map (List.map (Tree.recast d)) (Prod.map (Tree.recast d) (List.map (Tree.recast d)))) := by
      rw [flow_recast, splitFirst_map]
      simp only [Tree.box_recast, isRedundant_recast]
    rw [foldRedundant, foldRedundant]
    split
    · next hn =>
      rw [hs, Option.map_eq_none_iff] at hn
      split
      · rfl
      · next h' => rw [hn] at h'; cases h'
    · next before c after hc =>
      rw [hs, Option.map_eq_some_iff] at hc
      obtain ⟨⟨before', c', after'⟩, hc, he⟩ := hc
      obtain ⟨rfl, rfl, rfl⟩ := by simpa using he
      split
      · next h' => rw [hc] at h'; cases h'
      · next h' =>
        obtain ⟨rfl, rfl, rfl⟩ := by simpa using hc.symm.trans h'
        have hf := (eq_of_splitFirst hc).1
        have hlt : sizeAll (before' ++ c'.flow ++ after') < m := by
          rw [← h, hf]
          simp only [sizeAll_append, sizeAll, size_eq c']
          omega
        have hi := ih _ hlt ⟨t.node.absorb c'.node, before' ++ c'.flow ++ after', t.attached ++ c'.attached⟩
          (count + 1) rfl
        rw [recast_mk] at hi
        simp only [node_recast, flow_recast, attached_recast, Node.absorb_recast, ← List.map_append]
        exact hi

theorem mergeRedundant_recast (t : Tree) :
    mergeRedundant (t.recast d) = (fun r => (r.1.recast d, r.2)) <$> mergeRedundant t := by
  unfold mergeRedundant
  rw [foldRedundant_recast]
  simp only [node_recast, Node.id_recast]
  split <;> rfl

end redundant

section equal

theorem splitPair_map {α β : Type} (r : β → β → Bool) (g : α → β) (as : List α) : splitPair r (as.map g) =
    (splitPair (fun a b => r (g a) (g b)) as).map fun p =>
      ⟨p.before.map g, g p.lower, p.between.map g, g p.upper, p.after.map g⟩ := by
  induction as with
  | nil => rfl
  | cons a as ih =>
    rw [List.map_cons, splitPair, splitPair, splitFirst_map, ih]
    cases splitFirst (fun b => r (g a) (g b)) as with
    | some q => rfl
    | none => cases splitPair (fun a b => r (g a) (g b)) as <;> rfl

theorem fused_recast (lower upper : Tree) :
    fused (lower.recast d) (upper.recast d) = (fused lower upper).recast d := by
  simp only [fused, recast_eq, Node.absorb_recast, List.map_append]

/-- A pair with all around it. -/
def Pair.recast (p : Pair Tree) : Pair Tree :=
  ⟨p.before.map (Tree.recast d), p.lower.recast d, p.between.map (Tree.recast d), p.upper.recast d,
    p.after.map (Tree.recast d)⟩

@[simp] theorem Pair.lower_recast (p : Pair Tree) : (p.recast d).lower = p.lower.recast d := rfl

@[simp] theorem Pair.upper_recast (p : Pair Tree) : (p.recast d).upper = p.upper.recast d := rfl

theorem settle_recast (p : Pair Tree) : settle (p.recast d) =
    ⟨(settle p).flow.map (Tree.recast d), (settle p).out.map (Tree.recast d)⟩ := by
  have flow_single (t u : Tree) : (t.recast d).addFlow [u.recast d] = (t.addFlow [u]).recast d :=
    addFlow_recast d t [u]
  simp only [settle, Pair.recast, node_recast, Node.isContent_recast, Node.isImage_recast, fused_recast,
    flow_single, mapNode_recast d _ (Node.promoted_recast d)]
  split
  · simp
  · simp
  · simp
  · split
    · simp
    · split <;> simp

theorem collapseEqual_recast (t : Tree) : collapseEqual (t.recast d) = Tree.recast d <$> collapseEqual t := by
  induction h : t.flow.length using Nat.strong_induction_on generalizing t with
  | _ m ih =>
    have hs : splitPair (fun a b : Tree => a.box.same b.box) (t.recast d).flow =
        (splitPair (fun a b : Tree => a.box.same b.box) t.flow).map (Pair.recast d) := by
      rw [flow_recast, splitPair_map]
      simp only [Tree.box_recast, Box.same_translate]
      rfl
    rw [collapseEqual, collapseEqual]
    split
    · next hn =>
      rw [hs, Option.map_eq_none_iff] at hn
      split
      · rfl
      · next h' => rw [hn] at h'; cases h'
    · next p hp =>
      rw [hs, Option.map_eq_some_iff] at hp
      obtain ⟨q, hq, rfl⟩ := hp
      split
      · next h' => rw [hq] at h'; cases h'
      · next p' h' =>
        obtain rfl := Option.some.inj (hq.symm.trans h')
        have hlt : (settle q).flow.length < m := by
          have hl := length_settle q
          rw [← (eq_of_splitPair hq).1, h] at hl
          omega
        have hi := ih _ hlt { t with flow := (settle q).flow, attached := t.attached ++ (settle q).out.toList } rfl
        rw [recast_mk, List.map_append] at hi
        have ho : ((settle q).out.map (Tree.recast d)).toList = (settle q).out.toList.map (Tree.recast d) := by
          cases (settle q).out <;> rfl
        simp only [settle_recast, Option.isSome_map, node_recast, attached_recast, ho, hi, Pair.lower_recast,
          Pair.upper_recast, Node.id_recast, Node.label_recast]
        split <;> simp only [map_bind]

end equal

section nesting

def Guest.recast (g : Guest) : Guest := { g with tree := g.tree.recast d }

theorem guests_recast (ts : List Tree) : guests (ts.map (Tree.recast d)) = (guests ts).map (Guest.recast d) := by
  unfold guests
  rw [map_box_recast, List.zipIdx_map]
  generalize ts.map box = bs
  rw [List.map_map, List.map_map]
  refine List.map_congr_left fun p _ => ?_
  simp only [Function.comp, Prod.map, Tree.box_recast, Box.bestContainer_translate, Guest.recast, id]

theorem takesNobody_recast (n : Node) : takesNobody (n.recast d) = takesNobody n := by
  simp only [takesNobody, Node.isText_recast, Node.hasRole_recast]

theorem hostOf_recast (all : List Guest) (g : Guest) :
    hostOf (all.map (Guest.recast d)) (g.recast d) = (hostOf all g).map (Guest.recast d) := by
  unfold hostOf
  cases hg : g.host with
  | none => simp [Guest.recast, hg]
  | some h =>
    simp only [Guest.recast, hg, Option.bind_eq_bind, Option.bind_some, List.find?_map]
    rfl

theorem isTurnedAway_recast (all : List Guest) (g : Guest) :
    isTurnedAway (all.map (Guest.recast d)) (g.recast d) = isTurnedAway all g := by
  unfold isTurnedAway
  rw [hostOf_recast, Option.any_map]
  refine congrArg₂ Option.any (funext fun h => ?_) rfl
  simp only [Guest.recast, node_recast, takesNobody_recast]

theorem hosting_recast (t : Tree) : hosting (t.recast d) = (hosting t).recast d := by
  unfold hosting
  rw [node_recast, Node.isImage_recast]
  split
  · exact mapNode_recast d t (Node.promoted_recast d)
  · rfl

theorem settled_recast (all : List Guest) (budget : Nat) (g : Guest) :
    settled (all.map (Guest.recast d)) budget (g.recast d) = (settled all budget g).recast d := by
  induction budget generalizing g with
  | zero => rfl
  | succ budget ih =>
    have hown : (all.map (Guest.recast d)).filter (fun m => m.host == some (g.recast d).position) =
        (all.filter fun m => m.host == some g.position).map (Guest.recast d) := List.filter_map
    unfold settled
    dsimp only
    rw [hown, List.isEmpty_map, List.map_map]
    simp only [Guest.recast, node_recast, takesNobody_recast]
    split
    · rfl
    · rw [hosting_recast, ← addFlow_recast, List.map_map]
      congr 1
      exact List.map_congr_left fun m _ => ih m

theorem filter_guests_recast {p : Guest → Bool} (h : ∀ g : Guest, p (g.recast d) = p g) (all : List Guest) :
    (all.map (Guest.recast d)).filter p = (all.filter p).map (Guest.recast d) := by
  rw [List.filter_map]
  exact congrArg _ (List.filter_congr fun g _ => h g)

theorem map_settled_recast (all some : List Guest) (budget : Nat) :
    (some.map (Guest.recast d)).map (settled (all.map (Guest.recast d)) budget) =
      (some.map (settled all budget)).map (Tree.recast d) := by
  rw [List.map_map, List.map_map]
  exact List.map_congr_left fun g _ => settled_recast d all _ g

theorem nestContained_recast (t : Tree) : nestContained (t.recast d) = Tree.recast d <$> nestContained t := by
  have hturned (all : List Guest) : (all.map (Guest.recast d)).filter (isTurnedAway (all.map (Guest.recast d))) =
      (all.filter (isTurnedAway all)).map (Guest.recast d) := by
    rw [List.filter_map]
    exact congrArg _ (List.filter_congr fun g _ => isTurnedAway_recast d all g)
  have hfree (all : List Guest) := filter_guests_recast d (p := (·.host.isNone)) (fun _ => rfl) all
  unfold nestContained
  simp only [flow_recast, guests_recast, hturned, hfree, List.length_map, map_settled_recast,
    attached_recast, ← List.map_append, node_recast]
  rw [map_bind]
  congr 1
  · refine forM_congr_map (fun g => ?_) _
    rw [hostOf_recast]
    cases hostOf (guests t.flow) g <;> simp [Guest.recast]
  · simp only [map_pure, recast_mk]

end nesting

namespace Sibling

def recast (s : Sibling) : Sibling := { s with tree := s.tree.recast d }

@[simp] theorem position_recast (s : Sibling) : (s.recast d).position = s.position := rfl

@[simp] theorem tree_recast (s : Sibling) : (s.recast d).tree = s.tree.recast d := rfl

@[simp] theorem node_recast (s : Sibling) : (s.recast d).node = s.node.recast d := Tree.node_recast d s.tree

@[simp] theorem box_recast (s : Sibling) : (s.recast d).box = s.box.recast d := Tree.box_recast d s.tree

theorem list_recast (ts : List Tree) : list (ts.map (Tree.recast d)) = (list ts).map (recast d) := by
  unfold list
  rw [List.zipIdx_map, List.map_map, List.map_map]
  rfl

theorem map_box_recast (ss : List Sibling) :
    (ss.map (recast d)).map box = (ss.map box).map (Box.recast d) := by
  rw [List.map_map, List.map_map]
  exact List.map_congr_left fun s _ => box_recast d s

theorem hull_recast {ss : List Sibling} (h : ss ≠ []) : hull (ss.map (recast d)) = (hull ss).recast d := by
  unfold hull
  rw [map_box_recast]
  exact Box.hull_translate d fun he => h (List.map_eq_nil_iff.1 he)

theorem filter_recast {p q : Sibling → Bool} (h : ∀ s : Sibling, p (s.recast d) = q s) (ss : List Sibling) :
    (ss.map (recast d)).filter p = (ss.filter q).map (recast d) := by
  rw [List.filter_map]
  exact congrArg _ (List.filter_congr fun s _ => h s)

end Sibling

section overlap

def Attaching.recast (a : Attaching) : Attaching :=
  ⟨a.siblings.map (Sibling.recast d), a.out.map (Tree.recast d)⟩

theorem smallest_recast (ss : List Sibling) :
    smallest (ss.map (Sibling.recast d)) = (smallest ss).map (Sibling.recast d) := by
  cases ss with
  | nil => rfl
  | cons s rest =>
    simp only [List.map_cons, smallest, Option.map_some, List.foldl_map]
    refine congrArg some ?_
    induction rest generalizing s with
    | nil => rfl
    | cons m rest ih =>
      simp only [List.foldl_cons, Sibling.box_recast, Box.area_translate] at ih ⊢
      split <;> exact ih _

theorem isEdgeStrip_recast (strip host : Box) :
    isEdgeStrip (strip.recast d) (host.recast d) = isEdgeStrip strip host := by
  simp only [isEdgeStrip, Box.width_translate, Box.height_translate, Box.left_translate, Box.top_translate,
    Box.right_translate, Box.bottom_translate, close_add]
  rfl

theorem canHost_recast (n : Node) : canHost (n.recast d) = canHost n := by
  simp only [canHost, Node.isText_recast, Node.hasRole_recast]

theorem moveOf_recast (siblings : List Sibling) (n : Sibling) :
    moveOf (siblings.map (Sibling.recast d)) (n.recast d) = moveOf siblings n := by
  have hover := Sibling.filter_recast d
    (p := fun m => m.position != (n.recast d).position && (n.recast d).box.overlaps m.box)
    (q := fun m => m.position != n.position && n.box.overlaps m.box) fun m => by simp
  have hintr := Sibling.filter_recast d
    (p := fun m => liesBelow m (n.recast d) && (n.recast d).box.intrudesFully m.box)
    (q := fun m => liesBelow m n && n.box.intrudesFully m.box) fun m => by simp [liesBelow]
  have hhost := Sibling.filter_recast d (p := fun m => canHost m.node)
    (q := fun m => canHost m.node) fun m => by simp [canHost_recast]
  have hstrip (ss : List Sibling) :
      (ss.map (Sibling.recast d)).find? (fun m => canHost m.node && isEdgeStrip (n.recast d).box m.box) =
        (ss.find? fun m => canHost m.node && isEdgeStrip n.box m.box).map (Sibling.recast d) := by
    rw [List.find?_map]
    refine congrArg _ (congrArg₂ List.find? (funext fun m => ?_) rfl)
    simp [canHost_recast, isEdgeStrip_recast]
  unfold moveOf
  simp only [hover, hintr, hhost, hstrip, smallest_recast, List.isEmpty_map]
  cases smallest _ with
  | some host => rfl
  | none =>
    simp only [Option.map_none]
    split
    · rfl
    · cases List.find? _ _ <;> rfl

theorem attachTo_recast (a : Attaching) (n : Sibling) (host : Nat) (prepare : Tree → Tree)
    (hp : ∀ t : Tree, prepare (t.recast d) = (prepare t).recast d) (t : Tree) :
    attachTo (a.recast d) (n.recast d) host prepare (t.recast d) = (attachTo a n host prepare t).recast d := by
  have hrest := Sibling.filter_recast d (p := fun m => m.position != (n.recast d).position)
    (q := fun m => m.position != n.position) (fun _ => rfl) a.siblings
  have hadd (u : Tree) : (u.recast d).addAttached [t.recast d] = (u.addAttached [t]).recast d :=
    addAttached_recast d u [t]
  simp only [attachTo, Attaching.recast, hrest, List.map_map, Attaching.mk.injEq, and_true]
  refine List.map_congr_left fun m _ => ?_
  simp only [Function.comp, Sibling.position_recast, Sibling.tree_recast, hp, hadd]
  split <;> rfl

theorem attachOne_recast (a : Attaching) (position : Nat) :
    attachOne (a.recast d) position = Attaching.recast d <$> attachOne a position := by
  have hfind : (a.recast d).siblings.find? (·.position == position) =
      (a.siblings.find? (·.position == position)).map (Sibling.recast d) := List.find?_map ..
  unfold attachOne
  rw [hfind]
  cases a.siblings.find? (·.position == position) with
  | none => rfl
  | some n =>
    have hm : moveOf (a.recast d).siblings (n.recast d) = moveOf a.siblings n := moveOf_recast d _ _
    simp only [Option.map_some, hm]
    cases moveOf a.siblings n with
    | stays => rfl
    | onto host =>
      simp only [Sibling.tree_recast, attachTo_recast d a n host hosting (hosting_recast d), map_pure]
    | asBorder host =>
      have hb := mapNode_recast d n.tree (f := (·.addRole .border)) fun n => Node.addRole_recast d n .border
      simp only [Sibling.tree_recast, hb, attachTo_recast d a n host id fun _ => rfl, map_pure]
    | offLeaf =>
      have hrest := Sibling.filter_recast d (p := fun m => m.position != n.position)
        (q := fun m => m.position != n.position) (fun _ => rfl) a.siblings
      simp only [Sibling.node_recast, Node.id_recast, Sibling.position_recast, Sibling.tree_recast, map_bind,
        map_pure, Attaching.recast, hrest, List.map_append, List.map_cons, List.map_nil]

theorem attachOverlapping_recast (t : Tree) :
    attachOverlapping (t.recast d) = Tree.recast d <$> attachOverlapping t := by
  have horder : (stableSort movesBefore ((Sibling.list t.flow).map (Sibling.recast d))).map (·.position) =
      (stableSort movesBefore (Sibling.list t.flow)).map (·.position) := by
    have hsort : stableSort movesBefore ((Sibling.list t.flow).map (Sibling.recast d)) =
        (stableSort movesBefore (Sibling.list t.flow)).map (Sibling.recast d) :=
      stableSort_map fun a _ b _ => by simp [movesBefore]
    rw [hsort, List.map_map]
    rfl
  unfold attachOverlapping
  rw [flow_recast, Sibling.list_recast]
  dsimp only
  rw [horder]
  refine bind_congr_map (g := Attaching.recast d) ?_ fun done => ?_
  · have h (ps : List Nat) := foldlM_congr_map (g := id) (fun a p (_ : p ∈ ps) => attachOne_recast d a p)
      ⟨Sibling.list t.flow, []⟩
    simp only [List.map_id] at h
    exact h _
  · simp only [node_recast, attached_recast, Attaching.recast, map_pure, recast_mk, List.map_append,
      List.map_map]
    rfl

end overlap

theorem rebuildNesting_recast (t : Tree) : rebuildNesting (t.recast d) = Tree.recast d <$> rebuildNesting t := by
  unfold rebuildNesting
  have h := bind_congr_map (collapseEqual_recast d t) fun u => nestContained_recast d u
  exact bind_congr_map h fun u => attachOverlapping_recast d u

end Regroup

end FlexRecovery
