import FlexRecovery.Proofs.Disguise.Regrouping
import FlexRecovery.Resolve

/-!
Sizes, alignment and placement of a tree in disguise are those of the tree, in that disguise. What is left is what
resolving does with content that does not fit and with owners of attached nodes, where tokens may be left out.
-/

namespace FlexRecovery.Resolve

open Tree Journaled

variable (d : Disguise) (axis : Axis)

theorem between_recast (inner outer : Box) :
    Margins.between (inner.recast d) (outer.recast d) axis = Margins.between inner outer axis := by
  simp only [Margins.between, Box.start_translate, Box.stop_translate, Int.add_sub_add_right]

theorem isOpen_recast (n : Node) : isOpen (n.recast d) axis = isOpen n axis := by
  simp only [isOpen, Node.hasRole_recast]

section alignment

theorem crossPlan_recast (owner : Node) (children : List Node) :
    crossPlan (owner.recast d) axis (children.map (Node.recast d)) = crossPlan owner axis children := by
  simp only [crossPlan, List.map_map, Function.comp_def, Node.box_recast, between_recast, Node.sizing_recast,
    Node.align_recast, isOpen_recast]

theorem alignChildren_recast (owner : Node) (flow : List Tree) :
    alignChildren (owner.recast d) (flow.map (Tree.recast d)) =
      Prod.map (Node.recast d) (List.map (Tree.recast d)) (alignChildren owner flow) := by
  unfold alignChildren
  rw [Node.direction_recast, List.isEmpty_map]
  cases owner.direction with
  | none => rfl
  | some direction =>
    have hplan := crossPlan_recast d direction.cross owner (flow.map node)
    rw [← map_node_recast] at hplan
    dsimp only
    rw [hplan]
    split
    · rfl
    · refine Prod.ext ?_ ?_
      · have hn (align : Option Align) : { owner.recast d with direction := some direction, align } =
            { owner with direction := some direction, align }.recast d := by simp only [Node.recast_eq]
        exact (congrArg (Node.pushAll · _) (hn _)).trans (Node.pushWords_recast d _ (isWord_crossPlan _ _))
      · rw [List.zip_map_right, List.map_map, Prod.map_snd, List.map_map]
        exact List.map_congr_left fun p _ => mapNode_recast d p.2 (f := fun n => n.pushAll _) fun n =>
          Node.pushWords_recast d n (List.forall_mem_map.2 fun t _ => isWord_crossToken _ t)

end alignment

section placement

theorem along_recast (boxes : List Box) (outer : Box) :
    Gaps.along (boxes.map (Box.recast d)) (outer.recast d) axis = Gaps.along boxes outer axis := by
  unfold Gaps.along
  rw [List.head?_map, List.getLast?_map, Box.gaps_translate]
  cases boxes.head? with
  | none => rfl
  | some first =>
    cases boxes.getLast? with
    | none => rfl
    | some last =>
      simp only [Option.map_some, Box.start_translate, Box.stop_translate, Int.add_sub_add_right]

theorem mainPlan_recast (owner : Node) (children : List Node) :
    mainPlan (owner.recast d) axis (children.map (Node.recast d)) = mainPlan owner axis children := by
  have hboxes : (children.map (Node.recast d)).map (·.box) = (children.map (·.box)).map (Box.recast d) := by
    rw [List.map_map, List.map_map]
    exact List.map_congr_left fun n _ => Node.box_recast d n
  unfold mainPlan
  simp only [hboxes, Node.box_recast, along_recast, Node.sizing_recast, Node.roles_recast, isOpen_recast,
    List.length_map]

theorem spacerNode_recast (owner : Box) (index : Nat) (before after : Box) :
    spacerNode (owner.recast d) axis index (before.recast d) (after.recast d) =
      (spacerNode owner axis index before after).recast d := by
  unfold spacerNode
  rw [Box.stop_translate, Box.start_translate, Box.withSpan_translate, ← Node.setSizing_recast,
    ← Node.setSizing_recast, Node.recast_eq]
  rfl

theorem insertSpacer_recast (owner : Box) (position : Nat) (flow : List Tree) :
    insertSpacer (owner.recast d) axis position (flow.map (Tree.recast d)) =
      List.map (Tree.recast d) <$> insertSpacer owner axis position flow := by
  unfold insertSpacer
  rw [List.getElem?_map, List.getElem?_map]
  cases flow[position]? with
  | none => rfl
  | some before =>
    cases flow[position + 1]? with
    | none => rfl
    | some after =>
      refine bind_congr_map (g := id) (id_map _).symm fun index => ?_
      rw [map_pure, List.map_append, List.map_cons, recast_mk, ← List.map_take, ← List.map_drop, Tree.box_recast,
        Tree.box_recast, spacerNode_recast]
      rfl

theorem justifyChildren_recast (owner : Node) (flow : List Tree) :
    justifyChildren (owner.recast d) (flow.map (Tree.recast d)) =
      Prod.map (Node.recast d) (List.map (Tree.recast d)) <$> justifyChildren owner flow := by
  unfold justifyChildren
  rw [Node.direction_recast, List.isEmpty_map]
  cases owner.direction with
  | none => rfl
  | some axis =>
    have hplan := mainPlan_recast d axis owner (flow.map node)
    rw [← map_node_recast] at hplan
    dsimp only
    rw [hplan, Node.pushWords_recast d owner (isWord_mainPlan _ axis), Node.box_recast]
    split
    · rfl
    · have hplaced (p : MainPlan) {f : List MainToken × Tree → Tree}
          (hf : ∀ ts t, f (ts, Tree.recast d t) = (f (ts, t)).recast d) :
          (p.children.zip (flow.map (Tree.recast d))).map f =
            ((p.children.zip flow).map f).map (Tree.recast d) := by
        rw [List.zip_map_right, List.map_map, List.map_map]
        exact List.map_congr_left fun q _ => hf q.1 q.2
      rw [hplaced _ fun ts t => mapNode_recast d t (f := fun n => n.pushAll _) fun n =>
        Node.pushWords_recast d n (List.forall_mem_map.2 fun t _ => isWord_mainToken axis t)]
      cases (mainPlan owner axis (flow.map node)).plan with
      | spacer k =>
        refine bind_congr_map (insertSpacer_recast d axis _ k _) fun flow => ?_
        rw [map_pure]
        rfl
      | _ => rfl

end placement

section sizes

theorem fillSizing_recast (n : Node) : fillSizing (n.recast d) axis = (fillSizing n axis).recast d := by
  simp only [fillSizing, Node.sizing_recast, defaultSizing, Node.isText_recast, Node.multiLine_recast,
    Node.direction_recast, Node.setSizing_recast]
  split <;> rfl

theorem widened_recast (owner : Box) (n : Node) :
    widened (owner.recast d) axis (n.recast d) = (widened owner axis n).recast d := by
  unfold widened isPlainWrapper
  simp only [Node.isGenerated_recast, Node.direction_recast, Node.roles_recast, Node.hasRole_recast,
    Node.box_recast, Box.start_translate, Box.stop_translate, Box.withSpan_translate]
  split
  · rw [← Node.setSizing_recast]
    simp only [Node.recast_eq]
  · rfl

theorem definite_recast (owner n : Node) :
    definite (owner.recast d) (n.recast d) = (definite owner n).recast d := by
  unfold definite
  rw [Node.wraps_recast, Node.width_recast, Node.width_recast, Node.with_width_recast]
  split <;> rfl

theorem stretched_recast (owner n : Node) :
    stretched (owner.recast d) axis (n.recast d) = (stretched owner axis n).recast d := by
  unfold stretched canStretch
  rw [Node.sizing_recast, Node.isImage_recast, Node.roles_recast, Node.hasRole_recast, Node.isText_recast,
    Node.multiLine_recast, Node.box_recast, Node.box_recast, Box.start_translate, Box.start_translate,
    Box.stop_translate, Box.stop_translate, Int.add_sub_add_right, Int.add_sub_add_right, Node.setSizing_recast]
  split <;> rfl

theorem sized_recast (o : Options) (owner n : Node) :
    sized o (owner.recast d) axis (n.recast d) = (sized o owner axis n).recast d := by
  unfold sized
  rw [Node.hasRole_recast, Node.with_sizes_recast, Node.box_recast, widened_recast, fillSizing_recast,
    fillSizing_recast, definite_recast, stretched_recast]
  split <;> rfl

theorem settleAxis_recast (flow : List Tree) (n : Node) :
    settleAxis (flow.map (Tree.recast d)) (n.recast d) axis = (settleAxis flow n axis).recast d := by
  unfold settleAxis
  rw [List.all_map, Node.sizing_recast, Node.setSizing_recast]
  simp only [Function.comp_def, node_recast, Node.sizing_recast]
  split <;> rfl

theorem settleAuto_recast (n : Node) (flow : List Tree) :
    settleAuto (n.recast d) (flow.map (Tree.recast d)) = (settleAuto n flow).recast d := by
  unfold settleAuto
  rw [Node.hasRole_recast, List.isEmpty_map, settleAxis_recast, settleAxis_recast]
  split <;> rfl

theorem withSizes_recast (owner : Node) (flow : List Tree) :
    withSizes (owner.recast d) (flow.map (Tree.recast d)) = (withSizes owner flow).map (Tree.recast d) := by
  have htokens (direction : Axis) (isStretching : Bool) (n : Node) (axis : Axis) :
      sizeTokens direction isStretching (n.recast d) axis = sizeTokens direction isStretching n axis := by
    simp only [sizeTokens, Node.sizing_recast, extentToken, Node.box_recast, Box.extent_translate]
  unfold withSizes
  rw [Node.direction_recast, Node.align_recast]
  cases owner.direction with
  | none => rfl
  | some direction =>
    dsimp only
    rw [List.map_map, List.map_map]
    refine List.map_congr_left fun t _ => mapNode_recast d t
      (f := fun n => n.pushAll (sizeTokens direction _ n .row ++ sizeTokens direction _ n .column)) fun n => ?_
    rw [htokens, htokens]
    exact Node.pushWords_recast d n
      (List.forall_mem_append.2 ⟨isWord_sizeTokens _ _ n .row, isWord_sizeTokens _ _ n .column⟩)

end sizes

section overflow

def Slot.recast (s : Slot) : Slot := ⟨s.node.recast d, s.wrapper.map (Node.recast d)⟩

theorem space_recast (owner : Box) (direction : Axis) (n : Node) (next : Option Node) :
    space (owner.recast d) direction (n.recast d) (next.map (Node.recast d)) = space owner direction n next := by
  cases direction <;> cases next <;>
    simp only [space, Option.map_some, Option.map_none, Node.box_recast, Box.left_translate, Box.right_translate,
      Int.add_sub_add_right]

theorem overflowBox_recast (owner inner : Box) :
    overflowBox (owner.recast d) (inner.recast d) = (overflowBox owner inner).recast d := by
  unfold overflowBox
  rw [Box.left_translate, Box.left_translate, Box.top_translate, Box.right_translate, Box.bottom_translate,
    Int.add_sub_add_right, Box.recast, ← Box.ofEdges_translate]
  congr 1
  omega

theorem overflowWrapper_recast (owner : Node) (index : Nat) (b : Box) :
    overflowWrapper (owner.recast d) index (b.recast d) = (overflowWrapper owner index b).recast d := by
  unfold overflowWrapper
  rw [Node.width_recast, Node.recast_eq]
  rfl

theorem bounded_recast (owner : Node) (direction : Axis) (n : Node) (next : Option Node) :
    bounded (owner.recast d) direction (n.recast d) (next.map (Node.recast d)) =
      Slot.recast d <$> bounded owner direction n next := by
  have hreach : owner.box.right + d .row - (n.box.left - owner.box.left) ≤ n.box.right + d .row ↔
      owner.box.right - (n.box.left - owner.box.left) ≤ n.box.right := by omega
  have hmax (v : Int) : (n.recast d).push (maxWidth v) = (n.push (maxWidth v)).recast d :=
    Node.push_recast d n (d.words (isWord_maxWidth v))
  have hfull : (n.recast d).push "max-w-full" = (n.push "max-w-full").recast d :=
    Node.push_recast d n (d.words (by decide))
  unfold bounded
  simp only [Node.box_recast, space_recast, Box.left_translate, Box.right_translate, Box.width_translate,
    Int.add_sub_add_right, hmax, hfull, hreach, overflowBox_recast, overflowWrapper_recast]
  split
  · rfl
  · split
    · rfl
    · split <;> rfl

end overflow

section pinning

theorem pinPrepared_recast (owner : Box) (n : Node) :
    pinPrepared (owner.recast d) (n.recast d) = (pinPrepared owner n).recast d := by
  have hfill (m : Node) (axis : Axis) :
      fillPinned (owner.recast d) (m.recast d) axis = (fillPinned owner m axis).recast d := by
    simp only [fillPinned, pinnedSizing, Node.box_recast, between_recast, Node.sizing_recast,
      Node.direction_recast, Node.setSizing_recast]
    split <;> rfl
  unfold pinPrepared
  rw [hfill, hfill]

theorem pinned_recast (owner : Box) (n : Node) :
    pinned (owner.recast d) (n.recast d) = (pinned owner n).recast d := by
  have hpins (axis : Axis) : pins (owner.recast d) (n.recast d) axis = pins owner n axis := by
    simp only [pins, Node.box_recast, between_recast, Node.sizing_recast, Box.extent_translate]
  unfold pinned positionTokens
  rw [hpins, hpins]
  exact Node.pushAll_recast d n fun t ht => d.pins (opens_positionTokens owner n t ht)

end pinning

theorem finish_recast (n : Node) (flow : List Tree) : finish (n.recast d) (flow.map (Tree.recast d)) =
    Prod.map (Node.recast d) (List.map (Tree.recast d)) <$> finish n flow := by
  have hbutton (m : Node) (flow : List Tree) : isButton (m.recast d) (flow.map (Tree.recast d)) = isButton m flow := by
    match flow with
    | [] => rfl
    | [only] =>
      simp only [isButton, List.map_cons, List.map_nil, Node.isGenerated_recast, Node.isPainted_recast,
        node_recast, Node.isText_recast, Node.multiLine_recast, Tree.box_recast, Node.box_recast,
        between_recast]
    | _ :: _ :: _ => rfl
  have hlast (m : Node) (flow : List Tree) :
      (pure (if isButton (m.recast d) (withSizes (m.recast d) (flow.map (Tree.recast d))) then
          (m.recast d).addRole .button else m.recast d, withSizes (m.recast d) (flow.map (Tree.recast d))) :
        Journaled (Node × List Tree)) = Prod.map (Node.recast d) (List.map (Tree.recast d)) <$>
          pure (if isButton m (withSizes m flow) then m.addRole .button else m, withSizes m flow) := by
    rw [withSizes_recast, hbutton, Node.addRole_recast, map_pure]
    split <;> rfl
  unfold finish
  rw [settleAuto_recast]
  dsimp only
  rw [Node.direction_recast]
  cases (settleAuto n flow).direction with
  | none => rfl
  | some direction =>
    dsimp only
    rw [Node.pushWords_recast d _ (isWord_flex direction), Node.hasRole_recast]
    split
    · exact hlast _ _
    · rw [alignChildren_recast]
      exact bind_congr_map (justifyChildren_recast d _ _) fun p => hlast p.1 p.2

end FlexRecovery.Resolve
