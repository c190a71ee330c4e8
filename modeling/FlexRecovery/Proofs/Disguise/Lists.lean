import FlexRecovery.Proofs.Listing
import FlexRecovery.Proofs.Disguise.Passes

/-!
Lines, runs, lists and tables of siblings in disguise. A box is drawn around members only where there are some, so
the one box that does not follow its members, the hull of none, is never drawn.
-/

namespace FlexRecovery.Regroup

open Tree Journaled

variable (d : Disguise)

section splits

theorem splitByLoop_map {α β : Type} (r : β → β → Bool) (g : α → β) (l : List α) (a : α) (group : List α)
    (groups : List (List α)) : List.splitBy.loop r (l.map g) (g a) (group.map g) (groups.map (List.map g)) =
      (List.splitBy.loop (fun a b => r (g a) (g b)) l a group groups).map (List.map g) := by
  induction l generalizing a group groups with
  | nil => simp [List.splitBy.loop]
  | cons b l ih =>
    rw [List.map_cons, List.splitBy.loop, List.splitBy.loop]
    cases r (g a) (g b) with
    | true => exact ih b (a :: group) groups
    | false =>
      have h := ih b [] ((a :: group).reverse :: groups)
      rw [List.map_cons, List.map_reverse] at h
      exact h

theorem splitBy_map {α β : Type} (r : β → β → Bool) (g : α → β) (l : List α) :
    (l.map g).splitBy r = (l.splitBy fun a b => r (g a) (g b)).map (List.map g) := by
  cases l with
  | nil => rfl
  | cons a l => exact splitByLoop_map r g l a [] []

end splits

theorem wrapped_recast (b : Box) (direction : Axis) (roles : List Role) (members : List Tree) :
    wrapped (b.recast d) direction roles (members.map (Tree.recast d)) =
      Tree.recast d <$> wrapped b direction roles members := by
  unfold wrapped
  refine bind_congr_map (g := id) (id_map _).symm fun index => ?_
  rw [map_pure, recast_mk, id]
  simp only [Node.recast_eq]
  rfl

namespace Line

def recast (cross : Axis) (l : Line) : Line :=
  ⟨l.items.map (Sibling.recast d), l.crossStart + d cross, l.crossStop + d cross⟩

variable (cross axis : Axis)

theorem single_recast (s : Sibling) : single cross (s.recast d) = (single cross s).recast d cross := by
  simp only [single, recast, Sibling.box_recast, Box.start_translate, Box.stop_translate, List.map_cons, List.map_nil]

theorem takes_recast (l : Line) (s : Sibling) :
    (l.recast d cross).takes cross (s.recast d) = l.takes cross s := by
  simp only [takes, recast, Sibling.box_recast, Box.start_translate, Box.stop_translate, Box.extent_translate,
    decide_eq_decide]
  omega

theorem add_recast (l : Line) (s : Sibling) :
    (l.recast d cross).add cross (s.recast d) = (l.add cross s).recast d cross := by
  simp only [add, recast, Sibling.box_recast, Box.stop_translate, List.map_append, List.map_cons, List.map_nil,
    Line.mk.injEq, true_and]
  omega

theorem gather_recast (l : Line) (ss : List Sibling) :
    gather cross (l.recast d cross) (ss.map (Sibling.recast d)) =
      (gather cross l ss).map (recast d cross) := by
  induction ss generalizing l with
  | nil => rfl
  | cons s ss ih =>
    rw [List.map_cons, gather, gather, takes_recast, add_recast, single_recast, ih, ih]
    split <;> rfl

theorem sorted_recast (l : Line) : (l.recast d cross).sorted axis = (l.sorted axis).recast d cross := by
  simp only [sorted, recast, Line.mk.injEq, and_true]
  exact sortByKey_map (d axis) fun s _ => by rw [Sibling.box_recast, Box.start_translate]

theorem before_recast (a b : Sibling) : before axis (a.recast d) (b.recast d) = before axis a b := by
  simp only [before, Sibling.box_recast, Box.start_translate, decide_eq_decide]
  omega

theorem collect_recast (ss : List Sibling) :
    collect axis (ss.map (Sibling.recast d)) = (collect axis ss).map (recast d axis.cross) := by
  unfold collect
  rw [stableSort_map fun a _ b _ => before_recast d axis a b]
  cases stableSort (before axis) ss with
  | nil => rfl
  | cons s rest =>
    rw [List.map_cons]
    dsimp only
    rw [single_recast, gather_recast, List.map_map, List.map_map]
    exact List.map_congr_left fun l _ => sorted_recast d _ axis l

end Line

section runs

theorem sameKind_recast (a b : Sibling) : sameKind (a.recast d) (b.recast d) = sameKind a b := by
  simp only [sameKind, Sibling.node_recast, Node.tag_recast, Sibling.tree_recast, flow_recast, List.length_map]

theorem sameSize_recast (a b : Box) : sameSize (a.recast d) (b.recast d) = sameSize a b := rfl

theorem gaps_siblings_recast (axis : Axis) (ss : List Sibling) :
    Box.gaps axis ((ss.map (Sibling.recast d)).map Sibling.box) = Box.gaps axis (ss.map Sibling.box) := by
  rw [Sibling.map_box_recast, Box.gaps_translate]

namespace Run

theorem matching_recast (axis : Axis) (period : Nat) (a b : Sibling) :
    matching axis period (a.recast d) (b.recast d) = matching axis period a b := by
  simp only [matching, sameKind_recast, Sibling.box_recast, Box.extent_translate]

theorem repeatsShapes_recast (axis : Axis) (items : List Sibling) (start period next : Nat) :
    repeatsShapes axis (items.map (Sibling.recast d)) start period next = repeatsShapes axis items start period next := by
  unfold repeatsShapes
  refine congrArg _ (funext fun i => ?_)
  rw [List.getElem?_map, List.getElem?_map]
  cases items[start + i]? with
  | none => rfl
  | some a =>
    cases items[start + next * period + i]? with
    | none => rfl
    | some b => exact matching_recast d axis period a b

theorem continues_recast (axis : Axis) (items : List Sibling) (gaps : List Int) (start period : Nat) :
    continues axis (items.map (Sibling.recast d)) gaps start period = continues axis items gaps start period := by
  funext next
  rw [continues, continues, List.length_map, repeatsShapes_recast]

theorem find_recast (axis : Axis) (items : List Sibling) :
    find axis (items.map (Sibling.recast d)) = find axis items := by
  unfold find candidates longest
  simp only [gaps_siblings_recast, List.length_map, continues_recast]

theorem items_map {α β : Type} (r : Run) (g : α → β) (l : List α) : r.items (l.map g) = (r.items l).map g := by
  rw [items, items, List.map_take, List.map_drop]

theorem group_map {α β : Type} (r : Run) (g : α → β) (l : List α) (k : Nat) :
    r.group (l.map g) k = (r.group l k).map g := by
  rw [group, group, List.map_take, List.map_drop]

end Run

end runs

namespace Track

def recast (cross : Axis) (t : Track) : Track := ⟨t.line.recast d cross, t.run⟩

variable (cross axis : Axis)

theorem items_recast (t : Track) : (t.recast d cross).items = t.items.map (Sibling.recast d) :=
  Run.items_map ..

theorem group_recast (t : Track) (k : Nat) : (t.recast d cross).group k = (t.group k).map (Sibling.recast d) :=
  Run.group_map ..

theorem offsets_recast (t : Track) : (t.recast d cross).offsets axis = t.offsets axis := by
  unfold offsets
  rw [items_recast]
  cases t.items with
  | nil => rfl
  | cons s rest =>
    rw [List.map_cons]
    dsimp only
    rw [← List.map_cons, List.map_map]
    refine List.map_congr_left fun i _ => ?_
    simp only [Function.comp, Sibling.box_recast, Box.start_translate, Int.add_sub_add_right]

theorem sameStructure_recast (a b : Track) :
    (a.recast d cross).sameStructure axis (b.recast d cross) = a.sameStructure axis b := by
  unfold sameStructure
  rw [offsets_recast, offsets_recast]
  rfl

end Track

theorem chains_recast (cross axis : Axis) (lines : List Line) : chains axis (lines.map (Line.recast d cross)) =
    (chains axis lines).map (List.map (Track.recast d cross)) := by
  have htracks : tracks axis (lines.map (Line.recast d cross)) =
      (tracks axis lines).map (Option.map (Track.recast d cross)) := by
    unfold tracks
    rw [List.map_map, List.map_map]
    refine List.map_congr_left fun l _ => ?_
    have hr : Run.find axis (l.recast d cross).items = Run.find axis l.items := Run.find_recast d axis l.items
    simp only [Function.comp, hr, Option.map_map]
    rfl
  have hlinked :
      (fun a b : Option Track => linked axis (a.map (Track.recast d cross)) (b.map (Track.recast d cross))) =
      linked axis := by
    funext a b
    cases a <;> cases b <;> simp [linked, Track.sameStructure_recast]
  unfold chains
  rw [htracks, splitBy_map, hlinked, List.map_map, List.map_map]
  refine List.map_congr_left fun c _ => ?_
  simp only [Function.comp, List.filterMap_map, List.map_filterMap]
  rfl

theorem flatMap_recast {α : Type} (part : α → List Sibling) {part' : α → List Sibling}
    (h : ∀ a, part' a = (part a).map (Sibling.recast d)) (as : List α) :
    as.flatMap part' = (as.flatMap part).map (Sibling.recast d) := by
  rw [List.map_flatMap]
  exact List.flatMap_congr fun a _ => h a

section making

theorem trees_recast (ss : List Sibling) :
    trees (ss.map (Sibling.recast d)) = (trees ss).map (Tree.recast d) := by
  unfold trees
  rw [List.map_map, List.map_map]
  rfl

theorem positions_recast (ss : List Sibling) : positions (ss.map (Sibling.recast d)) = positions ss := by
  unfold positions
  rw [List.map_map]
  rfl

theorem replace_recast (taken : List Nat) (made : Tree) (ss : List Sibling) :
    Sibling.replace taken (made.recast d) (ss.map (Sibling.recast d)) =
      (Sibling.replace taken made ss).map (Sibling.recast d) := by
  induction ss with
  | nil => rfl
  | cons s rest ih =>
    have hrest := Sibling.filter_recast d (p := fun r => !taken.contains r.position)
      (q := fun r => !taken.contains r.position) (fun _ => rfl) rest
    rw [List.map_cons, Sibling.replace, Sibling.replace, ih, hrest, Sibling.position_recast]
    split <;> rfl

theorem placed_recast (owner : Option DesignId) (rule message : String) (siblings members : List Sibling) (made : Tree) :
    placed owner rule message (siblings.map (Sibling.recast d)) (members.map (Sibling.recast d)) (made.recast d) =
      List.map (Sibling.recast d) <$> placed owner rule message siblings members made := by
  unfold placed
  rw [map_bind]
  refine bind_congr fun _ => ?_
  rw [map_pure, positions_recast, replace_recast]

theorem isClear_recast (siblings : List Sibling) {members : List Sibling} (h : members ≠ []) :
    isClear (siblings.map (Sibling.recast d)) (members.map (Sibling.recast d)) = isClear siblings members := by
  unfold isClear Sibling.overlapsOther
  rw [positions_recast, Sibling.hull_recast d h, List.any_map]
  simp only [Function.comp_def, Sibling.position_recast, Sibling.box_recast, Box.overlaps_translate]

theorem listItem_recast (axis : Axis) {g : List Sibling} (hg : 1 ≤ g.length) :
    listItem axis (g.map (Sibling.recast d)) = Tree.recast d <$> listItem axis g := by
  match g with
  | [s] =>
    have h := mapNode_recast d s.tree (f := (·.addRole .listItem)) fun n => Node.addRole_recast d n .listItem
    rw [List.map_cons, List.map_nil, listItem, listItem, map_pure, Sibling.tree_recast, h]
  | s :: s' :: rest =>
    have h := wrapped_recast d (Sibling.hull (s :: s' :: rest)) axis [.listItem] (trees (s :: s' :: rest))
    rw [← Sibling.hull_recast d (List.cons_ne_nil _ _), ← trees_recast] at h
    exact h

variable (axis cross : Axis)

theorem listItems_recast {t : Track} (ht : t.Fits) :
    listItems axis (t.recast d cross) = List.map (Tree.recast d) <$> listItems axis t := by
  unfold listItems
  have h := mapM_congr_map (g := id) (h := Tree.recast d) (f := fun k => listItem axis (t.group k))
    (k := fun k => listItem axis ((t.recast d cross).group k)) fun k (hk : k ∈ List.range t.run.groups) => by
      rw [id, Track.group_recast]
      exact listItem_recast d axis (ht.length_group (List.mem_range.1 hk))
  rw [List.map_id] at h
  exact h

theorem flatMapM_listItems_recast {chain : List Track} (h : ∀ t ∈ chain, t.Fits) :
    (chain.map (Track.recast d cross)).flatMapM (listItems axis) =
      List.map (Tree.recast d) <$> chain.flatMapM (listItems axis) := by
  induction chain with
  | nil => rfl
  | cons t chain ih =>
    rw [List.map_cons, List.flatMapM_cons, List.flatMapM_cons]
    refine bind_congr_map (listItems_recast d axis cross (h t (List.mem_cons_self ..))) fun items => ?_
    refine bind_congr_map (ih fun u hu => h u (List.mem_cons_of_mem _ hu)) fun rest => ?_
    rw [map_pure, List.map_append]

theorem standsAlone_recast (t : Track) : standsAlone (t.recast d cross) = standsAlone t := by
  unfold standsAlone
  rw [Track.items_recast, List.all_map]
  simp only [Function.comp_def, Sibling.node_recast, Node.isBareText_recast]
  rfl

theorem makeSingle_recast (owner : Option DesignId) (siblings : List Sibling) {t : Track} (ht : t.Fits) :
    makeSingle owner axis (siblings.map (Sibling.recast d)) (t.recast d cross) =
      List.map (Sibling.recast d) <$> makeSingle owner axis siblings t := by
  unfold makeSingle
  refine bind_congr_map (listItems_recast d axis cross ht) fun items => ?_
  rw [Track.items_recast, Sibling.hull_recast d ht.items_ne_nil]
  refine bind_congr_map (wrapped_recast d _ axis _ items) fun list => ?_
  rw [List.length_map]
  exact placed_recast d owner _ _ siblings t.items list

theorem items_chain_recast (chain : List Track) : (chain.map (Track.recast d cross)).flatMap Track.items =
    (chain.flatMap Track.items).map (Sibling.recast d) := by
  rw [List.flatMap_map]
  exact flatMap_recast d _ (Track.items_recast d cross) chain

theorem gridGap_recast (chain : List Track) : gridGap (chain.map (Track.recast d cross)) = gridGap chain := by
  cases chain with
  | nil => rfl
  | cons first rest =>
    have huniform (t : Track) {f : Sibling × Sibling → Bool}
        (hf : ∀ a b : Sibling, f (a.recast d, b.recast d) = f (a, b)) :
        ((t.recast d cross).items.zip (first.recast d cross).items).all f = (t.items.zip first.items).all f := by
      rw [Track.items_recast, Track.items_recast, List.zip_map, List.all_map]
      exact congrArg _ (funext fun p => hf p.1 p.2)
    have hspaces {f : Track × Track → Int}
        (hf : ∀ a b : Track, f (a.recast d cross, b.recast d cross) = f (a, b)) :
        ((first.recast d cross :: rest.map (Track.recast d cross)).zip (rest.map (Track.recast d cross))).map f =
          ((first :: rest).zip rest).map f := by
      rw [← List.map_cons, List.zip_map, List.map_map]
      exact List.map_congr_left fun p _ => hf p.1 p.2
    rw [List.map_cons]
    dsimp only [gridGap]
    rw [hspaces fun a b => Int.add_sub_add_right ..]
    simp only [huniform, List.all_cons, List.all_map, Function.comp_def, sameKind_recast, Sibling.box_recast,
      sameSize_recast, implies_true]

theorem groupGap_recast (t : Track) : groupGap axis (t.recast d cross) = groupGap axis t := by
  unfold groupGap
  rw [Track.group_recast, Track.group_recast, List.getLast?_map, List.head?_map]
  cases (t.group 0).getLast? with
  | none => rfl
  | some a =>
    cases (t.group 1).head? with
    | none => rfl
    | some b =>
      simp only [Option.map_some, Sibling.box_recast, Box.start_translate, Box.stop_translate, Int.add_sub_add_right]

theorem makeGrid_recast (owner : Option DesignId) (siblings : List Sibling) {chain : List Track}
    (hc : chain.flatMap Track.items ≠ []) (h : ∀ t ∈ chain, t.Fits) (rowGap : Int) :
    makeGrid owner (siblings.map (Sibling.recast d)) (chain.map (Track.recast d cross)) rowGap =
      List.map (Sibling.recast d) <$> makeGrid owner siblings chain rowGap := by
  have hgap : (chain.map (Track.recast d cross)).head?.elim 0 (groupGap .row) = chain.head?.elim 0 (groupGap .row) := by
    cases chain with
    | nil => rfl
    | cons t chain => exact groupGap_recast d .row cross t
  have htokens (across : Int) : ∀ t ∈ ["flex-wrap", "gap-x-" ++ px across, "gap-y-" ++ px rowGap],
      d.drops t = false := by
    simp only [List.forall_mem_cons]
    exact ⟨d.words (by decide), d.words (Opens.append (by decide) _), d.words (Opens.append (by decide) _), by simp⟩
  unfold makeGrid
  rw [hgap, items_chain_recast]
  refine bind_congr_map (flatMapM_listItems_recast d .row cross h) fun items => ?_
  rw [Sibling.hull_recast d hc]
  refine bind_congr_map (wrapped_recast d _ .row _ items) fun list => ?_
  rw [List.length_map, mapNode_recast d list fun n => Node.pushAll_recast d n (htokens _)]
  exact placed_recast d owner _ _ siblings _ _

theorem sharedAlign_recast (axis : Axis) (g : List Sibling) :
    sharedAlign axis (g.map (Sibling.recast d)) = sharedAlign axis g := by
  cases g with
  | nil => rfl
  | cons s g =>
    simp only [sharedAlign, List.map_cons, List.all_cons, List.all_map, Function.comp_def, Sibling.box_recast,
      Box.start_translate, Box.stop_translate, close_add_add, close_add]
    rfl

theorem makeZipped_recast (owner : Option DesignId) (siblings : List Sibling) {chain : List Track}
    (hc : chain.flatMap Track.items ≠ [])
    (hg : ∀ k < chain.head?.elim 0 (·.run.groups), chain.flatMap (·.group k) ≠ []) :
    makeZipped owner axis (siblings.map (Sibling.recast d)) (chain.map (Track.recast d cross)) =
      List.map (Sibling.recast d) <$> makeZipped owner axis siblings chain := by
  have hcount : (chain.map (Track.recast d cross)).head?.elim 0 (·.run.groups) = chain.head?.elim 0 (·.run.groups) := by
    cases chain <;> rfl
  have hgroup (k : Nat) : (chain.map (Track.recast d cross)).flatMap (·.group k) =
      (chain.flatMap (·.group k)).map (Sibling.recast d) := by
    rw [List.flatMap_map]
    exact flatMap_recast d _ (fun t => Track.group_recast d cross t k) chain
  have hgroups : (List.range (chain.head?.elim 0 (·.run.groups))).map
      (fun k => (chain.map (Track.recast d cross)).flatMap (·.group k)) =
        ((List.range (chain.head?.elim 0 (·.run.groups))).map fun k => chain.flatMap (·.group k)).map
          (List.map (Sibling.recast d)) := by
    rw [List.map_map]
    exact List.map_congr_left fun k _ => hgroup k
  have hne : ∀ g ∈ (List.range (chain.head?.elim 0 (·.run.groups))).map (fun k => chain.flatMap (·.group k)),
      g ≠ [] :=
    List.forall_mem_map.2 fun k hk => hg k (List.mem_range.1 hk)
  unfold makeZipped
  dsimp only
  rw [hcount, hgroups, items_chain_recast]
  generalize (List.range (chain.head?.elim 0 (·.run.groups))).map (fun k => chain.flatMap (·.group k)) = groups at hne
  have hwrap := mapM_congr_map (g := List.map (Sibling.recast d)) (h := Tree.recast d)
    (f := fun g => wrapped (Sibling.hull g) axis.cross [.listItem] (trees g))
    (k := fun g => wrapped (Sibling.hull g) axis.cross [.listItem] (trees g)) fun g (hg : g ∈ groups) => by
      rw [Sibling.hull_recast d (hne g hg), trees_recast]
      exact wrapped_recast d _ _ _ _
  refine bind_congr_map hwrap fun items => ?_
  have haligns : (groups.map (List.map (Sibling.recast d))).map (sharedAlign axis) = groups.map (sharedAlign axis) := by
    rw [List.map_map]
    exact List.map_congr_left fun g _ => sharedAlign_recast d axis g
  have hitems (align : Option Align) :
      (items.map (Tree.recast d)).map (fun t => t.mapNode fun n => { n with align := align <|> n.align }) =
        (items.map fun t => t.mapNode fun n => { n with align := align <|> n.align }).map (Tree.recast d) := by
    rw [List.map_map, List.map_map]
    refine List.map_congr_left fun t _ => ?_
    refine mapNode_recast d t (f := fun n => { n with align := align <|> n.align }) fun n => ?_
    rw [Node.align_recast]
    exact Node.with_align_recast d n _
  rw [haligns, hitems, Sibling.hull_recast d hc]
  refine bind_congr_map (wrapped_recast d _ axis _ _) fun list => ?_
  rw [List.length_map]
  exact placed_recast d owner _ _ siblings _ list

theorem makeList_recast (owner : Option DesignId) (siblings : List Sibling) {chain : List Track}
    (h : ∀ t ∈ chain, t.Fits) :
    makeList owner axis (siblings.map (Sibling.recast d)) (chain.map (Track.recast d cross)) =
      List.map (Sibling.recast d) <$> makeList owner axis siblings chain := by
  match chain with
  | [] => rfl
  | [t] =>
    have ht := h t (List.mem_singleton_self t)
    simp only [List.map_cons, List.map_nil, makeList, standsAlone_recast, Track.items_recast,
      isClear_recast d siblings ht.items_ne_nil]
    split
    · exact makeSingle_recast d axis cross owner siblings ht
    · rw [map_pure]
  | t :: u :: rest =>
    have hne : (t :: u :: rest).flatMap Track.items ≠ [] := items_ne_nil (by simp) h
    have hclear := isClear_recast d siblings hne
    have hgroups : ∀ k < t.run.groups, (t :: u :: rest).flatMap (·.group k) ≠ [] := by
      intro k hk
      obtain ⟨s, hs⟩ := List.exists_mem_of_length_pos ((h t (List.mem_cons_self ..)).length_group hk)
      exact List.ne_nil_of_mem (List.mem_flatMap.2 ⟨t, List.mem_cons_self .., hs⟩)
    rw [← items_chain_recast d cross] at hclear
    have hgap := gridGap_recast d cross (t :: u :: rest)
    simp only [List.map_cons] at hclear hgap ⊢
    simp only [makeList, hclear, hgap]
    have hzipped := makeZipped_recast d axis cross owner siblings hne hgroups
    have hgrid := makeGrid_recast d cross owner siblings hne h
    split
    · rw [map_pure]
    · split
      · exact hgrid _
      · exact hzipped

theorem listsAlong_recast (axis : Axis) (t : Tree) :
    listsAlong axis (t.recast d) = Tree.recast d <$> listsAlong axis t := by
  unfold listsAlong
  rw [flow_recast, Sibling.list_recast]
  dsimp only
  rw [Line.collect_recast, chains_recast, node_recast, Node.id_recast]
  refine bind_congr_map (g := List.map (Sibling.recast d)) ?_ fun made => ?_
  · refine foldlM_congr_map (fun siblings chain hc => ?_) _
    exact makeList_recast d axis axis.cross t.node.id siblings (fits_of_mem_chains hc).1
  · rw [map_pure, trees_recast, recast_mk, attached_recast]

end making

section tables

variable (cross : Axis)

theorem isTableRow_recast (l : Line) : isTableRow (l.recast d cross) = isTableRow l := by
  have hgaps := gaps_siblings_recast d .row l.items
  have hl : (l.recast d cross).items = l.items.map (Sibling.recast d) := rfl
  unfold isTableRow
  rw [hl]
  match l.items, hgaps with
  | [], _ => rfl
  | [s], _ => rfl
  | first :: second :: rest, hgaps =>
    simp only [List.map_cons, Sibling.box_recast] at hgaps ⊢
    simp only [hgaps, List.all_cons, List.all_map, Function.comp_def, sameKind_recast, Sibling.box_recast,
      sameSize_recast]

theorem columnMatches_recast (a b : Box) : columnMatches (a.recast d) (b.recast d) = columnMatches a b := by
  simp only [columnMatches, Box.left_translate, Box.right_translate, close_add, close_add_add]

theorem sameTable_recast (a b : Line) : sameTable (a.recast d cross) (b.recast d cross) = sameTable a b := by
  have hcolumns : columnsMatch (a.recast d cross) (b.recast d cross) = columnsMatch a b := by
    simp only [columnsMatch, Line.recast, List.length_map, List.zip_map, List.all_map]
    refine congrArg _ (congrArg _ (funext fun p => ?_))
    simp only [Function.comp, Prod.map, Sibling.box_recast, columnMatches_recast]
  simp only [sameTable, isTableRow_recast, hcolumns]

theorem makeTable_recast (owner : Option DesignId) (siblings : List Sibling) {rows : List Line} (hr : rows ≠ [])
    (h : ∀ l ∈ rows, l.items ≠ []) :
    makeTable owner (siblings.map (Sibling.recast d)) (rows.map (Line.recast d cross)) =
      List.map (Sibling.recast d) <$> makeTable owner siblings rows := by
  have hmembers : (rows.map (Line.recast d cross)).flatMap (·.items) =
      (rows.flatMap (·.items)).map (Sibling.recast d) := by
    rw [List.flatMap_map]
    exact flatMap_recast d _ (fun _ => rfl) rows
  have hne : rows.flatMap (·.items) ≠ [] := by
    obtain ⟨l, hl⟩ := List.exists_mem_of_ne_nil _ hr
    obtain ⟨s, hs⟩ := List.exists_mem_of_ne_nil _ (h l hl)
    exact List.ne_nil_of_mem (List.mem_flatMap.2 ⟨l, hl, hs⟩)
  have hwidth : (rows.map (Line.recast d cross)).head?.elim 0 (·.items.length) =
      rows.head?.elim 0 (·.items.length) := by
    cases rows with
    | nil => rfl
    | cons l rows => exact List.length_map ..
  have htable : isTable (rows.map (Line.recast d cross)) = isTable rows := by
    simp only [isTable, List.length_map, hwidth]
  unfold makeTable
  dsimp only
  rw [hmembers, htable, isClear_recast d siblings hne, List.length_map, hwidth]
  split
  · have hrows := mapM_congr_map (g := Line.recast d cross) (h := Tree.recast d)
      (f := fun l => wrapped (Sibling.hull l.items) .row [.tableRow] (trees l.items))
      (k := fun l => wrapped (Sibling.hull l.items) .row [.tableRow] (trees l.items)) fun l hl => by
        have hw := wrapped_recast d (Sibling.hull l.items) .row [.tableRow] (trees l.items)
        rw [← Sibling.hull_recast d (h l hl), ← trees_recast] at hw
        exact hw
    refine bind_congr_map hrows fun made => ?_
    rw [Sibling.hull_recast d hne]
    refine bind_congr_map (wrapped_recast d _ .column _ made) fun body => ?_
    exact placed_recast d owner _ _ siblings _ body
  · rw [map_pure]

theorem tables_recast (t : Tree) : tables (t.recast d) = Tree.recast d <$> tables t := by
  unfold tables
  rw [flow_recast, Sibling.list_recast]
  dsimp only
  have hlines : ((Line.collect .row (Sibling.list t.flow)).map (Line.recast d .column)).splitBy sameTable =
      ((Line.collect .row (Sibling.list t.flow)).splitBy sameTable).map (List.map (Line.recast d .column)) := by
    rw [splitBy_map]
    simp only [sameTable_recast]
  rw [Line.collect_recast, Axis.cross, hlines, node_recast, Node.id_recast]
  refine bind_congr_map (g := List.map (Sibling.recast d)) ?_ fun made => ?_
  · refine foldlM_congr_map (fun siblings rows hr => ?_) _
    refine makeTable_recast d .column t.node.id siblings (List.ne_nil_of_mem_splitBy hr) fun l hl => ?_
    have hmem : l ∈ Line.collect .row (Sibling.list t.flow) := by
      rw [← List.flatten_splitBy sameTable (Line.collect .row (Sibling.list t.flow))]
      exact List.mem_flatten.2 ⟨rows, hr, hl⟩
    exact Line.items_ne_nil_of_mem_collect hmem
  · rw [map_pure, trees_recast, recast_mk, attached_recast]

theorem makeLists_recast (t : Tree) : makeLists (t.recast d) = Tree.recast d <$> makeLists t := by
  unfold makeLists
  rw [flow_recast, List.length_map]
  split
  · rw [map_pure]
  · have hrows := bind_congr_map (tables_recast d t) (listsAlong_recast d .row)
    exact bind_congr_map hrows (listsAlong_recast d .column)

end tables

end FlexRecovery.Regroup
