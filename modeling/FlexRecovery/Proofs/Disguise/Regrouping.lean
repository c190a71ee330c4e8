import FlexRecovery.Proofs.Bands
import FlexRecovery.Proofs.Disguise.Lists

/-! Regrouping a tree in disguise gives the regrouped tree in that disguise. -/

namespace FlexRecovery.Regroup

open Tree Journaled

variable (d : Disguise) (axis : Axis)

section bands

theorem pivot_recast (t : Tree) (ts : List Tree) :
    pivot axis (t.recast d) (ts.map (Tree.recast d)) = (pivot axis t ts).recast d := by
  unfold pivot
  induction ts generalizing t with
  | nil => rfl
  | cons u ts ih =>
    simp only [List.map_cons, List.foldl_cons, Tree.box_recast, Box.extent_translate] at ih ⊢
    split <;> exact ih _

theorem inBand_recast (pivot t : Tree) : inBand axis (pivot.recast d) (t.recast d) = inBand axis pivot t := by
  simp only [inBand, Tree.box_recast, Box.within_translate, Box.extent_translate, Box.overlap_translate]

theorem pivotBands_recast (ts : List Tree) :
    pivotBands axis (ts.map (Tree.recast d)) = (pivotBands axis ts).map (List.map (Tree.recast d)) := by
  fun_induction pivotBands axis ts with
  | case1 => rw [List.map_nil, pivotBands, List.map_nil]
  | case2 t ts inside ih =>
    have hin (u : Tree) :
        inBand axis (pivot axis (t.recast d) (ts.map (Tree.recast d))) (u.recast d) = inside u := by
      rw [pivot_recast, inBand_recast]
    have hfilter {p q : Tree → Bool} (h : ∀ u : Tree, p (u.recast d) = q u) (us : List Tree) :
        (us.map (Tree.recast d)).filter p = (us.filter q).map (Tree.recast d) := by
      rw [List.filter_map]
      exact congrArg _ (List.filter_congr fun u _ => h u)
    rw [List.map_cons, pivotBands, List.map_cons, ← ih, ← List.map_cons, hfilter hin,
      hfilter fun u => congrArg (!·) (hin u)]

theorem bands_recast (ts : List Tree) :
    bands axis (ts.map (Tree.recast d)) = (bands axis ts).map (List.map (Tree.recast d)) := by
  unfold bands
  rw [pivotBands_recast]
  refine sortByKey_map (d axis) fun b hb => ?_
  rw [hull_recast d (ne_nil_of_mem_pivotBands hb), Box.start_translate]

theorem areDisjoint_recast {bs : List (List Tree)} (h : ∀ b ∈ bs, b ≠ []) :
    areDisjoint axis (bs.map (List.map (Tree.recast d))) = areDisjoint axis bs := by
  induction bs with
  | nil => rfl
  | cons a bs ih =>
    obtain ⟨ha, hbs⟩ := List.forall_mem_cons.1 h
    cases bs with
    | nil => rfl
    | cons b bs =>
      have hb := (List.forall_mem_cons.1 hbs).1
      have hi := ih hbs
      rw [List.map_cons] at hi
      rw [List.map_cons, List.map_cons, areDisjoint, areDisjoint, hull_recast d ha, hull_recast d hb,
        Box.overlap_translate, hi]

theorem isSeparable_recast (band : List Tree) :
    isSeparable axis (band.map (Tree.recast d)) = isSeparable axis band := by
  simp only [isSeparable, List.length_map, bands_recast, areDisjoint_recast d _ fun b => ne_nil_of_mem_bands]

theorem partition?_recast (ts : List Tree) :
    partition? axis (ts.map (Tree.recast d)) = (partition? axis ts).map (List.map (List.map (Tree.recast d))) := by
  unfold partition?
  dsimp only
  rw [bands_recast, areDisjoint_recast d axis fun b => ne_nil_of_mem_bands, List.all_map]
  simp only [Function.comp_def, isSeparable_recast]
  split <;> rfl

theorem chooseAxis_recast (preferred : Axis) (ts : List Tree) : chooseAxis preferred (ts.map (Tree.recast d)) =
    (chooseAxis preferred ts).map fun p => (p.1, p.2.map (List.map (Tree.recast d))) := by
  unfold chooseAxis
  rw [List.map_findSome?]
  refine congrArg₂ List.findSome? (funext fun a => ?_) rfl
  simp only [Function.comp, partition?_recast]
  cases partition? a ts with
  | none => rfl
  | some bs =>
    simp only [Option.map_some, List.length_map]
    split <;> rfl

theorem bandTree_recast {b : List Tree} (hb : b ≠ []) :
    bandTree axis (b.map (Tree.recast d)) = Tree.recast d <$> bandTree axis b := by
  match b with
  | [t] => rfl
  | t :: u :: rest =>
    have h := wrapped_recast d (hull (t :: u :: rest)) axis.cross []
      (sortByKey (fun t => t.box.start axis.cross) (t :: u :: rest))
    have hs : sortByKey (fun t : Tree => t.box.start axis.cross) ((t :: u :: rest).map (Tree.recast d)) =
        (sortByKey (fun t => t.box.start axis.cross) (t :: u :: rest)).map (Tree.recast d) :=
      sortByKey_map (d axis.cross) fun v _ => by rw [Tree.box_recast, Box.start_translate]
    rw [← hull_recast d hb, ← hs] at h
    exact h

end bands

theorem collapseWrapper_recast (t : Tree) : collapseWrapper (t.recast d) = (collapseWrapper t).recast d := by
  unfold collapseWrapper
  rw [flow_recast]
  match t.flow with
  | [] => rfl
  | [only] =>
    simp only [List.map_cons, List.map_nil, node_recast, Node.width_recast, Node.height_recast,
      Node.isGenerated_recast, Node.direction_recast, Node.isContent_recast, Node.roles_recast]
    split
    · rw [recast_mk, flow_recast, attached_recast, attached_recast, List.map_append]
      simp only [Node.recast_eq]
    · rfl
  | _ :: _ :: _ => rfl

theorem offender?_recast (ts : List Tree) :
    offender? (ts.map (Tree.recast d)) = (offender? ts).map fun p => (p.1, p.2.recast d) := by
  have hfilter {p q : Tree × Nat → Bool} (h : ∀ u i, p (Tree.recast d u, i) = q (u, i))
      (us : List (Tree × Nat)) :
      (us.map (Prod.map (Tree.recast d) id)).filter p = (us.filter q).map (Prod.map (Tree.recast d) id) := by
    rw [List.filter_map]
    exact congrArg _ (List.filter_congr fun u _ => h u.1 u.2)
  have hleast (p : Tree × Nat) (rest : List (Tree × Nat)) :
      (rest.map (Prod.map (Tree.recast d) id)).foldl (fun best q => if q.1.box.area ≤ best.1.box.area then q else best)
        (p.1.recast d, p.2) = Prod.map (Tree.recast d) id
          (rest.foldl (fun best q => if q.1.box.area ≤ best.1.box.area then q else best) p) := by
    induction rest generalizing p with
    | nil => rfl
    | cons q rest ih =>
      simp only [List.map_cons, List.foldl_cons, Prod.map, Tree.box_recast, Box.area_translate, id] at ih ⊢
      split <;> exact ih _
  unfold offender?
  extract_lets all' overlapping' pool' all overlapping pool
  have hall : all' = all.map (Prod.map (Tree.recast d) id) := List.zipIdx_map ..
  have hover : overlapping' = overlapping.map (Prod.map (Tree.recast d) id) := by
    simp only [overlapping', overlapping, hall]
    apply hfilter
    intro u i
    simp only [List.any_map, Function.comp_def, Prod.map, Tree.box_recast, Box.overlaps_translate, id]
  have hpool : pool' = pool.map (Prod.map (Tree.recast d) id) := by
    simp only [pool', pool, hover, hall, List.isEmpty_map]
    split <;> rfl
  rw [hpool]
  cases pool with
  | nil => rfl
  | cons p rest => simp only [List.map_cons, Prod.map, id, hleast, Option.map_some]

theorem layOut_recast (preferred : Axis) (budget : Nat) (t : Tree) :
    layOut preferred budget (t.recast d) = Tree.recast d <$> layOut preferred budget t := by
  have hend (direction : Option Axis) (n : Node) (f a : List Tree) :
      collapseWrapper ⟨{ n.recast d with direction }, f.map (Tree.recast d), a.map (Tree.recast d)⟩ =
        (collapseWrapper ⟨{ n with direction }, f, a⟩).recast d := by
    rw [Node.with_direction_recast, ← recast_mk, collapseWrapper_recast]
  induction budget generalizing t with
  | zero =>
    obtain ⟨n, f, a⟩ := t
    rw [recast_mk, layOut, layOut, hend, map_pure]
  | succ budget ih =>
    obtain ⟨n, f, a⟩ := t
    rw [recast_mk, layOut, layOut, hend, List.length_map, chooseAxis_recast, offender?_recast]
    split
    · rw [map_pure]
    · cases h : chooseAxis preferred f with
      | some p =>
        obtain ⟨axis, bs⟩ := p
        have hne : ∀ b ∈ bs, b ≠ [] := by
          rw [(eq_bands_of_chooseAxis h).1]
          exact fun b => ne_nil_of_mem_bands
        refine bind_congr_map (mapM_congr_map fun b hb => bandTree_recast d axis (hne b hb)) fun flow => ?_
        rw [map_pure]
        exact congrArg pure (hend (some axis) n flow a)
      | none =>
        cases offender? f with
        | none =>
          simp only [Option.map_none, map_pure, recast_mk]
        | some q =>
          have hi := ih ⟨n, f.eraseIdx q.1, a ++ [q.2]⟩
          rw [recast_mk, List.map_append, List.map_cons, List.map_nil, ← List.eraseIdx_map] at hi
          simp only [Option.map_some, Option.map_none, node_recast, Node.id_recast, Node.label_recast, map_bind, hi]

theorem makeFlex_recast (t : Tree) : makeFlex (t.recast d) = Tree.recast d <$> makeFlex t := by
  unfold makeFlex
  rw [flow_recast, List.isEmpty_map, List.length_map, node_recast, Node.direction_recast, layOut_recast]
  split
  · rw [map_pure, recast_mk, Node.with_direction_recast, attached_recast]
  · rfl

theorem level_recast (t : Tree) : level (t.recast d) = Tree.recast d <$> level t := by
  unfold level isPreset
  rw [node_recast, Node.roles_recast, Node.hasRole_recast]
  split
  · rw [map_pure]
  · refine bind_congr_map (mergeRedundant_recast d t) fun r => ?_
    exact bind_congr_map (bind_congr_map (rebuildNesting_recast d r.1) (makeLists_recast d)) (makeFlex_recast d)

theorem within_recast (budget : Nat) (t : Tree) :
    within budget (t.recast d) = Tree.recast d <$> within budget t := by
  induction budget generalizing t with
  | zero => rfl
  | succ budget ih =>
    rw [within, within, node_recast, Node.isContent_recast]
    split
    · rw [map_pure]
    · refine bind_congr_map (level_recast d t) fun u => ?_
      rw [flow_recast, attached_recast, node_recast]
      refine bind_congr_map (mapM_congr_map fun m _ => ih m) fun flow => ?_
      refine bind_congr_map (mapM_congr_map fun m _ => ih m) fun attached => ?_
      rw [map_pure, recast_mk]

theorem tree_recast (t : Tree) : Regroup.tree (t.recast d) = Tree.recast d <$> Regroup.tree t := by
  unfold Regroup.tree depth
  rw [size_recast]
  exact within_recast d _ t

end FlexRecovery.Regroup
