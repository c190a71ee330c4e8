import FlexRecovery.Proofs.Disguise.Agreement

/-!
The layout does not depend on where a design lies on the page: regrouping and resolving a tree that is translated
gives the tree that they give without it, translated, and the same record of the recovery.
-/

namespace FlexRecovery.Resolve

open Journaled

variable (d : Offset)

theorem recast_moved_eq : Tree.recast (.moved d) = Tree.translate d := funext (Tree.recast_moved d)

theorem regroup_translate (t : Tree) : Regroup.tree (t.translate d) = Tree.translate d <$> Regroup.tree t := by
  rw [← recast_moved_eq]
  exact Regroup.tree_recast (.moved d) t

theorem tree_translate (o : Options) (t : Tree) :
    Resolve.tree o (t.translate d) = Tree.translate d <$> Resolve.tree o t := by
  have hsame : Agree (fun _ => false) o o := ⟨rfl, rfl, .inl rfl, .inl rfl⟩
  have hlike : t.recast (.moved d) = (t.translate d).recast (.moved fun _ => 0) := by
    rw [Tree.recast_moved, Tree.recast_moved, Tree.translate_zero]
  have h := alike_tree (d := .moved d) (e := .moved fun _ => 0) rfl hsame hlike
  rw [recast_moved_eq, Tree.recast_still, id_map] at h
  exact h.symm

/-- Wherever a design lies on the page, it is laid out alike: every box of the result is translated as those of the
design were, nothing else in the result is another, and the record of the recovery is the same. -/
theorem layout_translate (o : Options) (t : Tree) (d : Offset) (j : Journal) :
    (Regroup.tree (t.translate d) >>= Resolve.tree o) j =
      (((Regroup.tree t >>= Resolve.tree o) j).1.translate d, ((Regroup.tree t >>= Resolve.tree o) j).2) := by
  have h : (Regroup.tree (t.translate d) >>= Resolve.tree o) = Tree.translate d <$> (Regroup.tree t >>= Resolve.tree o) :=
    bind_congr_map (regroup_translate d t) (tree_translate d o)
  rw [h]
  rfl

end FlexRecovery.Resolve
