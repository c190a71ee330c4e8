import FlexRecovery.Proofs.Dissolving
import FlexRecovery.Proofs.Passes

/-!
Redundant wrappers, all at once. The loop looks for the first redundant child again after every fold, and what a fold
puts in its place may be redundant in its turn. It comes to what a recursion on the tree gives: a redundant tree leaves
what its flow children leave, and the trees that fold do so in the order of a walk that meets an owner before its
members.
-/

namespace FlexRecovery.Regroup

open Tree

variable {b : Box} {t : Tree} {ts : List Tree}

theorem splitFirst_eq_none {α : Type} {p : α → Bool} {as : List α} :
    splitFirst p as = none ↔ ∀ a ∈ as, p a = false := by
  induction as with
  | nil => simp [splitFirst]
  | cons a as ih =>
    rw [splitFirst, List.forall_mem_cons, ← ih]
    cases p a <;> simp

/-- Nothing before the first one passes. -/
theorem before_of_splitFirst {α : Type} {p : α → Bool} {as before after : List α} {x : α}
    (h : splitFirst p as = some (before, x, after)) : ∀ a ∈ before, p a = false := by
  induction as generalizing before with
  | nil => cases h
  | cons a as ih =>
    unfold splitFirst at h
    split at h
    · obtain ⟨rfl, -, -⟩ := by simpa using h
      exact fun _ hmem => absurd hmem List.not_mem_nil
    · next ha =>
      obtain ⟨⟨before', y, after'⟩, hs, he⟩ := Option.map_eq_some_iff.1 h
      obtain ⟨rfl, rfl, rfl⟩ := by simpa using he
      exact List.forall_mem_cons.2 ⟨by simpa using ha, ih hs⟩

/-- What a tree leaves in an owner that has the box: what its flow children leave if it folds, and else itself. -/
def flat (b : Box) : Tree → List Tree := dissolve (isRedundant b)

mutual

/-- What folds into an owner that has the box: a tree, then what folds of its flow children, unless it stays itself. -/
def folds (b : Box) : Tree → List Tree
  | ⟨n, flow, attached⟩ =>
    if isRedundant b ⟨n, flow, attached⟩ then ⟨n, flow, attached⟩ :: foldsAll b flow else []

def foldsAll (b : Box) : List Tree → List Tree
  | [] => []
  | t :: ts => folds b t ++ foldsAll b ts

end

theorem foldsAll_eq (b : Box) (ts : List Tree) : foldsAll b ts = ts.flatMap (folds b) := by
  induction ts with
  | nil => rfl
  | cons t ts ih => rw [foldsAll, ih, List.flatMap_cons]

theorem flat_eq (b : Box) (t : Tree) : flat b t = if isRedundant b t then t.flow.flatMap (flat b) else [t] :=
  dissolve_eq _ t

theorem folds_eq (b : Box) (t : Tree) : folds b t = if isRedundant b t then t :: t.flow.flatMap (folds b) else [] := by
  cases t
  rw [folds, foldsAll_eq]

theorem flatMap_folds_eq_nil (h : ∀ t ∈ ts, isRedundant b t = false) : ts.flatMap (folds b) = [] := by
  refine List.flatMap_eq_nil_iff.2 fun t ht => ?_
  rw [folds_eq, h t ht]
  rfl

/-- An owner with everything that is redundant in it folded into it. -/
def flattened (t : Tree) : Tree where
  node := (t.flow.flatMap (folds t.box)).foldl (fun n c => n.absorb c.node) t.node
  flow := t.flow.flatMap (flat t.box)
  attached := t.attached ++ (t.flow.flatMap (folds t.box)).flatMap Tree.attached

theorem box_foldl_absorb (n : Node) (cs : List Tree) : (cs.foldl (fun n c => n.absorb c.node) n).box = n.box := by
  induction cs generalizing n with
  | nil => rfl
  | cons c cs ih => rw [List.foldl_cons, ih, Node.box_absorb]

theorem box_flattened (t : Tree) : (flattened t).box = t.box := box_foldl_absorb _ _

theorem flattened_eq_self (h : ∀ c ∈ t.flow, isRedundant t.box c = false) : flattened t = t := by
  rw [flattened, flat, flatMap_dissolve_eq_self h, flatMap_folds_eq_nil h, List.flatMap_nil, List.append_nil]
  cases t
  rfl

/-- A child that comes first among those that fold is the first that folds, with what folds of its members after it. -/
theorem flattened_foldUp (attached : List Tree) {n : Node} {before after : List Tree} {c : Tree}
    (hc : isRedundant n.box c = true) (hb : ∀ t ∈ before, isRedundant n.box t = false) :
    (before ++ c :: after).flatMap (folds n.box) = c :: (before ++ c.flow ++ after).flatMap (folds n.box) ∧
      flattened ⟨n, before ++ c :: after, attached⟩ =
        flattened ⟨n.absorb c.node, before ++ c.flow ++ after, attached ++ c.attached⟩ := by
  have hfolds : (before ++ c :: after).flatMap (folds n.box) =
      c :: (before ++ c.flow ++ after).flatMap (folds n.box) := by
    simp only [List.flatMap_append, List.flatMap_cons, flatMap_folds_eq_nil hb, folds_eq n.box c, hc, if_true,
      List.nil_append, List.cons_append]
  have hflat : (before ++ c :: after).flatMap (flat n.box) = (before ++ c.flow ++ after).flatMap (flat n.box) := by
    simp only [List.flatMap_append, List.flatMap_cons, flat_eq n.box c, hc, if_true, List.append_assoc]
  refine ⟨hfolds, ?_⟩
  simp only [flattened, Tree.box, Node.box_absorb, hfolds, hflat, List.foldl_cons, List.flatMap_cons,
    List.append_assoc]

/-- The loop comes to the flattened owner and counts what folds into it. -/
theorem foldRedundant_eq (t : Tree) (count : Nat) :
    foldRedundant t count = (flattened t, count + (t.flow.flatMap (folds t.box)).length) := by
  -- On the size of the flow: the members of what folds come into it, but the node itself does not.
  induction h : sizeAll t.flow using Nat.strong_induction_on generalizing t count with
  | _ m ih =>
    unfold foldRedundant
    split
    · next hs =>
      have hnone := splitFirst_eq_none.1 hs
      rw [flattened_eq_self hnone, flatMap_folds_eq_nil hnone]
      rfl
    · next before c after hs =>
      obtain ⟨n, flow, attached⟩ := t
      obtain ⟨hf, hc⟩ := eq_of_splitFirst hs
      obtain rfl : flow = before ++ c :: after := hf
      obtain ⟨hfolds, hflattened⟩ := flattened_foldUp attached hc (before_of_splitFirst hs)
      have hlt : sizeAll (before ++ c.flow ++ after) < m := by
        rw [← h]
        simp only [sizeAll_append, sizeAll, size_eq c]
        omega
      rw [ih _ hlt _ _ rfl, hflattened]
      simp only [Tree.box, Node.box_absorb, hfolds, List.length_cons]
      congr 1
      omega

theorem perm_flatMap_folds (b : Box) (ts : List Tree) (h : ∀ u ∈ ts,
    (folds b u ++ (subtreesAll (flat b u) ++ subtreesAll ((folds b u).flatMap Tree.attached))).Perm u.subtrees) :
    (ts.flatMap (folds b) ++ (subtreesAll (ts.flatMap (flat b)) ++
      subtreesAll ((ts.flatMap (folds b)).flatMap Tree.attached))).Perm (subtreesAll ts) := by
  induction ts with
  | nil => exact .refl _
  | cons u us ih =>
    obtain ⟨hu, hus⟩ := List.forall_mem_cons.1 h
    have ih := ih hus
    simp only [← Multiset.coe_eq_coe, ← Multiset.coe_add, subtreesAll_eq, List.flatMap_cons, List.flatMap_append]
      at hu ih ⊢
    rw [← hu, ← ih]
    abel

/-- Every tree either folds, or it is left or lies in what is left, with the members that it had. -/
theorem perm_folds_flat (b : Box) (t : Tree) :
    (folds b t ++ (subtreesAll (flat b t) ++ subtreesAll ((folds b t).flatMap Tree.attached))).Perm t.subtrees := by
  induction t using induction_members with
  | _ t ih =>
    rw [folds_eq, flat_eq]
    split
    · have hflow := perm_flatMap_folds b t.flow fun u hu => ih u (List.mem_append_left _ hu)
      rw [subtrees_eq, List.cons_append]
      simp only [← Multiset.coe_eq_coe, ← Multiset.cons_coe, ← Multiset.coe_add, subtreesAll_eq, List.flatMap_cons,
        List.flatMap_append] at hflow ⊢
      rw [← hflow]
      congr 1
      abel
    · rw [subtreesAll_eq, List.flatMap_singleton, List.flatMap_nil, List.nil_append]
      exact List.Perm.of_eq (List.append_nil _)

/-- One call of the pass. -/
theorem mergeRedundant_eq (t : Tree) (j : Journal) : let count := (t.flow.flatMap (folds t.box)).length
    mergeRedundant t j = ((flattened t, count), if count = 0 then j else
      (Journal.inform (flattened t).node.id "merge" (toString count ++ " redundant wrappers folded") j).2) := by
  intro count
  have hrun : foldRedundant t 0 = (flattened t, count) := by rw [foldRedundant_eq, Nat.zero_add]
  unfold mergeRedundant
  rw [hrun]
  by_cases h : 0 < count
  · simp only [h, if_true, h.ne', if_false]
    rfl
  · simp only [Nat.eq_zero_of_not_pos h, if_true]
    rfl

/-- A flattened owner has nothing left to fold. -/
theorem mergeRedundant_flattened (t : Tree) (j : Journal) : mergeRedundant (flattened t) j = ((flattened t, 0), j) := by
  have hnone : ∀ c ∈ (flattened t).flow, isRedundant (flattened t).box c = false := by
    intro c hc
    obtain ⟨u, -, hc⟩ := List.mem_flatMap.1 hc
    rw [box_flattened]
    exact of_mem_dissolve hc
  rw [mergeRedundant_eq, flatMap_folds_eq_nil hnone, flattened_eq_self hnone]
  rfl

/-- What folds and what is left in the end make up all that was there. -/
theorem perm_flattened (t : Tree) : (t.flow.flatMap (folds t.box) ++
    subtreesAll ((flattened t).flow ++ (flattened t).attached)).Perm (subtreesAll (t.flow ++ t.attached)) := by
  have hflow := perm_flatMap_folds t.box t.flow fun u _ => perm_folds_flat t.box u
  simp only [flattened, ← Multiset.coe_eq_coe, ← Multiset.coe_add, subtreesAll_eq, List.flatMap_append] at hflow ⊢
  rw [← hflow]
  abel

/-- Folding redundant children one after another flattens their owner. Its flow children are what the former ones leave,
what is attached to the trees that fold comes after what was attached before, their nodes are absorbed in their order,
and all other trees below the owner stay as they are. After that there is nothing left to fold. -/
theorem mergeRedundant_flattens (t : Tree) (j : Journal) : let gone := t.flow.flatMap (folds t.box)
    let r := mergeRedundant t j
    r.1.1.flow = t.flow.flatMap (flat t.box) ∧
    r.1.1.attached = t.attached ++ gone.flatMap Tree.attached ∧
    r.1.1.node = gone.foldl (fun n c => n.absorb c.node) t.node ∧
    r.1.2 = gone.length ∧
    (gone ++ subtreesAll (r.1.1.flow ++ r.1.1.attached)).Perm (subtreesAll (t.flow ++ t.attached)) ∧
    r.2 = (if gone.length = 0 then j else
      (Journal.inform r.1.1.node.id "merge" (toString gone.length ++ " redundant wrappers folded") j).2) ∧
    ∀ j', mergeRedundant r.1.1 j' = ((r.1.1, 0), j') := by
  intro gone r
  have hr : r = _ := mergeRedundant_eq t j
  rw [hr]
  exact ⟨rfl, rfl, rfl, rfl, perm_flattened t, rfl, mergeRedundant_flattened t⟩

end FlexRecovery.Regroup
