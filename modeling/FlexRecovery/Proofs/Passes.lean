import FlexRecovery.Proofs.Journaled
import FlexRecovery.Proofs.Ready

/-!
The passes of regrouping over one owner, each as a run of shifts: redundant wrappers, siblings with one box,
siblings that overlap.
-/

namespace FlexRecovery.Regroup

open Tree

variable {n : Node} {f f' a a' : List Tree} {k : Nat} {s : Tree × Nat}

/-- A pass does nothing but shift members. -/
def Shifting (pass : Tree → Journaled Tree) : Prop :=
  ∀ t j, Shifts (t, j.created) ((pass t j).1, (pass t j).2.created)

theorem Shifting.bind {pass pass' : Tree → Journaled Tree} (h : Shifting pass) (h' : Shifting pass') :
    Shifting fun t => pass t >>= pass' := fun t j => (h t j).trans (h' _ _)

theorem Shifts.reorder (h : f.Perm f') (hs : Shifts (⟨n, f', a⟩, k) s) : Shifts (⟨n, f, a⟩, k) s :=
  .head (.reorder h n a k) hs

/-- Shifts at the front of the members, wherever the front is taken from and put back to. -/
theorem Shifts.between {g g' : List Tree} {k' : Nat} (hf : f.Perm g) (hs : Shifts (⟨n, g, a⟩, k) (⟨n, g', a'⟩, k'))
    (hf' : g'.Perm f') : Shifts (⟨n, f, a⟩, k) (⟨n, f', a'⟩, k') :=
  .reorder hf (hs.tail (.reorder hf' n a' k'))

theorem shifts_foldRedundant (t : Tree) (count k : Nat) : Shifts (t, k) ((foldRedundant t count).1, k) := by
  induction h : sizeAll t.flow using Nat.strong_induction_on generalizing t count with
  | _ m ih =>
    unfold foldRedundant
    split
    · exact .refl
    · next before c after hs =>
      obtain ⟨hf, hc⟩ := eq_of_splitFirst hs
      have hlt : sizeAll (before ++ c.flow ++ after) < m := by
        rw [← h, hf]
        simp only [sizeAll_append, sizeAll, size_eq c]
        omega
      refine Relation.ReflTransGen.trans ?_ (ih _ hlt _ _ rfl)
      obtain ⟨n, flow, attached⟩ := t
      obtain rfl := hf
      refine Shifts.reorder List.perm_middle (.head (.foldUp hc (before ++ after) attached k) ?_)
      refine Shifts.reorder ?_ .refl
      rw [List.append_assoc]
      exact List.perm_append_comm_assoc _ _ _

theorem run_mergeRedundant (t : Tree) (j : Journal) :
    (mergeRedundant t j).1 = foldRedundant t 0 ∧ (mergeRedundant t j).2.created = j.created := by
  unfold mergeRedundant
  by_cases h : 0 < (foldRedundant t 0).2
  · simp only [h, if_true]
    exact ⟨rfl, rfl⟩
  · simp only [h, if_false]
    exact ⟨rfl, rfl⟩

theorem shifting_mergeRedundant : Shifting fun t => mergeRedundant t >>= fun r => pure r.1 := by
  intro t j
  obtain ⟨hr, hc⟩ := run_mergeRedundant t j
  have h := shifts_foldRedundant t 0 j.created
  rw [← hr] at h
  rw [← hc] at h
  exact hc ▸ h

theorem isText_of_image {n : Node} (h : n.isImage = true) : n.isText = false := by
  simp only [Node.isImage, beq_iff_eq] at h
  simp [Node.isText, h]

/-- The pair that is settled comes to the front, and what is made of it goes back to its place. -/
theorem shifts_settle (p : Pair Tree) (hp : p.lower.box.same p.upper.box = true) (n : Node) (a : List Tree) (k : Nat) :
    Shifts (⟨n, p.before ++ p.lower :: (p.between ++ p.upper :: p.after), a⟩, k)
      (⟨n, (settle p).flow, a ++ (settle p).out.toList⟩, k) := by
  obtain ⟨before, lower, between, upper, after⟩ := p
  have hlower : (before ++ lower :: (between ++ upper :: after)).Perm
      (lower :: ([upper] ++ (before ++ (between ++ after)))) := by
    refine List.perm_middle.trans (List.Perm.cons _ ?_)
    refine (List.Perm.append_left before List.perm_middle).trans ?_
    exact List.perm_middle
  have hupper : (before ++ lower :: (between ++ upper :: after)).Perm
      (upper :: ([lower] ++ (before ++ (between ++ after)))) := hlower.trans (.swap _ _ _)
  have back (t : Tree) : (t :: (before ++ (between ++ after))).Perm (before ++ t :: (between ++ after)) :=
    List.perm_middle.symm
  have back' (t : Tree) : (t :: (before ++ (between ++ after))).Perm (before ++ (between ++ t :: after)) :=
    (back t).trans (List.Perm.append_left before List.perm_middle.symm)
  have lowerHosts (h : lower.node.isText = false) :
      Shifts (⟨n, before ++ lower :: (between ++ upper :: after), a⟩, k)
        (⟨n, before ++ (hosting lower).addFlow [upper] :: (between ++ after), a⟩, k) :=
    .between hlower (.single (.host h (List.forall_mem_singleton.2 (Box.contains_of_same hp)) _ _ _ _)) (back _)
  have upperHosts (h : upper.node.isText = false) :
      Shifts (⟨n, before ++ lower :: (between ++ upper :: after), a⟩, k)
        (⟨n, before ++ (between ++ (hosting upper).addFlow [lower] :: after), a⟩, k) :=
    .between hupper (.single (.host h (List.forall_mem_singleton.2
      (Box.contains_of_same (Box.same_comm _ _ ▸ hp))) _ _ _ _)) (back' _)
  unfold settle
  dsimp only
  split
  · next hx hy =>
    rw [Option.toList_none, List.append_nil]
    exact .between hlower (.single (.fuse hx hy hp _ _ _ _)) (back _)
  · next hx _ =>
    have h := lowerHosts (Node.isText_of_not_content hx)
    rw [hosting_of_view hx] at h
    rw [Option.toList_none, List.append_nil]
    exact h
  · next _ hy =>
    have h := upperHosts (Node.isText_of_not_content hy)
    rw [hosting_of_view hy] at h
    rw [Option.toList_none, List.append_nil]
    exact h
  · split
    · next hi =>
      rw [Option.toList_none, List.append_nil, ← hosting_of_image hi]
      exact lowerHosts (isText_of_image hi)
    · split
      · next hi =>
        rw [Option.toList_none, List.append_nil, ← hosting_of_image hi]
        exact upperHosts (isText_of_image hi)
      · exact .between hupper (.single (.detach _ _ _ _ _)) (back _)

theorem shifting_collapseEqual : Shifting collapseEqual := by
  intro t j
  induction h : t.flow.length using Nat.strong_induction_on generalizing t j with
  | _ m ih =>
    have key (x : Journaled Tree) (hx : collapseEqual t = x) :
        Shifts (t, j.created) ((x j).1, (x j).2.created) := by
      unfold collapseEqual at hx
      split at hx
      · subst hx
        exact .refl
      · next p hp =>
        obtain ⟨hf, hb⟩ := eq_of_splitPair hp
        have hlt : (settle p).flow.length < m := by
          have hl := length_settle p
          rw [← hf, h] at hl
          omega
        have hs := shifts_settle p hb t.node t.attached j.created
        rw [← hf] at hs
        obtain ⟨n, flow, attached⟩ := t
        have hi (j' : Journal) (hj : j'.created = j.created) := hs.trans (hj ▸ ih _ hlt
          { node := n, flow := (settle p).flow, attached := attached ++ (settle p).out.toList } j' rfl)
        subst hx
        by_cases ho : (settle p).out.isSome = true
        · simp only [ho, if_true]
          exact hi _ rfl
        · simp only [ho]
          exact hi _ rfl
    exact key _ rfl

end FlexRecovery.Regroup
