import FlexRecovery.Proofs.Stacked

/-!
What the search for the flex axis does to the children of an owner. It only regroups them: a child leaves the flow with
a warning, stays as it is, or becomes a member of one new container.
-/

namespace FlexRecovery.Regroup

open Tree

variable {axis preferred : Axis} {t : Tree} {j : Journal}

/-! ### Leaving the flow -/

/-- What is reported of a child that leaves the flow. -/
def demotion (t : Tree) : Finding :=
  ⟨t.node.id, .warning, "flex-demote", "no flex axis separates " ++ t.node.label ++ ", positioned absolutely"⟩

/-- An owner that has kept some children in its flow, after the others have left it one by one. -/
def demoted (t : Tree) (j : Journal) (kept out : List Tree) : Tree × Journal :=
  (⟨t.node, kept, t.attached ++ out⟩, ⟨j.created, j.findings ++ out.map demotion⟩)

/-- One turn takes one of several children out of the flow. -/
theorem demoteStep_eq_some {s u : Tree × Journal} (h : demoteStep preferred s = some u) : ∃ kept o,
    u = demoted s.1 s.2 kept [o] ∧ s.1.flow.Perm (o :: kept) ∧ kept.Sublist s.1.flow ∧ kept ≠ [] := by
  unfold demoteStep at h
  split at h
  · cases h
  · next hmore =>
    obtain ⟨hlen, -⟩ := not_or.1 hmore
    obtain ⟨i, o, ho, hperm⟩ := offender?_of_not_length_le_one hlen
    rw [ho] at h
    obtain rfl := Option.some.inj h
    refine ⟨s.1.flow.eraseIdx i, o, rfl, hperm, List.eraseIdx_sublist .., ?_⟩
    have hl := hperm.length_eq
    rw [List.length_cons] at hl
    exact List.ne_nil_of_length_pos (by omega)

/-- There are no more turns when one child is left or an axis works. -/
theorem last_demoteStep {s : Tree × Journal} (h : demoteStep preferred s = none) :
    s.1.flow.length ≤ 1 ∨ (chooseAxis preferred s.1.flow).isSome := by
  by_contra hmore
  obtain ⟨i, o, ho, -⟩ := offender?_of_not_length_le_one (not_or.1 hmore).1
  rw [demoteStep, if_neg hmore, ho] at h
  cases h

/-- Turn after turn the others stay in their order. -/
theorem demoted_of_run {s : Tree × Journal} (hne : t.flow ≠ [])
    (h : Relation.ReflTransGen (fun a b => demoteStep preferred a = some b) (t, j) s) : ∃ kept out,
    s = demoted t j kept out ∧ (kept ++ out).Perm t.flow ∧ kept.Sublist t.flow ∧ kept ≠ [] := by
  induction h with
  | refl =>
    refine ⟨t.flow, [], ?_, by rw [List.append_nil], .refl _, hne⟩
    rw [demoted, List.append_nil, List.map_nil, List.append_nil]
    cases t
    rfl
  | tail _ hstep ih =>
    obtain ⟨kept, out, rfl, hperm, hsub, -⟩ := ih
    obtain ⟨left, o, rfl, hturn, hleft, hne⟩ := demoteStep_eq_some hstep
    refine ⟨left, out ++ [o], ?_, ?_, hleft.trans hsub, hne⟩
    · simp only [demoted, List.append_assoc, List.map_append]
    · calc left ++ (out ++ [o])
        _ = (left ++ out) ++ [o] := (List.append_assoc ..).symm
        _ |>.Perm <| o :: (left ++ out) := List.perm_append_singleton ..
        _ |>.Perm <| kept ++ out := (hturn.symm.append_right out)
        _ |>.Perm <| t.flow := hperm

/-! ### Containers -/

/-- Each group in its turn is one tree, which stays as it is, or makes the next container, sorted across the axis. -/
inductive Gathered (axis : Axis) : List (List Tree) → Nat → List Tree → Nat → Prop where
  | nil (k : Nat) : Gathered axis [] k [] k
  | single {t : Tree} {groups : List (List Tree)} {ts : List Tree} {k k' : Nat} (h : Gathered axis groups k ts k') :
      Gathered axis ([t] :: groups) k (t :: ts) k'
  | several {members : List Tree} {b : Box} {groups : List (List Tree)} {ts : List Tree} {k k' : Nat}
      (hlen : 2 ≤ members.length) (hs : members.Pairwise fun a b => a.box.start axis.cross ≤ b.box.start axis.cross)
      (hb : b.Around (members.map box)) (h : Gathered axis groups (k + 1) ts k') :
      Gathered axis (members :: groups) k (⟨Node.generated k b axis.cross, members, []⟩ :: ts) k'

theorem gathered_bands (axis : Axis) {bs : List (List Tree)} (hne : ∀ b ∈ bs, b ≠ []) (j : Journal) :
    Gathered axis (bs.map (sortByKey fun t => t.box.start axis.cross)) j.created (bs.mapM (bandTree axis) j).1
      (bs.mapM (bandTree axis) j).2.created ∧ (bs.mapM (bandTree axis) j).2.findings = j.findings := by
  induction bs generalizing j with
  | nil => exact ⟨.nil _, rfl⟩
  | cons b bs ih =>
    obtain ⟨hb, hbs⟩ := List.forall_mem_cons.1 hne
    obtain ⟨hrest, hfindings⟩ := ih hbs (bandTree axis b j).2
    rw [Journaled.run_mapM_cons, List.map_cons]
    match b with
    | [t] => exact ⟨.single hrest, hfindings⟩
    | t :: u :: rest =>
      have hp := perm_sortByKey (fun t : Tree => t.box.start axis.cross) (t :: u :: rest)
      refine ⟨.several ?_ (pairwise_sortByKey _ _) ((around_hull hb).perm (hp.symm.map box)) hrest, hfindings⟩
      rw [hp.length_eq]
      exact Nat.le_add_left 2 _

/-- A container that stands for no layer and states nothing but the direction of its children. -/
structure Spare (n : Node) : Prop where
  generated : n.isGenerated = true
  directed : n.direction.isSome = true
  container : n.isContent = false
  roles : n.roles.toList = []
  flexible : n.width ≠ some .fixed ∧ n.height ≠ some .fixed

theorem collapseWrapper_singleton (n : Node) (only : Tree) (attached : List Tree) :
    Spare only.node ∧ collapseWrapper ⟨n, [only], attached⟩ =
        ⟨{ n with direction := only.node.direction }, only.flow, attached ++ only.attached⟩ ∨
      ¬Spare only.node ∧ collapseWrapper ⟨n, [only], attached⟩ = ⟨n, [only], attached⟩ := by
  unfold collapseWrapper
  dsimp only
  split
  · next h =>
    simp only [Bool.and_eq_true, Bool.not_eq_true', Bool.or_eq_false_iff, beq_eq_false_iff_ne] at h
    obtain ⟨⟨⟨⟨hg, hd⟩, hc⟩, hr⟩, hw, hh⟩ := h
    exact .inl ⟨⟨hg, hd, hc, List.isEmpty_iff.1 hr, hw, hh⟩, rfl⟩
  · next h =>
    refine .inr ⟨fun hs => h ?_, rfl⟩
    simp only [Bool.and_eq_true, Bool.not_eq_true', Bool.or_eq_false_iff, beq_eq_false_iff_ne]
    exact ⟨⟨⟨⟨hs.generated, hs.directed⟩, hs.container⟩, List.isEmpty_iff.2 hs.roles⟩, hs.flexible⟩

/-- An owner whose children have been laid out: the ones that were kept stand in groups along an axis, or the only one of
them is its child, or has made way for its own members. -/
inductive LaidOut (preferred : Axis) (n : Node) (kept attached : List Tree) (k : Nat) : Tree → Nat → Prop where
  | along {axis : Axis} {bs groups : List (List Tree)} {flow : List Tree} {k' : Nat}
      (hc : chooseAxis preferred kept = some (axis, bs)) (hp : groups.flatten.Perm kept)
      (hg : Gathered axis groups k flow k') (hs : flow.Pairwise fun a b => a.box.start axis ≤ b.box.start axis) :
      LaidOut preferred n kept attached k ⟨{ n with direction := some axis }, flow, attached⟩ k'
  | alone {only : Tree} (hk : kept = [only]) (hs : ¬Spare only.node) :
      LaidOut preferred n kept attached k ⟨{ n with direction := some preferred }, [only], attached⟩ k
  | emptied {only : Tree} (hk : kept = [only]) (hs : Spare only.node) :
      LaidOut preferred n kept attached k
        ⟨{ n with direction := only.node.direction }, only.flow, attached ++ only.attached⟩ k

theorem laid_of_chosen {n : Node} {kept attached : List Tree} {bs : List (List Tree)}
    (hc : chooseAxis preferred kept = some (axis, bs)) (j : Journal) :
    LaidOut preferred n kept attached j.created (layOut preferred 1 ⟨n, kept, attached⟩ j).1
      (layOut preferred 1 ⟨n, kept, attached⟩ j).2.created ∧
    (layOut preferred 1 ⟨n, kept, attached⟩ j).2.findings = j.findings := by
  obtain ⟨hbands, hlen⟩ := eq_bands_of_chooseAxis hc
  have htwo := two_le_of_chooseAxis hc
  have hne : ∀ b ∈ bs, b ≠ [] := fun b hb => ne_nil_of_mem_bands (hbands ▸ hb)
  obtain ⟨hg, hfindings⟩ := gathered_bands axis hne j
  have hlaid : layOut preferred 1 ⟨n, kept, attached⟩ j =
      (⟨{ n with direction := some axis }, (bs.mapM (bandTree axis) j).1, attached⟩,
        (bs.mapM (bandTree axis) j).2) := by
    have hmany : (bs.mapM (bandTree axis) j).1.length ≠ 1 := by
      rw [Journaled.length_mapM]
      omega
    rw [layOut, if_neg (by dsimp only; omega), hc]
    exact Prod.ext (collapseWrapper_of_length hmany) rfl
  have hsorted : (bs.mapM (bandTree axis) j).1.Pairwise fun a b => a.box.start axis ≤ b.box.start axis := by
    have hs : (bs.map hull).Pairwise fun a b => a.start axis ≤ b.start axis := by
      rw [List.pairwise_map, hbands]
      exact pairwise_sortByKey _ _
    rw [← map_box_bands axis bs j, List.pairwise_map] at hs
    exact hs
  rw [hlaid]
  exact ⟨.along hc ((List.flatMap_def ..) ▸ (perm_flatMap_bands hbands).symm) hg hsorted, hfindings⟩

theorem laid_of_only (n : Node) (only : Tree) (attached : List Tree) (j : Journal) :
    LaidOut preferred n [only] attached j.created (layOut preferred 1 ⟨n, [only], attached⟩ j).1
      (layOut preferred 1 ⟨n, [only], attached⟩ j).2.created ∧
    (layOut preferred 1 ⟨n, [only], attached⟩ j).2.findings = j.findings := by
  have hlaid : layOut preferred 1 ⟨n, [only], attached⟩ j =
      (collapseWrapper ⟨{ n with direction := some preferred }, [only], attached⟩, j) := by
    rw [layOut, if_pos (by simp)]
    rfl
  rw [hlaid]
  rcases collapseWrapper_singleton { n with direction := some preferred } only attached with ⟨hs, he⟩ | ⟨hs, he⟩
  · rw [he]
    exact ⟨.emptied rfl hs, rfl⟩
  · rw [he]
    exact ⟨.alone rfl hs, rfl⟩

theorem LaidOut.directed {n : Node} {kept attached : List Tree} {k k' : Nat} {r : Tree}
    (h : LaidOut preferred n kept attached k r k') : r.node.direction.isSome = true := by
  cases h with
  | along => rfl
  | alone => rfl
  | emptied _ hs => exact hs.directed

/-- The children of an owner of several are only regrouped. Some leave its flow one by one, each with a warning, and are
attached in that order behind what was attached before. The others stay in the flow, alone or as members of new
containers, and apart from its direction and these containers nothing is changed or made. -/
theorem makeFlex_regroups (t : Tree) (j : Journal) (h : 2 ≤ t.flow.length) : ∃ kept out,
    Ends (demoteStep (t.node.direction.getD .column)) (t, j) (demoted t j kept out) ∧
    (kept ++ out).Perm t.flow ∧ kept.Sublist t.flow ∧
    (makeFlex t j).2.findings = j.findings ++ out.map demotion ∧
    (makeFlex t j).1.node.direction.isSome = true ∧
    LaidOut (t.node.direction.getD .column) t.node kept (t.attached ++ out) j.created (makeFlex t j).1
      (makeFlex t j).2.created := by
  have hne : t.flow ≠ [] := List.ne_nil_of_length_pos (by omega)
  obtain ⟨s, hs, -⟩ := ends_layOut (t.node.direction.getD .column) t j
  obtain ⟨kept, out, rfl, hperm, hsub, hkept⟩ := demoted_of_run hne hs.run
  have hmade := makeFlex_of_ends hne hs
  have hlaid : LaidOut (t.node.direction.getD .column) t.node kept (t.attached ++ out) j.created (makeFlex t j).1
      (makeFlex t j).2.created ∧ (makeFlex t j).2.findings = j.findings ++ out.map demotion := by
    rw [hmade]
    rcases last_demoteStep hs.last with hone | haxis
    · obtain ⟨only, rfl⟩ : ∃ only, kept = [only] :=
        List.length_eq_one_iff.1 (le_antisymm hone (List.length_pos_iff.2 hkept))
      exact laid_of_only t.node only (t.attached ++ out) ⟨j.created, j.findings ++ out.map demotion⟩
    · obtain ⟨⟨axis, bs⟩, hc⟩ := Option.isSome_iff_exists.1 haxis
      exact laid_of_chosen hc ⟨j.created, j.findings ++ out.map demotion⟩
  exact ⟨kept, out, hs, hperm, hsub, hlaid.2, hlaid.1.directed, hlaid.1⟩

/-- Two boxes side by side over a wide one, and a small one that lies over all three. -/
def patched : Tree := sheet [⟨0, 0, 100, 40⟩, ⟨110, 0, 100, 40⟩, ⟨0, 50, 210, 40⟩, ⟨90, 30, 30, 30⟩]

/-- The small one leaves the flow, and a container is made of the two. -/
theorem makeFlex_regroups_patched : 2 ≤ patched.flow.length ∧
    ((makeFlex patched {}).1.flow.map fun t => (t.box, t.flow.map box)) =
      [(⟨0, 0, 210, 40⟩, [⟨0, 0, 100, 40⟩, ⟨110, 0, 100, 40⟩]), (⟨0, 50, 210, 40⟩, [])] ∧
    ∃ kept out, kept.length = 3 ∧ out.length = 1 ∧
      LaidOut .column patched.node kept out 0 (makeFlex patched {}).1 (makeFlex patched {}).2.created := by
  obtain ⟨kept, out, -, hperm, -, hfindings, -, hlaid⟩ := makeFlex_regroups patched {} (by decide)
  have hone : (makeFlex patched {}).2.findings.length = 1 := by decide +kernel
  have hfour : patched.flow.length = 4 := rfl
  have hlen := hperm.length_eq
  rw [hfindings, List.length_append, List.length_map, List.length_nil, Nat.zero_add] at hone
  rw [List.length_append] at hlen
  exact ⟨by decide, by decide +kernel, kept, out, by omega, hone, hlaid⟩

end FlexRecovery.Regroup
