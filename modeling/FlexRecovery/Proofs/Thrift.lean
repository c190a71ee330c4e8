import FlexRecovery.Proofs.Planned
import FlexRecovery.Proofs.Stages
import FlexRecovery.Proofs.Uncrowded

/-!
No node of a regrouped tree states more than it is allowed. Each level of regrouping folds, nests, makes lists and lays
out the flow children of one owner, and through all of this no two grids come to be one node.
-/

namespace FlexRecovery.Regroup

open Node Tree Box

variable {t : Tree} {ts us : List Tree}

/-! ### Redundant children -/

/-- What folds into its owner would contain every grid beside it. -/
theorem Assorted.not_isGrid (h : Assorted t) {c : Tree} (hc : c ∈ t.flow) (hr : isRedundant t.box c = true) :
    ∀ g ∈ t.flow, ¬IsGrid g := by
  obtain ⟨⟨-, hl⟩, hs⟩ : (c.node.isContent = false ∧ c.node.roles.isList = false) ∧ c.box.same t.box = true := by
    simpa [isRedundant] using hr
  intro g hg hgrid
  have hout := (h.foldable.sturdy g hg hgrid g hg (same_self _)).outside c hc hl
  have hframes := frames_edges.1 (h.framed ⟨g, hg, hgrid⟩ g hg)
  have hs := same_edges.1 hs
  have hin : c.box.contains g.box = true := by
    rw [contains_edges]
    simp only [Level, start, stop] at hs
    omega
  rw [hin] at hout
  cases hout

theorem orderly_foldStep {s s' : Tree × Nat} (hstep : foldStep s = some s') (h : s.1.Every Orderly)
    (hp : isPreset s.1.node = false) : s'.1.Every Orderly ∧ isPreset s'.1.node = false := by
  obtain ⟨⟨before, c, after⟩, hs, rfl⟩ := Option.map_eq_some_iff.1 hstep
  obtain ⟨hflow, hr⟩ := eq_of_splitFirst hs
  obtain ⟨ho, hm⟩ := every_iff.1 h
  have ha := ho.assorted hp
  have hc : c ∈ s.1.flow := by simp [hflow]
  have hl : c.node.roles.isList = false := by
    simp only [isRedundant, Bool.and_eq_true, Bool.not_eq_true'] at hr
    exact hr.1.2
  have hcp : Proper c := ⟨ha.plain c hc, hm c (List.mem_append_left _ hc)⟩
  have hgrid := ha.not_isGrid hc hr
  obtain ⟨hlist, hrow⟩ := isPreset_iff.1 hp
  have hpreset : isPreset (s.1.node.absorb c.node) = false := by
    rw [isPreset_iff, isList_absorb, hlist, hl]
    exact ⟨rfl, row_absorb hrow (isPreset_iff.1 (hcp.plain.of_not_list hl).1).2⟩
  have hsub : ∀ m ∈ before ++ c.flow ++ after, m ∈ s.1.flow ∨ m ∈ c.flow := by
    rw [hflow]
    simp only [List.mem_append, List.mem_cons]
    tauto
  refine ⟨every_iff.2 ⟨⟨?_, fun _ => assorted_of_not_isGrid ?_ ?_⟩, fun m hmem => ?_⟩, hpreset⟩
  · refine ho.sparing.absorb hcp.orderly.sparing (fun _ => ?_) hcp.plain.chrome
    exact Bool.eq_false_iff.2 (hgrid c hc)
  · exact fun m hmem => (hsub m hmem).elim (ha.plain m) fun h => (hcp.flow hl m h).1.plain
  · exact fun m hmem => (hsub m hmem).elim (hgrid m) fun h => (hcp.flow hl m h).2
  · simp only [Tree.members, List.mem_append] at hmem
    rcases hmem with hmem | hmem | hmem
    · rcases hsub m (by simpa [or_assoc] using hmem) with h | h
      · exact hm m (List.mem_append_left _ h)
      · exact (hcp.flow hl m h).1.below
    · exact hm m (List.mem_append_right _ hmem)
    · exact hcp.members m (List.mem_append_right _ hmem)

theorem orderly_foldRedundant (h : t.Every Orderly) (hp : isPreset t.node = false) (count : Nat) :
    (foldRedundant t count).1.Every Orderly ∧ isPreset (foldRedundant t count).1.node = false := by
  have key : ∀ s, Relation.ReflTransGen (fun a b => foldStep a = some b) (t, count) s →
      s.1.Every Orderly ∧ isPreset s.1.node = false := by
    intro s hs
    induction hs with
    | refl => exact ⟨h, hp⟩
    | tail _ hstep ih => exact orderly_foldStep hstep ih.1 ih.2
  exact key _ (ends_foldRedundant t count).run

theorem underway_of_every (h : t.Every Orderly) (hp : isPreset t.node = false) : Underway t ∧ Foldable t.flow := by
  obtain ⟨ho, hm⟩ := every_iff.1 h
  have ha := ho.assorted hp
  exact ⟨⟨ho.sparing, fun c hc => ⟨ha.plain c hc, hm c (List.mem_append_left _ hc)⟩,
    fun a ha => hm a (List.mem_append_right _ ha)⟩, ha.foldable⟩

/-! ### Lists and tables -/

/-- What a pass makes of the flow children is proper, and so is what it leaves alone. -/
theorem Rearranged.proper {α : Type} {P : α → Tree → Prop} {ms : α → List Sibling} {xs : List α}
    {made : List (α × Tree)} {left : List Sibling} (hr : Rearranged P ms xs (Sibling.list ts) made left)
    (hflow : us.Perm (made.map Prod.snd ++ trees left))
    (hmade : ∀ m ∈ made, ∃ k k', Compiled (trees (ms m.1)) k m.2 k') (hts : ∀ c ∈ ts, Proper c) (hf : Foldable ts) :
    ∀ u ∈ us, Proper u := by
  have hperm : ts.Perm (made.flatMap (fun m => trees (ms m.1)) ++ trees left) := by
    have hp := hr.members.map Sibling.tree
    rw [Sibling.map_tree_list, List.map_append, List.map_flatMap] at hp
    exact hp
  intro u hu
  rcases List.mem_append.1 (hflow.mem_iff.1 hu) with hu | hu
  · obtain ⟨m, hm, rfl⟩ := List.mem_map.1 hu
    obtain ⟨k, k', hc⟩ := hmade m hm
    have hsub : (trees (ms m.1)).Subperm ts := by
      have hs : (trees (ms m.1)).Sublist (made.flatMap fun m => trees (ms m.1)) :=
        List.sublist_flatten_of_mem (List.mem_map_of_mem hm)
      exact (hs.trans (List.sublist_append_left _ _)).subperm.trans hperm.symm.subperm
    exact hc.proper (fun c hc => hts c (hsub.subset hc)) (hf.subperm hsub)
  · exact hts u (hperm.mem_iff.2 (List.mem_append_right _ hu))

theorem Underway.tables (h : Underway t) (hf : Foldable t.flow) (j : Journal) : Underway (tables t j).1 := by
  obtain ⟨made, left, hr, hflow⟩ := rearranged_tables t j
  exact ⟨h.sparing, hr.proper hflow (fun m hm => (hr.each m hm).1.2.1) h.flow hf, h.attached⟩

theorem Underway.listsAlong (h : Underway t) (axis : Axis) (hf : Foldable t.flow) (j : Journal) :
    Underway (listsAlong axis t j).1 := by
  obtain ⟨made, left, hr, hflow⟩ := rearranged_listsAlong axis t j
  refine ⟨h.sparing, hr.proper hflow (fun m hm => ?_) h.flow hf, h.attached⟩
  obtain ⟨role, -, hmade⟩ := (hr.each m hm).1
  exact hmade.1

theorem makeLists_underway (h : Underway t) (hsteady : Steady t.flow) (hstrewn : Strewn (t.flow.map Tree.box))
    (hnodup : (t.flow.map Tree.box).Nodup) (j : Journal) :
    Underway (makeLists t j).1 ∧ Foldable (makeLists t j).1.flow := by
  let u := tables t j
  let v := listsAlong .row u.1 u.2
  obtain ⟨ht, hu, hv, hw⟩ := foldable_passes hstrewn hnodup hsteady (u := u) (v := v) rfl rfl rfl
  by_cases hl : t.flow.length < 2
  · rw [makeLists, if_pos hl]
    exact ⟨h, ht⟩
  · have hrun : makeLists t j = listsAlong .column v.1 v.2 := by
      rw [makeLists, if_neg hl, Journaled.run_bind, Journaled.run_bind]
    rw [hrun]
    exact ⟨((h.tables ht j).listsAlong .row hu u.2).listsAlong .column hv v.2, hw⟩

/-! ### The flex axis -/

/-- An owner and its members, when its flow children are final. -/
structure Finished (t : Tree) : Prop where
  sparing : t.node.Sparing
  members : ∀ m ∈ t.members, m.Every Orderly

theorem Finished.collapseWrapper (h : Finished t) : Finished (collapseWrapper t) := by
  unfold Regroup.collapseWrapper
  split
  · next only hflow =>
    extract_lets n isFixed
    split
    · refine ⟨h.sparing, fun m hm => ?_⟩
      have ho := (every_iff.1 (h.members only (List.mem_append_left _ (by simp [hflow])))).2
      simp only [Tree.members, List.mem_append] at hm
      rcases hm with hm | hm | hm
      · exact ho m (List.mem_append_left _ hm)
      · exact h.members m (List.mem_append_right _ hm)
      · exact ho m (List.mem_append_right _ hm)
    · exact h
  · exact h

theorem orderly_bandTree (axis : Axis) {band : List Tree} (hne : band ≠ []) (hb : ∀ c ∈ band, Proper c)
    (hf : Foldable band) : Journaled.Gives (Every Orderly) (bandTree axis band) := by
  intro j
  unfold bandTree
  split
  · next t => exact (hb t (List.mem_singleton_self _)).below
  · have hp := perm_sortByKey (fun t : Tree => t.box.start axis.cross) band
    have hroles : (({} : Roles).insertAll []).toList = [] := rfl
    have hc := container_wrapped axis.cross hroles (by simp) (Tree.hull band)
      (sortByKey (fun t => t.box.start axis.cross) band) j
    exact hc.orderly ((Tree.around_hull hne).perm (hp.symm.map _)) (fun c hc => hb c (hp.mem_iff.1 hc))
      (hf.subperm hp.subperm)

theorem finished_layOut (preferred : Axis) {budget : Nat} {j : Journal} (h : Underway t) (hf : Foldable t.flow) :
    Finished (layOut preferred budget t j).1 := by
  have finished {u : Tree} (hu : Underway u) : Finished u :=
    ⟨hu.sparing, List.forall_mem_append.2 ⟨fun c hc => (hu.flow c hc).below, hu.attached⟩⟩
  have directed {u : Tree} (hu : Finished u) (d : Option Axis) :
      Finished (collapseWrapper ⟨{ u.node with direction := d }, u.flow, u.attached⟩) :=
    Finished.collapseWrapper ⟨hu.sparing, hu.members⟩
  induction budget generalizing t j with
  | zero => exact directed (finished h) _
  | succ budget ih =>
    unfold layOut
    split
    · exact directed (finished h) _
    · next hl =>
      cases haxis : chooseAxis preferred t.flow with
      | some p =>
        obtain ⟨axis, bs⟩ := p
        obtain ⟨hbs, -⟩ := eq_bands_of_chooseAxis haxis
        have hsub : ∀ b ∈ bs, b.Subperm t.flow := by
          intro b hb
          have hs : (sortByKey (fun t => t.box.start axis.cross) b).Sublist
              (bs.flatMap (sortByKey fun t => t.box.start axis.cross)) :=
            List.sublist_flatten_of_mem (List.mem_map_of_mem hb)
          exact (perm_sortByKey _ b).symm.subperm.trans (hs.subperm.trans (perm_flatMap_bands hbs).symm.subperm)
        have hmade : ∀ u ∈ (bs.mapM (bandTree axis) j).1, u.Every Orderly := Journaled.gives_mapM (fun b hb =>
          orderly_bandTree axis (ne_nil_of_mem_bands (hbs ▸ hb)) (fun c hc => h.flow c ((hsub b hb).subset hc))
            (hf.subperm (hsub b hb))) _
        have hu : Finished ⟨t.node, (bs.mapM (bandTree axis) j).1, t.attached⟩ :=
          ⟨h.sparing, List.forall_mem_append.2 ⟨hmade, h.attached⟩⟩
        exact directed hu (some axis)
      | none =>
        obtain ⟨i, o, ho, hperm⟩ := offender?_of_not_length_le_one hl
        dsimp only
        rw [ho]
        dsimp only
        rw [Journaled.run_bind]
        have hsub : (t.flow.eraseIdx i).Sublist t.flow := List.eraseIdx_sublist _ _
        refine ih ⟨h.sparing, fun c hc => h.flow c (hsub.subset hc), ?_⟩ (hf.subperm hsub.subperm)
        exact List.forall_mem_append.2 ⟨h.attached, List.forall_mem_singleton.2
          (h.flow o (hperm.mem_iff.2 List.mem_cons_self)).below⟩

theorem finished_makeFlex {j : Journal} (h : Underway t) (hf : Foldable t.flow) : Finished (makeFlex t j).1 := by
  unfold makeFlex
  split
  · exact ⟨h.sparing, List.forall_mem_append.2 ⟨fun c hc => (h.flow c hc).below, h.attached⟩⟩
  · exact finished_layOut _ h hf

/-! ### Every level -/

theorem finished_level (h : t.Every Orderly) (j : Journal) : Finished (level t j).1 := by
  obtain ⟨ho, hm⟩ := every_iff.1 h
  cases hp : isPreset t.node with
  | true =>
    rw [level_of_preset hp]
    exact ⟨ho.sparing, hm⟩
  | false =>
    rw [level_eq hp, Journaled.run_bind, Journaled.run_bind, Journaled.run_bind]
    have hfold : (mergeRedundant t j).1.1 = (foldRedundant t 0).1 := by
      rw [mergeRedundant_eq, foldRedundant_eq]
    obtain ⟨h0, hp0⟩ := orderly_foldRedundant h hp 0
    rw [← hfold] at h0 hp0
    obtain ⟨h1, hf1⟩ := underway_of_every h0 hp0
    obtain ⟨h2, hsteady, hstrewn, hnodup⟩ := rebuildNesting_underway h1 hf1 (mergeRedundant t j).2
    obtain ⟨h3, hf3⟩ := makeLists_underway h2 hsteady hstrewn hnodup
      (rebuildNesting (mergeRedundant t j).1.1 (mergeRedundant t j).2).2
    exact finished_makeFlex h3 hf3

/-- Whatever regrouping makes of a tree, no node of it states more than it is allowed. -/
theorem sparing_within {budget : Nat} {j : Journal} (h : t.Every Orderly) :
    (within budget t j).1.Every fun s => s.node.Sparing := by
  induction budget generalizing t j with
  | zero => exact fun s hs => (h s hs).sparing
  | succ budget ih =>
    cases hc : t.node.isContent with
    | true =>
      have hr : within (budget + 1) t j = (t, j) := by
        rw [within, hc]
        rfl
      rw [hr]
      exact fun s hs => (h s hs).sparing
    | false =>
      have hl := finished_level h j
      rw [run_within hc]
      exact every_iff.2 ⟨hl.sparing, List.forall_mem_append.2
        ⟨Journaled.gives_mapM (fun m hm _ => ih (hl.members m (List.mem_append_left _ hm))) _,
          Journaled.gives_mapM (fun m hm _ => ih (hl.members m (List.mem_append_right _ hm))) _⟩⟩

end FlexRecovery.Regroup
