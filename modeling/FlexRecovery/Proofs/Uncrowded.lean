import FlexRecovery.Proofs.Clearing
import FlexRecovery.Proofs.Collapsing

/-!
What rebuilding nesting leaves beside a grid. Guests go to the smallest sibling that contains them, and only a list
contains a grid, so grids stay apart where they were told apart before.
-/

namespace FlexRecovery.Regroup

open Node Tree Box

variable {ts us : List Tree} {c e t x y : Tree}

/-- The same box and the same roles, whatever it took in. -/
structure Like (c e : Tree) : Prop where
  box : e.box = c.box
  roles : e.node.roles = c.node.roles

theorem Like.refl (c : Tree) : Like c c := ⟨rfl, rfl⟩

theorem Like.trans (h : Like c e) (h' : Like e x) : Like c x := ⟨h'.box.trans h.box, h'.roles.trans h.roles⟩

theorem Like.isGrid (h : Like c e) : IsGrid e ↔ IsGrid c := by
  rw [IsGrid, IsGrid, hasRole, hasRole, h.roles]

theorem like_hosting (x : Tree) : Like x (hosting x) := ⟨box_hosting x, roles_hosting x⟩

theorem like_addFlow (x : Tree) (us : List Tree) : Like x (x.addFlow us) := ⟨rfl, rfl⟩

theorem like_addAttached (x : Tree) (us : List Tree) : Like x (x.addAttached us) := ⟨rfl, rfl⟩

/-- What is left of flow children in different places. -/
theorem Steady.of_like (h : Steady ts) (hlike : ∀ e ∈ us, ∃ c ∈ ts, Like c e) (hu : (us.map Tree.box).Nodup) :
    Steady us where
  sturdy := by
    intro o ho hg
    obtain ⟨c, hc, hco⟩ := hlike o ho
    have hs := h.sturdy c hc (hco.isGrid.1 hg)
    have each {P : Box → Prop} (hP : ∀ x ∈ ts, x.node.roles.isList = false → P x.box) :
        ∀ x ∈ us, x.node.roles.isList = false → P x.box := by
      intro x hx hl
      obtain ⟨d, hd, hdx⟩ := hlike x hx
      rw [hdx.box]
      exact hP d hd (hdx.roles ▸ hl)
    rw [hco.box]
    exact ⟨hs.height, each (P := fun b => b.contains c.box = false) hs.outside,
      fun hw => each (P := fun b => ¬b.Engulfs c.box) (hs.clear hw)⟩
  separate := by
    refine (List.pairwise_map.1 hu).imp_of_mem fun {a b} ha hb hne hga hgb => ?_
    obtain ⟨c, hc, hca⟩ := hlike a ha
    obtain ⟨d, hd, hdb⟩ := hlike b hb
    rw [hca.box, hdb.box] at hne ⊢
    have : Std.Symm Separate := ⟨fun _ _ h => h.symm⟩
    exact h.separate.forall hc hd (fun he => hne (he ▸ rfl)) (hca.isGrid.1 hga) (hdb.isGrid.1 hgb)

/-! ### Guests -/

theorem like_settled (all : List Guest) (b : Nat) (g : Guest) : Like g.tree (settled all b g) := by
  cases b with
  | zero => exact .refl _
  | succ b =>
    rw [settled_succ_eq, hostTo]
    split
    · exact .refl _
    · exact (like_hosting _).trans (like_addFlow _ _)

theorem proper_settled {all : List Guest} (hall : Hosted all) (hproper : ∀ g ∈ all, Proper g.tree)
    (hsteady : Steady (all.map Guest.tree)) (b : Nat) {g : Guest} (hg : g ∈ all) : Proper (settled all b g) := by
  induction b generalizing g with
  | zero => exact hproper g hg
  | succ b ih =>
    rw [settled_succ_eq, hostTo]
    split
    · exact hproper g hg
    · refine (hproper g hg).hosting.addFlow (List.forall_mem_map.2 fun m hm => ?_)
      obtain ⟨hmem, hin⟩ := inside_of_mem_taken hall hg hm
      refine ⟨ih hmem, fun hl hgrid => ?_⟩
      rw [roles_hosting] at hl
      have hout := (hsteady.sturdy m.tree (List.mem_map_of_mem hmem) ((like_settled all b m).isGrid.1 hgrid)).outside
        g.tree (List.mem_map_of_mem hg) hl
      rw [contains_of_strictlyContains hin] at hout
      cases hout

/-- Flow children that none of the others contains. -/
structure Nested (ts us : List Tree) : Prop where
  like : ∀ e ∈ us, ∃ c ∈ ts, Like c e
  boxes : (us.map Tree.box).Sublist (ts.map Tree.box)

theorem nestContained_underway (h : Underway t) (hsteady : Steady t.flow) (j : Journal) :
    Underway (nestContained t j).1 ∧ Nested t.flow (nestContained t j).1.flow := by
  let all := guests t.flow
  have hall : Hosted all := hosted_guests t.flow
  have htree : all.map Guest.tree = t.flow := map_tree_guests t.flow
  have hmem {g : Guest} (hg : g ∈ all) : g.tree ∈ t.flow := htree ▸ List.mem_map_of_mem hg
  have hproper {g : Guest} (hg : g ∈ all) : Proper (settled all all.length g) :=
    proper_settled hall (fun g hg => h.flow _ (hmem hg)) (by rwa [htree]) _ hg
  have hflow : (nestContained t j).1.flow = (all.filter (·.host.isNone)).map (settled all all.length) := rfl
  have hattached : (nestContained t j).1.attached =
    t.attached ++ (all.filter (isTurnedAway all)).map (settled all all.length) := rfl
  refine ⟨⟨h.sparing, ?_, ?_⟩, ?_, ?_⟩
  · rw [hflow]
    exact List.forall_mem_map.2 fun g hg => hproper (List.mem_of_mem_filter hg)
  · rw [hattached]
    exact List.forall_mem_append.2 ⟨h.attached, List.forall_mem_map.2 fun g hg =>
      (hproper (List.mem_of_mem_filter hg)).below⟩
  · rw [hflow]
    exact List.forall_mem_map.2 fun g hg => ⟨g.tree, hmem (List.mem_of_mem_filter hg), like_settled _ _ _⟩
  · have hbox : (Tree.box ∘ settled all all.length) = Tree.box ∘ Guest.tree := funext fun g => box_settled _ _ _
    rw [hflow, List.map_map, hbox, ← List.map_map, ← htree]
    exact (List.filter_sublist.map _).map _

/-! ### Siblings that overlap -/

/-- What is left of some flow children. -/
structure Attaching.Underway (ts : List Tree) (a : Attaching) : Prop where
  siblings : ∀ s ∈ a.siblings, Proper s.tree ∧ ∃ c ∈ ts, Like c s.tree
  out : ∀ t ∈ a.out, t.Every Orderly

theorem Attaching.Underway.attachTo {a : Attaching} (h : a.Underway ts) (n : Sibling) (host : Nat) {prepare : Tree → Tree}
    (hprepare : ∀ x, Proper x → Proper (prepare x) ∧ Like x (prepare x)) (ht : t.Every Orderly) :
    (attachTo a n host prepare t).Underway ts := by
  refine ⟨List.forall_mem_map.2 fun m hm => ?_, h.out⟩
  obtain ⟨hp, c, hc, hl⟩ := h.siblings m (List.mem_of_mem_filter hm)
  split
  · obtain ⟨hp', hl'⟩ := hprepare m.tree hp
    exact ⟨hp'.addAttached (List.forall_mem_singleton.2 ht), c, hc, (hl.trans hl').trans (like_addAttached _ _)⟩
  · exact ⟨hp, c, hc, hl⟩

theorem Attaching.Underway.attachOne {a : Attaching} (h : a.Underway ts) (p : Nat) (j : Journal) :
    (attachOne a p j).1.Underway ts := by
  unfold Regroup.attachOne
  cases hs : a.siblings.find? (·.position == p) with
  | none => exact h
  | some n =>
    have hn := (h.siblings n (List.mem_of_find?_eq_some hs)).1
    dsimp only
    cases moveOf a.siblings n with
    | stays => exact h
    | onto host => exact h.attachTo n host (fun x hx => ⟨hx.hosting, like_hosting x⟩) hn.below
    | asBorder host => exact h.attachTo n host (fun x hx => ⟨hx, .refl x⟩) (hn.addMark rfl).below
    | offLeaf =>
      exact ⟨fun s hs => h.siblings s (List.mem_of_mem_filter hs),
        List.forall_mem_append.2 ⟨h.out, List.forall_mem_singleton.2 hn.below⟩⟩

theorem attachOverlapping_underway (h : Underway t) (j : Journal) :
    Underway (attachOverlapping t j).1 ∧ Nested t.flow (attachOverlapping t j).1.flow := by
  let order := (stableSort movesBefore (Sibling.list t.flow)).map (·.position)
  have run (order : List Nat) (a : Attaching) (j : Journal) (ha : a.Underway t.flow) :
      (order.foldlM attachOne a j).1.Underway t.flow := by
    induction order generalizing a j with
    | nil => exact ha
    | cons p order ih =>
      rw [List.foldlM_cons, Journaled.run_bind]
      exact ih _ _ (ha.attachOne p j)
  have hlist : ∀ s ∈ Sibling.list t.flow, s.tree ∈ t.flow := fun s hs => by
    rw [← Sibling.map_tree_list t.flow]
    exact List.mem_map_of_mem hs
  have hdone := run order { siblings := Sibling.list t.flow } j
    ⟨fun s hs => ⟨h.flow _ (hlist s hs), s.tree, hlist s hs, .refl _⟩, by simp⟩
  refine ⟨⟨h.sparing, List.forall_mem_map.2 fun s hs => (hdone.siblings s hs).1,
    List.forall_mem_append.2 ⟨h.attached, hdone.out⟩⟩, List.forall_mem_map.2 fun s hs => (hdone.siblings s hs).2,
    (calm_attachOverlapping t j).1⟩

/-! ### All of it -/

/-- No two siblings that are left are the same or one in the other, and grids among them stand apart. -/
theorem rebuildNesting_underway (h : Underway t) (hf : Foldable t.flow) (j : Journal) :
    Underway (rebuildNesting t j).1 ∧ Steady (rebuildNesting t j).1.flow ∧
      Strewn ((rebuildNesting t j).1.flow.map Tree.box) ∧ ((rebuildNesting t j).1.flow.map Tree.box).Nodup := by
  obtain ⟨h1, hsteady, -⟩ := collapseEqual_underway h hf j
  obtain ⟨h2, hn2⟩ := nestContained_underway h1 hsteady (collapseEqual t j).2
  obtain ⟨h3, hn3⟩ := attachOverlapping_underway h2 (nestContained (collapseEqual t j).1 (collapseEqual t j).2).2
  change Underway (rebuildNesting t j).1 at h3
  change Nested _ (rebuildNesting t j).1.flow at hn3
  have hsub := hn3.boxes.trans hn2.boxes
  have hdiffer : ((collapseEqual t j).1.flow.map Tree.box).Pairwise fun a b => a.same b = false :=
    List.pairwise_map.2 (pairwise_collapseEqual t j)
  have hnodup := (hdiffer.sublist hsub).imp (S := fun a b => a ≠ b) fun {a b} hd he => by
    rw [← he, same_self] at hd
    cases hd
  have outside : ∀ a ∈ (rebuildNesting t j).1.flow.map Tree.box, ∀ b ∈ (rebuildNesting t j).1.flow.map Tree.box,
      a.strictlyContains b = false := by
    intro a ha b hb
    obtain ⟨x, hx, rfl⟩ := List.mem_map.1 (hn3.boxes.subset ha)
    obtain ⟨y, hy, rfl⟩ := List.mem_map.1 (hn3.boxes.subset hb)
    exact outside_nestContained _ _ x hx y hy
  have : Std.Symm fun a b : Box => a.same b = false := ⟨fun a b h => same_comm a b ▸ h⟩
  refine ⟨h3, hsteady.of_like (fun e he => ?_) hnodup, ⟨?_, fun a ha b hb hne => ⟨?_, outside a ha b hb, outside b hb a ha⟩⟩,
    hnodup⟩
  · obtain ⟨d, hd, hde⟩ := hn3.like e he
    obtain ⟨c, hc, hcd⟩ := hn2.like d hd
    exact ⟨c, hc, hcd.trans hde⟩
  · exact List.forall_mem_map.2 fun c hc => (h3.flow c hc).plain.solid
  · exact hdiffer.forall (hsub.subset ha) (hsub.subset hb) hne

end FlexRecovery.Regroup
