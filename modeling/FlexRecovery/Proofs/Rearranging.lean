import FlexRecovery.Proofs.Listing

/-!
What a pass that makes lists leaves of the flow children. The containers that it makes come in the order in which it tried
them, each takes the place of its own members, and each lies clear of everything that is left beside it.
-/

namespace FlexRecovery.Regroup

open Tree

variable {α : Type} {P : α → Tree → Prop} {ms : α → List Sibling} {make : Siblings → α → Journaled Siblings}

/-- Leaves the siblings alone, or puts one container in the place of its members. -/
def Replaces (P : Tree → Prop) (ms : List Sibling) (make : Siblings → Journaled Siblings) : Prop :=
  ∀ siblings j, (make siblings j).1 = siblings ∨ ms ≠ [] ∧ isClear siblings ms = true ∧
    ∃ made, P made ∧ made.box = Sibling.hull ms ∧ (make siblings j).1 = Sibling.replace (positions ms) made siblings

/-- What was made of some of the siblings, each container with what it was made for, and the siblings that are left. -/
structure Rearranged (P : α → Tree → Prop) (ms : α → List Sibling) (xs : List α) (ss : List Sibling)
    (made : List (α × Tree)) (left : List Sibling) : Prop where
  inOrder : (made.map Prod.fst).Sublist xs
  each : ∀ m ∈ made, P m.1 m.2 ∧ m.2.box = Sibling.hull (ms m.1)
  members : ss.Perm (made.flatMap (fun m => ms m.1) ++ left)
  apart : made.Pairwise fun m n => n.2.box.overlaps m.2.box = false
  clear : ∀ m ∈ made, ∀ s ∈ left, m.2.box.overlaps s.box = false

theorem Rearranged.mem_left {xs : List α} {ss left : List Sibling} {made : List (α × Tree)}
    (h : Rearranged P ms xs ss made left) {s : Sibling} (hs : s ∈ left) : s ∈ ss :=
  h.members.mem_iff.2 (List.mem_append_right _ hs)

theorem Rearranged.mem_made {xs : List α} {ss left : List Sibling} {made : List (α × Tree)}
    (h : Rearranged P ms xs ss made left) {m : α × Tree} (hm : m ∈ made) {s : Sibling} (hs : s ∈ ms m.1) : s ∈ ss :=
  h.members.mem_iff.2 (List.mem_append_left _ (List.mem_flatMap.2 ⟨m, hm, hs⟩))

theorem Sibling.Apart.perm {l l' : List Sibling} (hl : Apart l) (h : l.Perm l') : Apart l' :=
  (h.map position).nodup_iff.1 hl

/-- The container goes in front of the siblings that are not its members. -/
theorem perm_replace {now ms : List Sibling} {t : Tree} (hnow : Sibling.Apart now) (hne : ms ≠ [])
    (hmem : ∀ m ∈ ms, m ∈ now) : ∃ p, (Sibling.replace (positions ms) t now).Perm
      (⟨p, t⟩ :: now.filter fun r => !(positions ms).contains r.position) ∧
    Sibling.Apart (Sibling.replace (positions ms) t now) := by
  obtain ⟨m, hm⟩ := List.exists_mem_of_ne_nil _ hne
  have htaken : ∃ s ∈ now, (positions ms).contains s.position = true :=
    ⟨m, hmem m hm, List.contains_iff_mem.2 (List.mem_map_of_mem hm)⟩
  obtain ⟨before, p, after, he, hrest, hpos⟩ := Sibling.exists_replace t htaken
  refine ⟨p, ?_, ?_⟩
  · rw [he, hrest]
    exact List.perm_middle
  · rw [he, Sibling.Apart, List.map_append, List.map_cons]
    exact hpos.nodup hnow

/-- The siblings that are left where some are taken. -/
def remaining (ms ss : List Sibling) : List Sibling := ss.filter fun r => !(positions ms).contains r.position

theorem mem_remaining {ms ss : List Sibling} {s : Sibling} :
    s ∈ remaining ms ss ↔ s ∈ ss ∧ (positions ms).contains s.position = false := by
  rw [remaining, List.mem_filter, Bool.not_eq_true']

/-- Taking some of the siblings that are left keeps the containers that were made. -/
theorem remaining_eq_self {ms news left : List Sibling} (h : Sibling.Apart (news ++ left)) (hmem : ∀ m ∈ ms, m ∈ left) :
    remaining ms news = news := by
  rw [Sibling.Apart, List.map_append] at h
  refine List.filter_eq_self.2 fun s hs => ?_
  rw [Bool.not_eq_true', Bool.eq_false_iff, ne_eq, List.contains_iff_mem, positions, List.mem_map]
  rintro ⟨m, hm, he⟩
  exact (List.nodup_append.1 h).2.2 _ (List.mem_map_of_mem hs) _ (List.mem_map_of_mem (hmem m hm)) he.symm

/-- A container of siblings that are left joins the ones that were made. -/
theorem perm_replace_append {now news left ms : List Sibling} {t : Tree} (hnow : Sibling.Apart now)
    (hperm : now.Perm (news ++ left)) (hne : ms ≠ []) (hmem : ∀ m ∈ ms, m ∈ left) :
    ∃ p, (Sibling.replace (positions ms) t now).Perm ((⟨p, t⟩ :: news) ++ remaining ms left) ∧
      Sibling.Apart (Sibling.replace (positions ms) t now) := by
  have hin : ∀ m ∈ ms, m ∈ now := fun m hm => hperm.mem_iff.2 (List.mem_append_right _ (hmem m hm))
  obtain ⟨p, hp, hapart⟩ := perm_replace (t := t) hnow hne hin
  refine ⟨p, hp.trans ?_, hapart⟩
  have hf : (remaining ms now).Perm (remaining ms (news ++ left)) := hperm.filter _
  rw [remaining, remaining, List.filter_append] at hf
  change (remaining ms now).Perm (remaining ms news ++ remaining ms left) at hf
  rw [remaining_eq_self (hnow.perm hperm) hmem] at hf
  exact hf.cons _

/-- Containers of members that do not meet are made one after another, beside those that were made before. -/
theorem rearranged_foldlM {xs : List α} (h : ∀ x ∈ xs, Replaces (P x) (ms x) fun siblings => make siblings x)
    {now news left : List Sibling} (j : Journal) (hnow : Sibling.Apart now) (hperm : now.Perm (news ++ left))
    (hms : Sibling.Apart (xs.flatMap ms)) (hmem : ∀ m ∈ xs.flatMap ms, m ∈ left) :
    ∃ made rest, Rearranged P ms xs left made rest ∧
      (trees (xs.foldlM make now j).1).Perm (trees news ++ (made.map Prod.snd ++ trees rest)) ∧
      ∀ m ∈ made, ∀ s ∈ news, m.2.box.overlaps s.box = false := by
  induction xs generalizing now news left j with
  | nil =>
    refine ⟨[], left, ⟨.slnil, by simp, .refl _, .nil, by simp⟩, ?_, by simp⟩
    have hp := hperm.map Sibling.tree
    rw [List.map_append] at hp
    exact hp
  | cons x xs ih =>
    rw [List.flatMap_cons] at hms hmem
    rw [Sibling.Apart, List.map_append] at hms
    obtain ⟨hxms, hmsx, hdisjoint⟩ := List.nodup_append.1 hms
    have hx : ∀ m ∈ ms x, m ∈ left := fun m hm => hmem m (List.mem_append_left _ hm)
    have hxs : ∀ m ∈ xs.flatMap ms, m ∈ left := fun m hm => hmem m (List.mem_append_right _ hm)
    have hreplaces := h x List.mem_cons_self
    have h := fun y hy => h y (List.mem_cons_of_mem _ hy)
    rw [List.foldlM_cons, Journaled.run_bind]
    rcases hreplaces now j with hsame | ⟨hne, hclear, t, hP, hbox, hr⟩
    · rw [hsame]
      obtain ⟨made, rest, hmade, hres, hnews⟩ := ih h (make now x j).2 hnow hperm hmsx hxs
      exact ⟨made, rest, ⟨hmade.inOrder.trans (List.sublist_cons_self _ _), hmade.each, hmade.members, hmade.apart,
        hmade.clear⟩, hres, hnews⟩
    · have hboth := hnow.perm hperm
      have hleft : Sibling.Apart left := hboth.sublist ((List.sublist_append_right _ _).map _)
      have clear_of {s : Sibling} (hs : s ∈ now) (hk : (positions (ms x)).contains s.position = false) :
          t.box.overlaps s.box = false := hbox ▸ overlaps_of_isClear hclear hs hk
      obtain ⟨p, hnext, hapart⟩ := perm_replace_append (t := t) hnow hperm hne hx
      have hrest : ∀ m ∈ xs.flatMap ms, m ∈ remaining (ms x) left := by
        refine fun m hm => mem_remaining.2 ⟨hxs m hm, Bool.eq_false_iff.2 fun hc => ?_⟩
        exact hdisjoint _ (List.contains_iff_mem.1 hc) _ (List.mem_map_of_mem hm) rfl
      rw [hr]
      obtain ⟨made, rest, hmade, hres, hnews⟩ := ih h (make now x j).2 hapart hnext hmsx hrest
      have hnew := fun m hm => hnews m hm _ List.mem_cons_self
      have hnews := fun m hm s hs => hnews m hm s (List.mem_cons_of_mem _ hs)
      refine ⟨(x, t) :: made, rest, ⟨hmade.inOrder.cons_cons _, List.forall_mem_cons.2 ⟨⟨hP, hbox⟩, hmade.each⟩, ?_,
        List.pairwise_cons.2 ⟨hnew, hmade.apart⟩, List.forall_mem_cons.2 ⟨fun s hs => ?_, hmade.clear⟩⟩, ?_,
        List.forall_mem_cons.2 ⟨fun s hs => ?_, hnews⟩⟩
      · rw [List.flatMap_cons, List.append_assoc]
        exact (hleft.perm_members hxms hx).trans (hmade.members.append_left _)
      · have hs := mem_remaining.1 (hmade.mem_left hs)
        exact clear_of (hperm.mem_iff.2 (List.mem_append_right _ hs.1)) hs.2
      · exact hres.trans List.perm_middle.symm
      · exact clear_of (hperm.mem_iff.2 (List.mem_append_left _ hs))
          (mem_remaining.1 ((remaining_eq_self hboth hx).symm ▸ hs)).2

/-- Whatever is made of parts of all siblings that do not meet. -/
theorem rearranged_list {xs : List α} {flow : List Tree} (hsub : (xs.flatMap ms).Subperm (Sibling.list flow))
    (h : ∀ x ∈ xs, Replaces (P x) (ms x) fun siblings => make siblings x) (j : Journal) :
    ∃ made rest, Rearranged P ms xs (Sibling.list flow) made rest ∧
      (trees (xs.foldlM make (Sibling.list flow) j).1).Perm (made.map Prod.snd ++ trees rest) := by
  have hl := Sibling.apart_list flow
  have hapart : Sibling.Apart (xs.flatMap ms) := by
    obtain ⟨l, hp, hs⟩ := hsub
    exact (hp.map Sibling.position).nodup_iff.1 (List.Nodup.sublist (hs.map _) hl)
  have hnews : (Sibling.list flow).Perm ([] ++ Sibling.list flow) := .refl _
  obtain ⟨made, rest, hmade, hres, -⟩ := rearranged_foldlM h j hl hnews hapart fun m hm => hsub.subset hm
  exact ⟨made, rest, hmade, hres⟩

/-! ### Lists and tables -/

/-- A container with that role, made of the siblings. -/
def MadeOf (role : Role) (ms : List Sibling) (t : Tree) : Prop :=
  (∃ k k', Compiled (trees ms) k t k') ∧ t.node.roles.toList = [role]

theorem replaces_of_compiles {role : Role} {ms : List Sibling} {make : Siblings → Journaled Siblings} (hne : ms ≠ [])
    (h : Compiles role ms make) (hblocked : ∀ siblings, isClear siblings ms = false → make siblings = pure siblings) :
    Replaces (MadeOf role ms) ms make := by
  intro siblings j
  cases hclear : isClear siblings ms with
  | false =>
    rw [hblocked siblings hclear]
    exact .inl rfl
  | true =>
    obtain ⟨made, hmade, hrole, hbox, hr⟩ := h siblings j hclear
    exact .inr ⟨hne, rfl, made, ⟨⟨_, _, hmade⟩, hrole⟩, hbox, hr⟩

theorem Replaces.imp {P P' : Tree → Prop} {ms : List Sibling} {make : Siblings → Journaled Siblings}
    (h : Replaces P ms make) (hP : ∀ t, P t → P' t) : Replaces P' ms make := fun siblings j =>
  (h siblings j).imp_right fun ⟨hne, hclear, made, hmade, hr⟩ => ⟨hne, hclear, made, hP _ hmade, hr⟩

/-- What is made of a chain. -/
def Listed (axis : Axis) (chain : List Track) (t : Tree) : Prop :=
  ∃ role, Enlists axis chain role ∧ MadeOf role (chain.flatMap Track.items) t

/-- What is made of rows. -/
def Tabled (rows : List Line) (t : Tree) : Prop :=
  (2 ≤ rows.length ∧ ∀ l ∈ rows, 2 ≤ l.items.length) ∧ MadeOf .tableBody (rows.flatMap (·.items)) t

theorem replaces_makeList (owner : Option DesignId) {axis : Axis} {lines : List Line} {chain : List Track}
    (h : chain ∈ chains axis lines) : Replaces (Listed axis chain) (chain.flatMap Track.items) fun siblings =>
      makeList owner axis siblings chain := by
  obtain ⟨hf, hn⟩ := fits_of_mem_chains h
  rcases compiles_makeList axis owner hf hn with hmake | ⟨hne, role, hrole, hc, hb⟩
  · exact fun siblings _ => .inl (congrArg Prod.fst (congrFun (hmake siblings) _))
  · exact (replaces_of_compiles hne hc hb).imp fun _ ht => ⟨role, hrole, ht⟩

theorem replaces_makeTable (owner : Option DesignId) {rows : List Line}
    (h : rows.IsChain fun a b => sameTable a b = true) : Replaces (Tabled rows) (rows.flatMap (·.items)) fun siblings =>
      makeTable owner siblings rows := by
  rcases compiles_makeTable owner h with hmake | ⟨hne, hlong, hc, hb⟩
  · exact fun siblings _ => .inl (congrArg Prod.fst (congrFun (hmake siblings) _))
  · exact (replaces_of_compiles hne hc hb).imp fun _ ht => ⟨hlong, ht⟩

/-- What a pass along an axis makes of some flow children. -/
theorem rearranged_listsAlong (axis : Axis) (t : Tree) (j : Journal) : ∃ made rest,
    Rearranged (Listed axis) (fun c => c.flatMap Track.items) (chains axis (Line.collect axis (Sibling.list t.flow)))
      (Sibling.list t.flow) made rest ∧
    (listsAlong axis t j).1.flow.Perm (made.map Prod.snd ++ trees rest) :=
  rearranged_list
    ((items_chains_sublist _).subperm.trans (Line.perm_collect axis _).subperm)
    (fun _ hc => replaces_makeList t.node.id hc) j

theorem rearranged_tables (t : Tree) (j : Journal) : ∃ made rest,
    Rearranged Tabled (fun rows => rows.flatMap (·.items)) ((Line.collect .row (Sibling.list t.flow)).splitBy sameTable)
      (Sibling.list t.flow) made rest ∧
    (tables t j).1.flow.Perm (made.map Prod.snd ++ trees rest) := by
  refine rearranged_list ?_ (fun _ hr => replaces_makeTable t.node.id (List.isChain_of_mem_splitBy hr)) j
  have hf := List.flatMap_assoc (l := (Line.collect .row (Sibling.list t.flow)).splitBy sameTable) (f := id)
    (g := Line.items)
  rw [List.flatMap_id, List.flatten_splitBy] at hf
  exact ((List.Perm.of_eq hf.symm).trans (Line.perm_collect .row _)).subperm

end FlexRecovery.Regroup
