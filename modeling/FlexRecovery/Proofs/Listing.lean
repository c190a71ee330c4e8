import FlexRecovery.Proofs.Items

/-!
Lists and tables. Each is made of members that no other one is made of, and only if it lies clear of all other children.
So making them is a run of steps, each of which puts one container in the place of its members. It is a run of shifts,
too.
-/

namespace FlexRecovery.Regroup

open Tree

variable {axis : Axis}

/-- A list or a table takes the place of some flow children and lies clear of all others. -/
inductive Takes : List Tree × Nat → List Tree × Nat → Prop where
  | mk {flow members before after : List Tree} {made : Tree} {k k' : Nat}
      (hp : flow.Perm (members ++ (before ++ after))) (hs : (before ++ after).Sublist flow)
      (hm : Compiled members k made k') (hclear : ∀ t ∈ before ++ after, made.box.overlaps t.box = false) :
      Takes (flow, k) (before ++ made :: after, k')

theorem Takes.shifts {s s' : List Tree × Nat} (h : Takes s s') (n : Node) (a : List Tree) :
    Shifts (⟨n, s.1, a⟩, s.2) (⟨n, s'.1, a⟩, s'.2) := by
  obtain ⟨hp, -, hm, -⟩ := h
  exact .between hp (hm.shifts n _ a) List.perm_middle.symm

theorem shifts_of_takes {s s' : List Tree × Nat} (h : Relation.ReflTransGen Takes s s') (n : Node) (a : List Tree) :
    Shifts (⟨n, s.1, a⟩, s.2) (⟨n, s'.1, a⟩, s'.2) := by
  induction h with
  | refl => exact .refl
  | tail _ hstep ih => exact ih.trans (hstep.shifts n a)

namespace Sibling

variable {l ms : List Sibling} {taken : List Nat} {made : Tree}

/-- What is made stands where the first of those that are taken stood, and the others stay. -/
theorem exists_replace (made : Tree) (h : ∃ s ∈ l, taken.contains s.position = true) : ∃ before p after,
    replace taken made l = before ++ ⟨p, made⟩ :: after ∧
      l.filter (fun r => !taken.contains r.position) = before ++ after ∧
      (before.map position ++ p :: after.map position).Sublist (l.map position) := by
  induction l with
  | nil => simp at h
  | cons a as ih =>
    unfold replace
    split
    · next ha =>
      refine ⟨[], a.position, _, rfl, ?_, (List.filter_sublist.map _).cons_cons _⟩
      exact List.filter_cons_of_neg (by rw [ha]; exact Bool.false_ne_true)
    · next ha =>
      have h' : ∃ s ∈ as, taken.contains s.position = true := by
        obtain ⟨s, hs, ht⟩ := h
        rcases List.mem_cons.1 hs with rfl | hs
        · exact absurd ht ha
        · exact ⟨s, hs, ht⟩
      obtain ⟨before, p, after, hr, hrest, hsub⟩ := ih h'
      refine ⟨a :: before, p, after, by rw [hr]; rfl, ?_, hsub.cons_cons _⟩
      rw [List.filter_cons_of_pos (by simpa using ha), hrest, List.cons_append]

/-- Those with the positions of some members are these members. -/
theorem Apart.perm_members (hl : Apart l) (hms : Apart ms) (h : ∀ m ∈ ms, m ∈ l) :
    l.Perm (ms ++ l.filter fun r => !(positions ms).contains r.position) := by
  have htaken : (l.filter fun r => (positions ms).contains r.position).Perm ms := by
    refine (List.perm_ext_iff_of_nodup ((List.Nodup.of_map _ hl).filter _) (List.Nodup.of_map _ hms)).2 fun s => ?_
    rw [List.mem_filter, List.contains_iff_mem, positions, List.mem_map]
    constructor
    · rintro ⟨hs, m, hm, he⟩
      rw [← hl.eq_of_position (h m hm) hs he]
      exact hm
    · exact fun hs => ⟨h s hs, s, hs, rfl⟩
  exact (List.filter_append_perm (fun r => (positions ms).contains r.position) l).symm.trans (htaken.append_right _)

end Sibling

/-- Makes at most one container, of the given members only. -/
def Places (ms : List Sibling) (make : Siblings → Journaled Siblings) : Prop :=
  ∀ siblings j, Sibling.Apart siblings → (∀ m ∈ ms, m ∈ siblings) →
    Sibling.Apart (make siblings j).1 ∧
      (∀ s ∈ siblings, s.position ∉ positions ms → s ∈ (make siblings j).1) ∧
      Relation.ReflTransGen Takes (trees siblings, j.created) (trees (make siblings j).1, (make siblings j).2.created)

theorem places_pure (ms : List Sibling) : Places ms pure := fun _ _ h _ => ⟨h, fun _ hs _ => hs, .refl⟩

/-- A container whose box shares no area with the siblings outside it. -/
theorem overlaps_of_isClear {siblings ms : List Sibling} (h : isClear siblings ms = true) {s : Sibling}
    (hs : s ∈ siblings) (hn : (positions ms).contains s.position = false) :
    (Sibling.hull ms).overlaps s.box = false := by
  simp only [isClear, Sibling.overlapsOther, Bool.not_eq_true', List.any_eq_false, Bool.and_eq_true, not_and] at h
  have hout := h s hs hn
  rwa [Bool.not_eq_true] at hout

theorem places_of_compiles {ms : List Sibling} (hms : Sibling.Apart ms) (hne : ms ≠ [])
    {role : Role} {make : Siblings → Journaled Siblings} (h : Compiles role ms make)
    (hblocked : ∀ siblings, isClear siblings ms = false → make siblings = pure siblings) : Places ms make := by
  intro siblings j hs hmem
  cases hclear : isClear siblings ms with
  | false =>
    rw [hblocked siblings hclear]
    exact places_pure ms siblings j hs hmem
  | true =>
    obtain ⟨made, hmade, -, hbox, hr⟩ := h siblings j hclear
    obtain ⟨m, hm⟩ := List.exists_mem_of_ne_nil ms hne
    have htaken : ∃ s ∈ siblings, (positions ms).contains s.position = true :=
      ⟨m, hmem m hm, List.contains_iff_mem.2 (List.mem_map_of_mem hm)⟩
    obtain ⟨before, p, after, he, hrest, hpos⟩ := Sibling.exists_replace made htaken
    have hstay (r : Sibling) (hr : r ∈ before ++ after) : r ∈ siblings ∧ (positions ms).contains r.position = false := by
      rw [← hrest, List.mem_filter] at hr
      exact ⟨hr.1, by simpa using hr.2⟩
    rw [hr, he]
    refine ⟨?_, fun r hr hn => ?_, ?_⟩
    · rw [Sibling.Apart, List.map_append, List.map_cons]
      exact hpos.nodup hs
    · have hleft : r ∈ before ++ after := by
        rw [← hrest]
        exact List.mem_filter.2 ⟨hr, by simpa using hn⟩
      exact List.mem_append.2 ((List.mem_append.1 hleft).imp_right (List.mem_cons_of_mem _))
    · have hp := (hs.perm_members hms hmem).map Sibling.tree
      have hsub := (List.filter_sublist (p := fun r => !(positions ms).contains r.position) (l := siblings)).map
        Sibling.tree
      rw [hrest, List.map_append] at hsub
      rw [hrest, List.map_append, List.map_append] at hp
      rw [trees, trees, List.map_append, List.map_cons]
      refine .single (.mk hp hsub hmade fun t ht => ?_)
      rw [← List.map_append] at ht
      obtain ⟨r, hr, rfl⟩ := List.mem_map.1 ht
      obtain ⟨hr, hn⟩ := hstay r hr
      rw [hbox]
      exact overlaps_of_isClear hclear hr hn

/-- Containers of members that do not meet are made one after another. -/
theorem takes_foldlM {α : Type} {make : Siblings → α → Journaled Siblings} {ms : α → List Sibling} {xs : List α}
    (h : ∀ x ∈ xs, Places (ms x) fun siblings => make siblings x) {siblings : Siblings} (j : Journal)
    (hs : Sibling.Apart siblings) (hms : Sibling.Apart (xs.flatMap ms)) (hmem : ∀ m ∈ xs.flatMap ms, m ∈ siblings) :
    Relation.ReflTransGen Takes (trees siblings, j.created)
      (trees (xs.foldlM make siblings j).1, (xs.foldlM make siblings j).2.created) := by
  induction xs generalizing siblings j with
  | nil => exact .refl
  | cons x xs ih =>
    rw [List.flatMap_cons] at hms hmem
    obtain ⟨hs', hstay, htakes⟩ := h x (by simp) siblings j hs fun m hm => hmem m (List.mem_append_left _ hm)
    rw [Sibling.Apart, List.map_append, List.nodup_append] at hms
    rw [List.foldlM_cons, Journaled.run_bind]
    refine htakes.trans (ih (fun y hy => h y (List.mem_cons_of_mem _ hy)) _ hs' hms.2.1 fun m hm => ?_)
    apply hstay m (hmem m (List.mem_append_right _ hm))
    intro hp
    exact hms.2.2 _ hp _ (List.mem_map_of_mem hm) rfl

/-- Whatever is made of parts of the siblings that do not meet. -/
theorem takes_of_parts {α : Type} {make : Siblings → α → Journaled Siblings} (ms : α → List Sibling) {xs : List α}
    {flow : List Tree} (hsub : (xs.flatMap ms).Subperm (Sibling.list flow))
    (h : ∀ x ∈ xs, Sibling.Apart (ms x) → Places (ms x) fun siblings => make siblings x) (j : Journal) :
    Relation.ReflTransGen Takes (flow, j.created)
      (trees (xs.foldlM make (Sibling.list flow) j).1, (xs.foldlM make (Sibling.list flow) j).2.created) := by
  have hl := Sibling.apart_list flow
  have ha : Sibling.Apart (xs.flatMap ms) := by
    obtain ⟨l, hp, hs⟩ := hsub
    exact (hp.map Sibling.position).nodup_iff.1 (List.Nodup.sublist (hs.map _) hl)
  have hx : ∀ x ∈ xs, Places (ms x) fun siblings => make siblings x := by
    intro x hx
    refine h x hx (List.Nodup.sublist (List.Sublist.map _ ?_) ha)
    rw [List.flatMap_def]
    exact List.sublist_flatten_of_mem (List.mem_map_of_mem hx)
  have hs := takes_foldlM hx j hl ha fun m hm => hsub.subset hm
  rw [trees, Sibling.map_tree_list] at hs
  exact hs

/-- Which chains of tracks become a list, and with which role. -/
inductive Enlists : Axis → List Track → Role → Prop where
  | single {axis : Axis} {t : Track} (hg : 3 ≤ t.run.groups) : Enlists axis [t] (listRole axis)
  | zipped {axis : Axis} {chain : List Track} (hl : 2 ≤ chain.length) : Enlists axis chain (listRole axis)
  | grid {chain : List Track} (hl : 2 ≤ chain.length) {rowGap : Int} (hg : gridGap chain = some rowGap) :
    Enlists .row chain .listWrap

/-- No list is made, or one of the whole chain where it lies clear. -/
theorem compiles_makeList (axis : Axis) (owner : Option DesignId) {chain : List Track} (h : ∀ t ∈ chain, t.Fits)
    (hn : chain.IsChain fun t u => t.run.groups = u.run.groups) :
    (∀ siblings, makeList owner axis siblings chain = pure siblings) ∨ chain.flatMap Track.items ≠ [] ∧
      ∃ role, Enlists axis chain role ∧
        (Compiles role (chain.flatMap Track.items) fun siblings => makeList owner axis siblings chain) ∧
        ∀ siblings, isClear siblings (chain.flatMap Track.items) = false →
          makeList owner axis siblings chain = pure siblings := by
  match chain with
  | [] => exact .inl fun _ => rfl
  | [t] =>
    have ht := h t (by simp)
    rw [List.flatMap_singleton]
    cases hstands : standsAlone t with
    | false => exact .inl fun siblings => by simp [makeList, hstands]
    | true =>
      have hgroups : 3 ≤ t.run.groups := by
        simp only [standsAlone, Bool.and_eq_true, decide_eq_true_eq] at hstands
        exact hstands.1
      refine .inr ⟨ht.items_ne_nil, _, .single hgroups, fun siblings j hc => ?_, fun siblings hb => ?_⟩
      · simp only [makeList, hstands, hc, Bool.and_self, if_true]
        exact compiles_makeSingle owner axis ht siblings j hc
      · simp [makeList, hb]
  | t :: u :: chain =>
    have hgroups : ∀ v ∈ t :: u :: chain, v.run.groups = t.run.groups := by
      intro v hv
      rcases List.mem_cons.1 hv with rfl | hv
      · rfl
      · exact ((List.pairwise_cons.1 (List.isChain_iff_pairwise.1 hn)).1 v hv).symm
    have hblocked (siblings : Siblings) (hb : isClear siblings ((t :: u :: chain).flatMap Track.items) = false) :
        makeList owner axis siblings (t :: u :: chain) = pure siblings := by
      simp only [makeList, hb, Bool.not_false, if_true]
    have zipped (hmake : ∀ siblings, isClear siblings ((t :: u :: chain).flatMap Track.items) = true →
        makeList owner axis siblings (t :: u :: chain) = makeZipped owner axis siblings (t :: u :: chain)) :
        Compiles (listRole axis) ((t :: u :: chain).flatMap Track.items) fun siblings =>
          makeList owner axis siblings (t :: u :: chain) := by
      intro siblings j hc
      simp only [hmake siblings hc]
      exact compiles_makeZipped owner axis (by simp) h hgroups siblings j hc
    refine .inr ⟨items_ne_nil (by simp) h, ?_⟩
    cases axis with
    | column =>
      refine ⟨_, .zipped (by simp), zipped fun siblings hc => ?_, hblocked⟩
      simp only [makeList, hc, Bool.not_true, Bool.false_eq_true, if_false]
    | row =>
      cases hg : gridGap (t :: u :: chain) with
      | none =>
        refine ⟨_, .zipped (by simp), zipped fun siblings hc => ?_, hblocked⟩
        simp only [makeList, hc, hg, Bool.not_true, Bool.false_eq_true, if_false]
      | some rowGap =>
        refine ⟨_, .grid (by simp) hg, fun siblings j hc => ?_, hblocked⟩
        simp only [makeList, hc, hg, Bool.not_true, Bool.false_eq_true, if_false]
        exact compiles_makeGrid owner (by simp) h rowGap siblings j hc

theorem places_makeList (owner : Option DesignId) {chain : List Track} (h : ∀ t ∈ chain, t.Fits)
    (hn : chain.IsChain fun t u => t.run.groups = u.run.groups) (ha : Sibling.Apart (chain.flatMap Track.items)) :
    Places (chain.flatMap Track.items) fun siblings => makeList owner axis siblings chain := by
  rcases compiles_makeList axis owner h hn with hmake | ⟨hne, role, -, hc, hb⟩
  · rw [show (fun siblings => makeList owner axis siblings chain) = pure from funext hmake]
    exact places_pure _
  · exact places_of_compiles ha hne hc hb

/-- The tracks of a chain are lines with the runs found in them, and neighbours have one structure. -/
theorem tracks_of_mem_chains {lines : List Line} {chain : List Track} (hc : chain ∈ chains axis lines) :
    (∀ t ∈ chain, t.line ∈ lines ∧ Run.find axis t.line.items = some t.run) ∧
      chain.IsChain fun t u => t.sameStructure axis u = true := by
  obtain ⟨c, hmem, rfl⟩ := List.mem_map.1 hc
  constructor
  · intro t ht
    obtain ⟨o, ho, rfl⟩ := List.mem_filterMap.1 ht
    have hmem : some t ∈ tracks axis lines := by
      rw [← List.flatten_splitBy (linked axis) (tracks axis lines)]
      exact List.mem_flatten.2 ⟨c, hmem, ho⟩
    obtain ⟨l, hline, hl⟩ := List.mem_map.1 hmem
    obtain ⟨r, hr, rfl⟩ := Option.map_eq_some_iff.1 hl
    exact ⟨hline, hr⟩
  · have hlinked := List.isChain_of_mem_splitBy hmem
    clear hmem hc
    induction c with
    | nil => exact .nil
    | cons o c ih =>
      cases c with
      | nil => cases o <;> simp
      | cons o' c =>
        obtain ⟨hl, hc⟩ := List.isChain_cons_cons.1 hlinked
        match o, o' with
        | none, _ => cases hl
        | some _, none => cases hl
        | some t, some u => exact List.isChain_cons_cons.2 ⟨hl, ih hc⟩

theorem Track.groups_of_sameStructure {t u : Track} (h : t.sameStructure axis u = true) :
    t.run.groups = u.run.groups := by
  simp only [Track.sameStructure, Bool.and_eq_true, beq_iff_eq] at h
  exact h.1.2

theorem fits_of_mem_chains {lines : List Line} {chain : List Track} (hc : chain ∈ chains axis lines) :
    (∀ t ∈ chain, t.Fits) ∧ chain.IsChain fun t u => t.run.groups = u.run.groups := by
  obtain ⟨ht, hlinked⟩ := tracks_of_mem_chains hc
  exact ⟨fun t h => (Run.longest_of_find (ht t h).2).fits, hlinked.imp fun _ _ => Track.groups_of_sameStructure⟩

theorem flatten_chains (axis : Axis) (lines : List Line) :
    (chains axis lines).flatten = (tracks axis lines).filterMap id := by
  rw [chains, ← List.filterMap_flatten, List.flatten_splitBy]

/-- The lines of all chains are some of the lines, in their order. -/
theorem lines_flatten_sublist (axis : Axis) (lines : List Line) :
    ((chains axis lines).flatten.map (·.line)).Sublist lines := by
  rw [flatten_chains]
  induction lines with
  | nil => exact .slnil
  | cons l lines ih =>
    rw [tracks, List.map_cons]
    cases Run.find axis l.items with
    | none => exact ih.trans (List.sublist_cons_self _ _)
    | some r => exact ih.cons_cons _

/-- The lines of a chain are some of the lines, in their order. -/
theorem lines_sublist {lines : List Line} {chain : List Track} (hc : chain ∈ chains axis lines) :
    (chain.map (·.line)).Sublist lines :=
  ((List.sublist_flatten_of_mem hc).map _).trans (lines_flatten_sublist axis lines)

/-- The items of the tracks are some of the items of the lines. -/
theorem items_chains_sublist (lines : List Line) :
    ((chains axis lines).flatMap fun c => c.flatMap Track.items).Sublist (lines.flatMap (·.items)) := by
  have hflat := List.flatMap_assoc (l := chains axis lines) (f := id) (g := Track.items)
  rw [List.flatMap_id, flatten_chains] at hflat
  refine hflat ▸ ?_
  clear hflat
  induction lines with
  | nil => exact .slnil
  | cons l lines ih =>
    rw [tracks, List.map_cons, List.flatMap_cons]
    cases Run.find axis l.items with
    | none => exact ih.trans (List.sublist_append_right _ _)
    | some r => exact (Run.items_sublist r l.items).append ih

theorem takes_listsAlong (axis : Axis) (t : Tree) (j : Journal) : Relation.ReflTransGen Takes (t.flow, j.created)
    ((listsAlong axis t j).1.flow, (listsAlong axis t j).2.created) := by
  refine takes_of_parts (fun c => c.flatMap Track.items) ?_ (fun c hc ha => ?_) j
  · exact (items_chains_sublist _).subperm.trans (Line.perm_collect axis _).subperm
  · obtain ⟨hf, hn⟩ := fits_of_mem_chains hc
    exact places_makeList t.node.id hf hn ha

/-- The rows of a table of more than one row have at least two cells each. -/
theorem two_le_cells {rows : List Line} (hr : 2 ≤ rows.length) (h : rows.IsChain fun a b => sameTable a b = true) :
    ∀ l ∈ rows, 2 ≤ l.items.length := by
  have cells (l : Line) (hl : isTableRow l = true) : 2 ≤ l.items.length := by
    unfold isTableRow at hl
    split at hl
    · next he =>
      rw [he, List.length_cons, List.length_cons]
      omega
    · cases hl
  induction rows with
  | nil => simp
  | cons a rows ih =>
    cases rows with
    | nil => simp at hr
    | cons b rows =>
      obtain ⟨hab, hrows⟩ := List.isChain_cons_cons.1 h
      simp only [sameTable, Bool.and_eq_true] at hab
      intro l hl
      rcases List.mem_cons.1 hl with rfl | hl
      · exact cells l hab.1.1
      · cases rows with
        | nil =>
          obtain rfl := List.mem_singleton.1 hl
          exact cells l hab.1.2
        | cons c rows => exact ih (by simp) hrows l hl

/-- No table is made, or one of all rows where it lies clear. -/
theorem compiles_makeTable (owner : Option DesignId) {rows : List Line}
    (h : rows.IsChain fun a b => sameTable a b = true) :
    (∀ siblings, makeTable owner siblings rows = pure siblings) ∨ rows.flatMap (·.items) ≠ [] ∧
      (2 ≤ rows.length ∧ ∀ l ∈ rows, 2 ≤ l.items.length) ∧
      (Compiles .tableBody (rows.flatMap (·.items)) fun siblings => makeTable owner siblings rows) ∧
      ∀ siblings, isClear siblings (rows.flatMap (·.items)) = false → makeTable owner siblings rows = pure siblings := by
  cases ht : isTable rows with
  | false => exact .inl fun siblings => by simp [makeTable, ht]
  | true =>
    have hlen : 2 ≤ rows.length := by
      simp only [isTable, decide_eq_true_eq] at ht
      omega
    have hcells := two_le_cells hlen h
    have hne : rows.flatMap (·.items) ≠ [] := by
      have hl : rows.length ≤ (rows.flatMap (·.items)).length :=
        length_le_flatMap fun l hl => (hcells l hl).trans' (by omega)
      rw [← List.length_pos_iff]
      omega
    refine .inr ⟨hne, ⟨hlen, hcells⟩, fun siblings j hc => ?_, fun siblings hb => ?_⟩
    · let row (l : Line) := wrapped (Sibling.hull l.items) .row [.tableRow] (trees l.items)
      have hl := Journaled.length_mapM row rows j
      simp only [makeTable, ht, hc, Bool.and_self, if_true]
      exact ⟨_, compiled_wrapped .column (rfl : Role.tableBody.isList = true) (.refl _) (itemized_rows hcells j)
        (hl ▸ hlen) (around_trees hne), rfl, rfl, rfl⟩
    · simp [makeTable, hb]

theorem places_makeTable (owner : Option DesignId) {rows : List Line}
    (h : rows.IsChain fun a b => sameTable a b = true) (ha : Sibling.Apart (rows.flatMap (·.items))) :
    Places (rows.flatMap (·.items)) fun siblings => makeTable owner siblings rows := by
  rcases compiles_makeTable owner h with hmake | ⟨hne, -, hc, hb⟩
  · rw [show (fun siblings => makeTable owner siblings rows) = pure from funext hmake]
    exact places_pure _
  · exact places_of_compiles ha hne hc hb

theorem takes_tables (t : Tree) (j : Journal) :
    Relation.ReflTransGen Takes (t.flow, j.created) ((tables t j).1.flow, (tables t j).2.created) := by
  refine takes_of_parts (fun rows => rows.flatMap (·.items)) ?_ (fun rows hr ha => ?_) j
  · have hf := List.flatMap_assoc (l := (Line.collect .row (Sibling.list t.flow)).splitBy sameTable) (f := id)
      (g := Line.items)
    rw [List.flatMap_id, List.flatten_splitBy] at hf
    exact ((List.Perm.of_eq hf.symm).trans (Line.perm_collect .row _)).subperm
  · exact places_makeTable t.node.id (List.isChain_of_mem_splitBy hr) ha

/-- Making lists and tables is a run of steps over the flow children, and nothing else of their owner changes. -/
theorem takes_makeLists (t : Tree) (j : Journal) :
    (makeLists t j).1.node = t.node ∧ (makeLists t j).1.attached = t.attached ∧
      Relation.ReflTransGen Takes (t.flow, j.created) ((makeLists t j).1.flow, (makeLists t j).2.created) := by
  have hlists (axis : Axis) (t : Tree) (j : Journal) :
      (listsAlong axis t j).1.node = t.node ∧ (listsAlong axis t j).1.attached = t.attached := ⟨rfl, rfl⟩
  have htables : (tables t j).1.node = t.node ∧ (tables t j).1.attached = t.attached := ⟨rfl, rfl⟩
  have hrows := hlists .row (tables t j).1 (tables t j).2
  have hcolumns := hlists .column (listsAlong .row (tables t j).1 (tables t j).2).1
    (listsAlong .row (tables t j).1 (tables t j).2).2
  unfold makeLists
  split
  · exact ⟨rfl, rfl, .refl⟩
  · rw [Journaled.run_bind, Journaled.run_bind]
    refine ⟨(hcolumns.1.trans hrows.1).trans htables.1, (hcolumns.2.trans hrows.2).trans htables.2, ?_⟩
    exact ((takes_tables t j).trans (takes_listsAlong .row _ _)).trans (takes_listsAlong .column _ _)

theorem shifting_makeLists : Shifting makeLists := by
  intro t j
  obtain ⟨hn, ha, htakes⟩ := takes_makeLists t j
  have hs := shifts_of_takes htakes t.node t.attached
  generalize (makeLists t j).1 = r at hn ha hs ⊢
  obtain ⟨n, flow, attached⟩ := t
  obtain ⟨n', flow', attached'⟩ := r
  obtain rfl : n' = n := hn
  obtain rfl : attached' = attached := ha
  exact hs

end FlexRecovery.Regroup
