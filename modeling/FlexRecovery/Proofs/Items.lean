import FlexRecovery.Proofs.Lines

/-!
What lists and tables are made of. Groups of siblings become items or rows one after another, and these become the
children of one container, which takes the place of the siblings.
-/

namespace FlexRecovery.Regroup

open Tree

variable {roles : List Role} {axis : Axis}

/-! ### One group after another -/

/-- Trees that are made one after another, each of a part, are made of all parts together. -/
theorem threaded_mapM {G : List Tree → Nat → List Tree → Nat → Prop} (nil : ∀ k, G [] k [] k)
    (append : ∀ {ts us ts' us' k k' k''}, G ts k us k' → G ts' k' us' k'' → G (ts ++ ts') k (us ++ us') k'')
    {α : Type} (f : α → Journaled Tree) (part : α → List Tree) (xs : List α)
    (h : ∀ x ∈ xs, ∀ j, G (part x) j.created [(f x j).1] (f x j).2.created) (j : Journal) :
    G (xs.flatMap part) j.created (xs.mapM f j).1 (xs.mapM f j).2.created := by
  induction xs generalizing j with
  | nil => exact nil _
  | cons x xs ih =>
    have hg := ih (fun y hy => h y (List.mem_cons_of_mem _ hy)) (f x j).2
    rw [Journaled.run_mapM_cons]
    exact append (h x (by simp) j) hg

theorem Grouped.append {ts us ts' us' : List Tree} {k k' k'' : Nat} (h : Grouped roles ts k us k')
    (h' : Grouped roles ts' k' us' k'') : Grouped roles (ts ++ ts') k (us ++ us') k'' := by
  induction h with
  | nil => exact h'
  | own hn _ ih => exact .own hn (ih h')
  | wrapped hg hn hb _ ih =>
    rw [List.append_assoc]
    exact .wrapped hg hn hb (ih h')

theorem grouped_mapM {α : Type} (f : α → Journaled Tree) (part : α → List Tree) (xs : List α)
    (h : ∀ x ∈ xs, ∀ j, Grouped roles (part x) j.created [(f x j).1] (f x j).2.created) (j : Journal) :
    Grouped roles (xs.flatMap part) j.created (xs.mapM f j).1 (xs.mapM f j).2.created :=
  threaded_mapM .nil .append f part xs h j

/-! ### Containers -/

theorem container_wrapped (axis : Axis) (hr : (({} : Roles).insertAll roles).toList = roles)
    (hg : ∀ r ∈ roles, isGrouping r = true) (box : Box) (g : List Tree) (j : Journal) :
    Container roles (wrapped box axis roles g j).1.node j.created where
  made := ⟨rfl, rfl, rfl, rfl⟩
  directed := rfl
  roles := hr
  grouping := fun r h => hg r (hr ▸ h)
  tokens := .inl rfl

theorem grouped_wrapped (hr : (({} : Roles).insertAll roles).toList = roles)
    (hroles : ∀ r ∈ roles, isGrouping r = true) {b : Box} {g : List Tree} (hg : 2 ≤ g.length)
    (hb : b.Around (g.map box)) (j : Journal) :
    Grouped roles g j.created [(wrapped b axis roles g j).1] (wrapped b axis roles g j).2.created := by
  have h := Grouped.wrapped hg (container_wrapped axis hr hroles b g j) hb (.nil (j.created + 1))
  rw [List.append_nil] at h
  exact h

/-- Where the members of a container line up is no matter of what it is. -/
theorem Container.align {n : Node} {k : Nat} (h : Container roles n k) (align : Option Align) :
    Container roles { n with align } k :=
  ⟨⟨h.made.index, h.made.id, h.made.tag, h.made.text⟩, h.directed, h.roles, h.grouping, h.tokens⟩

/-- A wrapping list states the spaces between its members. -/
theorem container_spaced (across along : Int) (box : Box) (g : List Tree) (j : Journal) :
    Container [.listWrap] ((wrapped box .row [.listWrap] g j).1.node.pushAll
      ["flex-wrap", "gap-x-" ++ px across, "gap-y-" ++ px along]) j.created where
  made := ⟨rfl, rfl, rfl, rfl⟩
  directed := rfl
  roles := rfl
  grouping := fun _ hr => List.mem_singleton.1 hr ▸ rfl
  tokens := .inr ⟨rfl, across, along, rfl⟩

/-- The trees as items with that role: a single one is marked as an item of a list, several get a container. -/
inductive Itemized (role : Role) : List Tree → Nat → List Tree → Nat → Prop where
  | nil (k : Nat) : Itemized role [] k [] k
  | single {t : Tree} {ts us : List Tree} {k k' : Nat} (hr : role = .listItem) (h : Itemized role ts k us k') :
      Itemized role (t :: ts) k (t.mapNode (·.addRole .listItem) :: us) k'
  | several {members ts us : List Tree} {n : Node} {k k' : Nat} (hlen : 2 ≤ members.length) (hn : Container [role] n k)
      (hb : n.box.Around (members.map box)) (h : Itemized role ts (k + 1) us k') :
      Itemized role (members ++ ts) k (⟨n, members, []⟩ :: us) k'

namespace Itemized

variable {role : Role} {ts us ts' us' : List Tree} {k k' k'' : Nat}

theorem append (h : Itemized role ts k us k') (h' : Itemized role ts' k' us' k'') :
    Itemized role (ts ++ ts') k (us ++ us') k'' := by
  induction h with
  | nil => exact h'
  | single hr _ ih => exact .single hr (ih h')
  | several hlen hn hb _ ih =>
    rw [List.append_assoc]
    exact .several hlen hn hb (ih h')

theorem one {members : List Tree} {n : Node} (hlen : 2 ≤ members.length) (hn : Container [role] n k)
    (hb : n.box.Around (members.map box)) : Itemized role members k [⟨n, members, []⟩] (k + 1) := by
  have h := several hlen hn hb (.nil (k + 1))
  rwa [List.append_nil] at h

theorem grouped (h : Itemized role ts k us k') : Grouped [role] ts k us k' := by
  induction h with
  | nil => exact .nil _
  | single _ _ ih => exact .own (Node.marked_addRole _ rfl) ih
  | several hlen hn hb _ ih => exact .wrapped hlen hn hb ih

end Itemized

theorem itemized_mapM {role : Role} {α : Type} (f : α → Journaled Tree) (part : α → List Tree) (xs : List α)
    (h : ∀ x ∈ xs, ∀ j, Itemized role (part x) j.created [(f x j).1] (f x j).2.created) (j : Journal) :
    Itemized role (xs.flatMap part) j.created (xs.mapM f j).1 (xs.mapM f j).2.created :=
  threaded_mapM .nil .append f part xs h j

theorem itemized_wrapped (axis : Axis) {role : Role} (hr : isGrouping role = true) {b : Box} {g : List Tree}
    (hg : 2 ≤ g.length) (hb : b.Around (g.map box)) (j : Journal) :
    Itemized role g j.created [(wrapped b axis [role] g j).1] (wrapped b axis [role] g j).2.created :=
  .one hg (container_wrapped axis rfl (List.forall_mem_singleton.2 hr) b g j) hb

/-- What the children of a container are. -/
def itemRole (list : Role) : Role := if list = .tableBody then .tableRow else .listItem

/-- A list of items or a table of rows that is made of these trees. -/
inductive Compiled : List Tree → Nat → Tree → Nat → Prop where
  | mk {list : Role} (hl : list.isList = true) {ts xs items : List Tree} {k k' : Nat} (hx : ts.Perm xs)
      (h : Itemized (itemRole list) xs k items k') (hlen : 2 ≤ items.length) {m : Node} (hm : Container [list] m k')
      (hb : m.box.Around (ts.map box)) : Compiled ts k ⟨m, items, []⟩ (k' + 1)

theorem isList_itemRole (list : Role) : (itemRole list).isList = false := by
  unfold itemRole
  split <;> rfl

theorem Compiled.shifts {ts : List Tree} {k k' : Nat} {made : Tree} (h : Compiled ts k made k') (n : Node)
    (f a : List Tree) : Shifts (⟨n, ts ++ f, a⟩, k) (⟨n, made :: f, a⟩, k') := by
  obtain ⟨hl, hx, h, hlen, hm, hb⟩ := h
  refine .reorder (hx.append_right f) (.single ?_)
  exact .enlist (isList_itemRole _) hl h.grouped hlen hm (hb.perm (hx.map box)) n f a

theorem compiled_wrapped (axis : Axis) {list : Role} (hl : list.isList = true) {ts xs items : List Tree} {k : Nat}
    {j : Journal} (hx : ts.Perm xs) (h : Itemized (itemRole list) xs k items j.created) (hlen : 2 ≤ items.length)
    {b : Box} (hb : b.Around (ts.map box)) :
    Compiled ts k (wrapped b axis [list] items j).1 (wrapped b axis [list] items j).2.created :=
  .mk hl hx h hlen (container_wrapped axis rfl (by simp [isGrouping, hl]) b items j) hb

theorem isList_listRole (axis : Axis) : (listRole axis).isList = true := by
  cases axis <;> rfl

theorem itemRole_listRole (axis : Axis) : itemRole (listRole axis) = .listItem := by
  cases axis <;> rfl

/-- Items become a list along an axis. -/
theorem compiled_list (axis : Axis) {ts xs items : List Tree} {k : Nat} {j : Journal} (hx : ts.Perm xs)
    (h : Itemized .listItem xs k items j.created) (hlen : 2 ≤ items.length) {b : Box} (hb : b.Around (ts.map box)) :
    Compiled ts k (wrapped b axis [listRole axis] items j).1 (wrapped b axis [listRole axis] items j).2.created := by
  rw [← itemRole_listRole axis] at h
  exact compiled_wrapped axis (isList_listRole axis) hx h hlen hb

/-! ### Groups of a line -/

namespace Track

variable {t : Track}

/-- The run lies in the line. -/
def Fits (t : Track) : Prop := t.run.Fits t.line.items.length

theorem flatMap_group (t : Track) : (List.range t.run.groups).flatMap t.group = t.items :=
  Run.flatMap_group t.run t.line.items

theorem Fits.length_group (h : t.Fits) {k : Nat} (hk : k < t.run.groups) : 1 ≤ (t.group k).length := by
  rw [group, Run.Fits.length_group h hk]
  exact h.period

theorem Fits.items_ne_nil (h : t.Fits) : t.items ≠ [] := by
  have hg := h.groups
  obtain ⟨s, hs⟩ := List.exists_mem_of_length_pos (h.length_group (k := 0) (by omega))
  rw [← t.flatMap_group]
  exact List.ne_nil_of_mem (List.mem_flatMap.2 ⟨0, List.mem_range.2 (by omega), hs⟩)

theorem perm_flatMap_group {chain : List Track} {n : Nat} (h : ∀ t ∈ chain, t.run.groups = n) :
    (chain.flatMap Track.items).Perm ((List.range n).flatMap fun k => chain.flatMap (·.group k)) := by
  have hitems : chain.flatMap Track.items = chain.flatMap fun t => (List.range n).flatMap t.group :=
    List.flatMap_congr fun t ht => by rw [← t.flatMap_group, h t ht]
  rw [hitems, ← Multiset.coe_eq_coe]
  simp only [← Multiset.coe_bind]
  exact Multiset.bind_bind _ _

end Track

theorem items_ne_nil {chain : List Track} (hc : 2 ≤ chain.length) (h : ∀ t ∈ chain, t.Fits) :
    chain.flatMap Track.items ≠ [] := by
  obtain ⟨t, ht⟩ := List.exists_mem_of_length_pos (l := chain) (by omega)
  obtain ⟨s, hs⟩ := List.exists_mem_of_ne_nil _ (h t ht).items_ne_nil
  exact List.ne_nil_of_mem (List.mem_flatMap.2 ⟨t, ht, hs⟩)

theorem length_le_flatMap {α β : Type} {f : α → List β} {xs : List α} (h : ∀ x ∈ xs, 1 ≤ (f x).length) :
    xs.length ≤ (xs.flatMap f).length := by
  have hl := List.length_le_sum_of_one_le (xs.map fun x => (f x).length) (by simpa using h)
  rw [List.length_map] at hl
  rw [List.length_flatMap]
  exact hl

theorem trees_flatMap {α : Type} (part : α → List Sibling) (xs : List α) :
    xs.flatMap (fun x => trees (part x)) = trees (xs.flatMap part) := by
  rw [trees, List.map_flatMap]
  rfl

/-- The box of a group of siblings. -/
theorem around_trees {g : List Sibling} (h : g ≠ []) : (Sibling.hull g).Around ((trees g).map box) := by
  have hb : (Sibling.hull g).Around (g.map Sibling.box) := Box.around_hull (by simpa using h)
  rw [trees, List.map_map]
  exact hb

theorem itemized_listItem {g : List Sibling} (hg : 1 ≤ g.length) (j : Journal) :
    Itemized .listItem (trees g) j.created [(listItem axis g j).1] (listItem axis g j).2.created := by
  match g with
  | [s] => exact .single rfl (.nil _)
  | s :: s' :: rest => exact itemized_wrapped axis rfl (by simp [trees]) (around_trees (by simp)) j

theorem itemized_listItems (axis : Axis) {t : Track} (ht : t.Fits) (j : Journal) :
    Itemized .listItem (trees t.items) j.created (listItems axis t j).1 (listItems axis t j).2.created ∧
      (listItems axis t j).1.length = t.run.groups := by
  have h := itemized_mapM (fun k => listItem axis (t.group k)) (fun k => trees (t.group k))
    (List.range t.run.groups) (fun k hk j => itemized_listItem (ht.length_group (List.mem_range.1 hk)) j) j
  rw [trees_flatMap, t.flatMap_group] at h
  exact ⟨h, (Journaled.length_mapM _ _ j).trans List.length_range⟩

theorem itemized_flatMapM (axis : Axis) {chain : List Track} (h : ∀ t ∈ chain, t.Fits) (j : Journal) :
    Itemized .listItem (trees (chain.flatMap Track.items)) j.created (chain.flatMapM (listItems axis) j).1
      (chain.flatMapM (listItems axis) j).2.created ∧ chain.length ≤ (chain.flatMapM (listItems axis) j).1.length := by
  induction chain generalizing j with
  | nil => exact ⟨.nil _, le_rfl⟩
  | cons t chain ih =>
    have ht := h t (by simp)
    obtain ⟨hg, hl⟩ := itemized_listItems axis ht j
    obtain ⟨hgs, hls⟩ := ih (fun u hu => h u (List.mem_cons_of_mem _ hu)) (listItems axis t j).2
    rw [Journaled.run_flatMapM_cons, List.flatMap_cons, trees, List.map_append, List.length_append, List.length_cons, hl]
    have hgroups := ht.groups
    exact ⟨hg.append hgs, by omega⟩

/-! ### Lists and tables -/

/-- Makes a container with that role of the members, if it is clear of all others, and puts it in the place of the first
of them. -/
def Compiles (role : Role) (ms : List Sibling) (make : Siblings → Journaled Siblings) : Prop :=
  ∀ siblings j, isClear siblings ms = true → ∃ made, Compiled (trees ms) j.created made (make siblings j).2.created ∧
    made.node.roles.toList = [role] ∧ made.box = Sibling.hull ms ∧
    (make siblings j).1 = Sibling.replace (positions ms) made siblings

theorem compiles_makeSingle (owner : Option DesignId) (axis : Axis) {t : Track} (ht : t.Fits) :
    Compiles (listRole axis) t.items fun siblings => makeSingle owner axis siblings t := by
  intro siblings j _
  obtain ⟨hg, hl⟩ := itemized_listItems axis ht j
  have hgroups := ht.groups
  exact ⟨_, compiled_list axis (.refl _) hg (by omega) (around_trees ht.items_ne_nil), rfl, rfl, rfl⟩

theorem compiles_makeGrid (owner : Option DesignId) {chain : List Track} (hc : 2 ≤ chain.length)
    (h : ∀ t ∈ chain, t.Fits) (rowGap : Int) :
    Compiles .listWrap (chain.flatMap Track.items) fun siblings => makeGrid owner siblings chain rowGap := by
  intro siblings j _
  obtain ⟨hg, hl⟩ := itemized_flatMapM .row h j
  have hb := around_trees (items_ne_nil hc h)
  exact ⟨_, .mk (rfl : Role.listWrap.isList = true) (.refl _) hg (by omega) (container_spaced _ rowGap _ _ _) hb,
    rfl, rfl, rfl⟩

/-- Each group becomes an item, and all items are aligned alike. -/
theorem itemized_zipped (axis : Axis) (align : Option Align) {groups : List (List Sibling)}
    (h : ∀ g ∈ groups, 2 ≤ g.length) (j : Journal) :
    let wrap (g : List Sibling) := wrapped (Sibling.hull g) axis.cross [.listItem] (trees g)
    let aligned (t : Tree) : Tree := t.mapNode fun n => { n with align := align <|> n.align }
    Itemized .listItem (groups.flatMap trees) j.created ((groups.mapM wrap j).1.map aligned)
      (groups.mapM wrap j).2.created := by
  intro wrap aligned
  have hwrap : ∀ g ∈ groups, ∀ j, Itemized .listItem (trees g) j.created [((aligned <$> wrap g) j).1]
      ((aligned <$> wrap g) j).2.created := by
    intro g hg j
    have hlen := h g hg
    apply Itemized.one
    · rwa [trees, List.length_map]
    · exact (container_wrapped axis.cross rfl (by decide) (Sibling.hull g) (trees g) j).align _
    · exact around_trees (List.ne_nil_of_length_pos (by omega))
  have haligned : groups.mapM (fun g => aligned <$> wrap g) = List.map aligned <$> groups.mapM wrap := by
    have h : (groups.map id).mapM (fun g => aligned <$> wrap g) = List.map aligned <$> groups.mapM wrap :=
      Journaled.mapM_congr_map fun _ _ => rfl
    rwa [List.map_id] at h
  have hitems := itemized_mapM (fun g => aligned <$> wrap g) trees groups hwrap j
  rwa [haligned] at hitems

theorem compiles_makeZipped (owner : Option DesignId) (axis : Axis) {t : Track} {chain : List Track}
    (hc : 1 ≤ chain.length) (h : ∀ u ∈ t :: chain, u.Fits) (hn : ∀ u ∈ t :: chain, u.run.groups = t.run.groups) :
    Compiles (listRole axis) ((t :: chain).flatMap Track.items) fun siblings =>
      makeZipped owner axis siblings (t :: chain) := by
  have hlen : 2 ≤ (t :: chain).length := by rw [List.length_cons]; omega
  intro siblings j _
  let groups := (List.range t.run.groups).map fun k => (t :: chain).flatMap (·.group k)
  have hlong : ∀ g ∈ groups, 2 ≤ g.length := by
    intro g hg
    obtain ⟨k, hk, rfl⟩ := List.mem_map.1 hg
    refine hlen.trans (length_le_flatMap fun u hu => (h u hu).length_group ?_)
    rw [hn u hu]
    exact List.mem_range.1 hk
  have hperm : (trees ((t :: chain).flatMap Track.items)).Perm (groups.flatMap trees) := by
    have hp := (Track.perm_flatMap_group hn).map (·.tree)
    refine hp.trans (List.Perm.of_eq ?_)
    change _ = List.flatMap _ (List.map _ _)
    rw [List.flatMap_map, trees_flatMap]
    rfl
  have hitems := itemized_zipped axis (majority (groups.map (sharedAlign axis))) hlong j
  refine ⟨_, compiled_list axis hperm hitems ?_ (around_trees (items_ne_nil hlen h)), rfl, rfl, rfl⟩
  rw [List.length_map, Journaled.length_mapM, List.length_map, List.length_range]
  exact (h t (by simp)).groups

/-- Each line becomes a row. -/
theorem itemized_rows {rows : List Line} (h : ∀ l ∈ rows, 2 ≤ l.items.length) (j : Journal) :
    let row (l : Line) := wrapped (Sibling.hull l.items) .row [.tableRow] (trees l.items)
    Itemized .tableRow (trees (rows.flatMap (·.items))) j.created (rows.mapM row j).1 (rows.mapM row j).2.created := by
  intro row
  have hrow : ∀ l ∈ rows, ∀ j, Itemized .tableRow (trees l.items) j.created [(row l j).1] (row l j).2.created := by
    intro l hl j
    have hlen := h l hl
    apply itemized_wrapped .row rfl
    · rwa [trees, List.length_map]
    · exact around_trees (List.ne_nil_of_length_pos (by omega))
  have hg := itemized_mapM row (fun l => trees l.items) rows hrow j
  rwa [trees_flatMap] at hg

end FlexRecovery.Regroup
