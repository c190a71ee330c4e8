import FlexRecovery.Proofs.Runs

/-!
What becomes of the flow children of an owner when lists and tables are made of them. Each tree in the new flow is an
old one, an old one that was marked as an item, or a new container around such trees. A container is a list of the
groups of a chain of lines, a wrapping grid of them, or a part of a list or a table.
-/

namespace FlexRecovery.Regroup

open Tree

/-- Made of old trees by marking them as items and by putting containers around them. -/
inductive Built (P : Tree → Prop) (old : List Tree) : Tree → Prop where
  | old {t : Tree} (h : t ∈ old) : Built P old t
  | item {t : Tree} (h : Built P old t) : Built P old (t.mapNode (·.addRole .listItem))
  | container {n : Node} {ts : List Tree} (hts : ∀ t ∈ ts, Built P old t) (h : P ⟨n, ts, []⟩) : Built P old ⟨n, ts, []⟩

variable {P Q : Tree → Prop} {old : List Tree} {axis : Axis}

theorem Built.imp (hPQ : ∀ t, P t → Q t) {t : Tree} (h : Built P old t) : Built Q old t := by
  induction h with
  | old h => exact .old h
  | item _ ih => exact .item ih
  | container _ h ih => exact .container ih (hPQ _ h)

theorem Built.trans {mid : List Tree} (hmid : ∀ t ∈ mid, Built P old t) {t : Tree} (h : Built P mid t) :
    Built P old t := by
  induction h with
  | old h => exact hmid _ h
  | item _ ih => exact .item ih
  | container _ h ih => exact .container ih h

/-- A container with a role that the old trees do not have is a new one. -/
theorem Built.of_role {t : Tree} (h : Built P old t) (hold : ∀ u ∈ old, u.node.roles.toList = []) {role : Role}
    (hrole : t.node.roles.toList = [role]) (hne : role ≠ .listItem) : P t := by
  cases h with
  | old h =>
    rw [hold _ h] at hrole
    cases hrole
  | @item u h =>
    have hitem : (u.node.addRole .listItem).hasRole .listItem = true := by rw [Node.hasRole_addRole, beq_self_eq_true, Bool.or_true]
    rw [Node.hasRole_iff] at hitem
    rw [show (u.mapNode (·.addRole .listItem)).node = u.node.addRole .listItem from rfl] at hrole
    rw [hrole, List.mem_singleton] at hitem
    exact absurd hitem.symm hne
  | container _ h => exact h

/-- A group of one is the item itself, a longer one is in it. -/
def Holds (g : List Sibling) (t : Tree) : Prop :=
  t.box = Sibling.hull g ∧ (t.flow = trees g ∨ ∃ s, g = [s] ∧ t = s.tree.mapNode (·.addRole .listItem))

/-- The groups of a line, one after another. -/
def Track.parts (t : Track) : List (List Sibling) := (List.range t.run.groups).map t.group

/-- The groups with one number from all lines together. -/
def zipped (chain : List Track) : List (List Sibling) :=
  (List.range (chain.head?.elim 0 (·.run.groups))).map fun k => chain.flatMap (·.group k)

/-- A list in one direction, of a line or of several lines that were zipped. -/
structure Strip (axis : Axis) (chain : List Track) (t : Tree) : Prop where
  detected : Detected axis chain
  role : t.node.roles.toList = [listRole axis]
  direction : t.node.direction = some axis
  items : List.Forall₂ Holds (zipped chain) t.flow

/-- A list that wraps after each line, with the space that it states between its items and between its lines. -/
structure Grid (chain : List Track) (across along : Int) (t : Tree) : Prop where
  detected : Detected .row chain
  lines : 2 ≤ chain.length
  role : t.node.roles.toList = [.listWrap]
  columnGap : chain.head?.elim 0 (groupGap .row) = across
  rowGap : gridGap chain = some along
  items : List.Forall₂ Holds (chain.flatMap Track.parts) t.flow
  box : t.box = Sibling.hull (chain.flatMap Track.items)
  tokens : t.node.classes = spacing across along

/-- What a new container is. -/
inductive Enlisted : Tree → Prop where
  | part {t : Tree} (h : t.node.roles.toList ∈ [[.listItem], [.tableRow], [.tableBody]]) : Enlisted t
  | strip {axis : Axis} {chain : List Track} {t : Tree} (h : Strip axis chain t) : Enlisted t
  | grid {chain : List Track} {across along : Int} {t : Tree} (h : Grid chain across along t) : Enlisted t

/-- All of them are made of the old trees. -/
abbrev AllBuilt (old : List Tree) (ss : List Sibling) : Prop := ∀ s ∈ ss, Built Enlisted old s.tree

theorem mem_trees {P : Tree → Prop} {ss : List Sibling} (h : ∀ s ∈ ss, P s.tree) : ∀ t ∈ trees ss, P t := by
  intro t ht
  obtain ⟨s, hs, rfl⟩ := List.mem_map.1 ht
  exact h s hs

theorem allBuilt_replace {ss : List Sibling} {made : Tree} (taken : List Nat) (hs : AllBuilt old ss)
    (hm : Built Enlisted old made) : AllBuilt old (Sibling.replace taken made ss) := by
  induction ss with
  | nil => exact hs
  | cons s ss ih =>
    obtain ⟨h, hss⟩ := List.forall_mem_cons.1 hs
    unfold Sibling.replace
    split
    · exact List.forall_mem_cons.2 ⟨hm, fun u hu => hss u (List.mem_of_mem_filter hu)⟩
    · exact List.forall_mem_cons.2 ⟨h, ih hss⟩

theorem built_wrapped {roles : List Role} {ts : List Tree} (box : Box) (axis : Axis) (hts : ∀ t ∈ ts, Built Enlisted old t)
    (j : Journal) (h : Enlisted (wrapped box axis roles ts j).1) : Built Enlisted old (wrapped box axis roles ts j).1 :=
  .container hts h

theorem roles_wrapped (box : Box) (d axis : Axis) (ts : List Tree) (j : Journal) :
    (wrapped box d [listRole axis] ts j).1.node.roles.toList = [listRole axis] := by
  cases axis <;> rfl

theorem listItem_holds {g : List Sibling} (hg : AllBuilt old g) (j : Journal) :
    Holds g (listItem axis g j).1 ∧ Built Enlisted old (listItem axis g j).1 := by
  match g with
  | [s] => exact ⟨⟨rfl, .inr ⟨s, rfl, rfl⟩⟩, .item (hg s (by simp))⟩
  | [] => exact ⟨⟨rfl, .inl rfl⟩, built_wrapped _ axis (mem_trees hg) j (.part (.head _))⟩
  | s :: s' :: rest => exact ⟨⟨rfl, .inl rfl⟩, built_wrapped _ axis (mem_trees hg) j (.part (.head _))⟩

/-- The members of a track are members of its line. -/
theorem Track.mem_of_mem_group {t : Track} {k : Nat} {s : Sibling} (h : s ∈ t.group k) : s ∈ t.line.items :=
  List.mem_of_mem_drop (List.mem_of_mem_take h)

theorem listItems_holds (axis : Axis) {t : Track} (ht : AllBuilt old t.line.items) (j : Journal) :
    List.Forall₂ Holds t.parts (listItems axis t j).1 ∧ ∀ u ∈ (listItems axis t j).1, Built Enlisted old u := by
  have h : ∀ k j, Holds (t.group k) (listItem axis (t.group k) j).1 ∧ Built Enlisted old (listItem axis (t.group k) j).1 :=
    fun k j => listItem_holds (fun s hs => ht s (Track.mem_of_mem_group hs)) j
  constructor
  · exact List.forall₂_map_left_iff.2 (Journaled.forall₂_mapM (fun k _ j => (h k j).1) j)
  · exact Journaled.gives_mapM (fun k _ j => (h k j).2) j

theorem flatMapM_holds (axis : Axis) {chain : List Track} (hc : ∀ t ∈ chain, AllBuilt old t.line.items) (j : Journal) :
    List.Forall₂ Holds (chain.flatMap Track.parts) (chain.flatMapM (listItems axis) j).1 ∧
      ∀ u ∈ (chain.flatMapM (listItems axis) j).1, Built Enlisted old u := by
  induction chain generalizing j with
  | nil => exact ⟨.nil, fun _ h => nomatch h⟩
  | cons t chain ih =>
    obtain ⟨ht, hc⟩ := List.forall_mem_cons.1 hc
    obtain ⟨hh, hb⟩ := listItems_holds axis ht j
    obtain ⟨hhs, hbs⟩ := ih hc (listItems axis t j).2
    rw [Journaled.run_flatMapM_cons]
    exact ⟨List.rel_append hh hhs, List.forall_mem_append.2 ⟨hb, hbs⟩⟩

/-- Leaves the siblings made of the old trees. -/
def Builds (old : List Tree) (make : Siblings → Journaled Siblings) : Prop :=
  ∀ siblings j, AllBuilt old siblings → AllBuilt old (make siblings j).1

theorem builds_makeSingle (owner : Option DesignId) {t : Track} (ht : AllBuilt old t.line.items)
    (hd : Detected axis [t]) : Builds old fun siblings => makeSingle owner axis siblings t := by
  intro siblings j hs
  obtain ⟨hh, hb⟩ := listItems_holds axis ht j
  refine allBuilt_replace _ hs (built_wrapped _ axis hb _ (.strip ⟨hd, roles_wrapped _ _ _ _ _, rfl, ?_⟩))
  have hz : zipped [t] = t.parts := List.map_congr_left fun k _ => List.flatMap_singleton ..
  rw [hz]
  exact hh

theorem builds_makeGrid (owner : Option DesignId) {chain : List Track} (hc : ∀ t ∈ chain, AllBuilt old t.line.items)
    (hd : Detected .row chain) (hl : 2 ≤ chain.length) {along : Int} (hg : gridGap chain = some along) :
    Builds old fun siblings => makeGrid owner siblings chain along := by
  intro siblings j hs
  obtain ⟨hh, hb⟩ := flatMapM_holds .row hc j
  exact allBuilt_replace _ hs (.container hb (.grid ⟨hd, hl, rfl, rfl, hg, hh, rfl, rfl⟩))

theorem builds_makeZipped (owner : Option DesignId) {chain : List Track} (hc : ∀ t ∈ chain, AllBuilt old t.line.items)
    (hd : Detected axis chain) : Builds old fun siblings => makeZipped owner axis siblings chain := by
  intro siblings j hs
  let wrap (g : List Sibling) := wrapped (Sibling.hull g) axis.cross [.listItem] (trees g)
  let align := majority ((zipped chain).map (sharedAlign axis))
  let aligned (t : Tree) : Tree := t.mapNode fun n => { n with align := align <|> n.align }
  have hg : ∀ g ∈ zipped chain, AllBuilt old g := by
    intro g hg s hs
    obtain ⟨k, -, rfl⟩ := List.mem_map.1 hg
    obtain ⟨t, ht, hs⟩ := List.mem_flatMap.1 hs
    exact hc t ht s (Track.mem_of_mem_group hs)
  have hh : List.Forall₂ Holds (zipped chain) (((zipped chain).mapM wrap j).1.map aligned) :=
    List.forall₂_map_right_iff.2 (Journaled.forall₂_mapM (fun g _ j => ⟨rfl, .inl rfl⟩) j)
  have hb : ∀ u ∈ ((zipped chain).mapM wrap j).1.map aligned, Built Enlisted old u := by
    intro u hu
    obtain ⟨v, hv, rfl⟩ := List.mem_map.1 hu
    have key : Journaled.Gives (∀ v ∈ ·, Built Enlisted old (aligned v)) ((zipped chain).mapM wrap) :=
      Journaled.gives_mapM fun g h j => .container (mem_trees (hg g h)) (.part (.head _))
    exact key j v hv
  exact allBuilt_replace _ hs (built_wrapped _ axis hb _ (.strip ⟨hd, roles_wrapped _ _ _ _ _, rfl, hh⟩))

theorem Builds.ite {make make' : Siblings → Journaled Siblings} {c : Siblings → Prop}
    [∀ siblings, Decidable (c siblings)] (h : Builds old make) (h' : Builds old make') :
    Builds old fun siblings => if c siblings then make siblings else make' siblings := by
  intro siblings
  by_cases hc : c siblings
  · simp only [hc, if_true]
    exact h siblings
  · simp only [hc, if_false]
    exact h' siblings

theorem builds_pure : Builds old pure := fun _ _ hs => hs

theorem builds_makeList (owner : Option DesignId) {chain : List Track} (hc : ∀ t ∈ chain, AllBuilt old t.line.items)
    (hd : Detected axis chain) : Builds old fun siblings => makeList owner axis siblings chain := by
  match chain with
  | [] => exact builds_pure
  | [t] => exact .ite (builds_makeSingle owner (hc t (by simp)) hd) builds_pure
  | t :: u :: chain =>
    refine .ite builds_pure ?_
    cases axis with
    | column => exact builds_makeZipped owner hc hd
    | row =>
      cases hg : gridGap (t :: u :: chain) with
      | none => exact builds_makeZipped owner hc hd
      | some along => exact builds_makeGrid owner hc hd (by simp) hg

theorem builds_makeTable (owner : Option DesignId) {rows : List Line} (hr : ∀ l ∈ rows, AllBuilt old l.items) :
    Builds old fun siblings => makeTable owner siblings rows := by
  intro siblings j hs
  unfold makeTable
  dsimp only
  split
  · have hb : ∀ u ∈ (rows.mapM (fun l => wrapped (Sibling.hull l.items) .row [.tableRow] (trees l.items)) j).1,
        Built Enlisted old u := by
      apply Journaled.gives_mapM
      intro l hl j
      exact built_wrapped _ _ (mem_trees (hr l hl)) j (.part (.tail _ (.head _)))
    exact allBuilt_replace _ hs (built_wrapped _ _ hb _ (.part (.tail _ (.tail _ (.head _)))))
  · exact hs

theorem allBuilt_list (ts : List Tree) : AllBuilt ts (Sibling.list ts) := by
  intro s hs
  apply Built.old
  rw [← Sibling.map_tree_list ts]
  exact List.mem_map_of_mem hs

/-- Whatever is made of siblings one after another, the new flow is made of the old one. -/
theorem built_foldlM {α : Type} {make : Siblings → α → Journaled Siblings} {xs : List α} {old : List Tree}
    (h : ∀ x ∈ xs, Builds old fun siblings => make siblings x) (j : Journal) :
    ∀ t ∈ trees (xs.foldlM make (Sibling.list old) j).1, Built Enlisted old t :=
  mem_trees (Journaled.foldlM_keeps (P := fun siblings _ => AllBuilt old siblings)
    (fun siblings j x hx hs => h x hx siblings j hs) (allBuilt_list old))

theorem built_tables (t : Tree) (j : Journal) : ∀ u ∈ (tables t j).1.flow, Built Enlisted t.flow u := by
  refine built_foldlM (fun rows hr => builds_makeTable _ fun l hl s hs => ?_) j
  have hline : l ∈ Line.collect .row (Sibling.list t.flow) := by
    rw [← List.flatten_splitBy sameTable (Line.collect .row (Sibling.list t.flow))]
    exact List.mem_flatten.2 ⟨rows, hr, hl⟩
  exact allBuilt_list t.flow s ((Line.perm_collect _ _).mem_iff.1 (List.mem_flatMap.2 ⟨l, hline, hs⟩))

theorem built_listsAlong (axis : Axis) (t : Tree) (j : Journal) :
    ∀ u ∈ (listsAlong axis t j).1.flow, Built Enlisted t.flow u := by
  refine built_foldlM (fun chain hc => builds_makeList _ (fun u hu s hs => ?_) ⟨t.flow, hc⟩) j
  have hline := ((tracks_of_mem_chains hc).1 u hu).1
  exact allBuilt_list t.flow s ((Line.perm_collect _ _).mem_iff.1 (List.mem_flatMap.2 ⟨u.line, hline, hs⟩))

/-- The new flow is made of the old one, and every new container is a list, a grid or a part. -/
theorem built_makeLists (t : Tree) (j : Journal) : ∀ u ∈ (makeLists t j).1.flow, Built Enlisted t.flow u := by
  have trans {f g : Tree → Journaled Tree} (hf : ∀ t j, ∀ u ∈ (f t j).1.flow, Built Enlisted t.flow u)
      (hg : ∀ t j, ∀ u ∈ (g t j).1.flow, Built Enlisted t.flow u) (t : Tree) (j : Journal) :
      ∀ u ∈ ((f t >>= g) j).1.flow, Built Enlisted t.flow u := by
    intro u hu
    exact (hg _ _ u hu).trans (hf t j)
  have hall := trans (trans built_tables (built_listsAlong .row)) (built_listsAlong .column) t j
  unfold makeLists
  split
  · exact fun u hu => .old hu
  · exact hall

end FlexRecovery.Regroup
