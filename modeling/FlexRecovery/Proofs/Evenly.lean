import FlexRecovery.Proofs.Enlisting
import FlexRecovery.Proofs.Repetition
import FlexRecovery.Proofs.Wording

/-!
Equal boxes at equal distances become a list. In whatever order they stand among the children of their owner, no table
is made of them, the pass across them leaves them alone, and the pass along them takes them all. The list states their
distance as its gap, and none of them needs a margin.
-/

namespace FlexRecovery

open Tree

namespace Regroup

variable {axis : Axis} {width height gap : Nat} {ts : List Tree} {ss : List Sibling} {t : Tree}

/-! ### Lines -/

namespace Line

variable {cross : Axis} {l : Line} {c d : Int}

/-- Siblings with one span across the axis share a line. -/
theorem gather_level (hcd : c < d) (hl : l.crossStart = c ∧ l.crossStop = d)
    (hs : ∀ s ∈ ss, s.box.start cross = c ∧ s.box.stop cross = d) :
    gather cross l ss = [⟨l.items ++ ss, c, d⟩] := by
  induction ss generalizing l with
  | nil =>
    obtain ⟨rfl, rfl⟩ := hl
    rw [List.append_nil]
    rfl
  | cons s ss ih =>
    obtain ⟨⟨hstart, hstop⟩, hs⟩ := List.forall_mem_cons.1 hs
    obtain ⟨hstart', hstop'⟩ := hl
    have htakes : l.takes cross s = true := by
      have := s.box.stop_eq cross
      simp only [takes, decide_eq_true_eq]
      omega
    have hadd : (l.add cross s).crossStart = c ∧ (l.add cross s).crossStop = d := ⟨hstart', by simp [add, hstop, hstop']⟩
    rw [gather, if_pos htakes, ih hadd hs, add, List.append_assoc]
    rfl

/-- Siblings that follow one another across the axis have lines of their own. -/
theorem gather_apart {s : Sibling} (hpos : ∀ a ∈ s :: ss, a.box.start cross < a.box.stop cross)
    (hs : (s :: ss).Pairwise fun a b => a.box.stop cross ≤ b.box.start cross) :
    gather cross (single cross s) ss = (s :: ss).map (single cross) := by
  induction ss generalizing s with
  | nil => rfl
  | cons a ss ih =>
    obtain ⟨hfirst, hs⟩ := List.pairwise_cons.1 hs
    obtain ⟨hps, hpos⟩ := List.forall_mem_cons.1 hpos
    have hleaves : (single cross s).takes cross a = false := by
      have := hfirst a (by simp)
      have := (List.forall_mem_cons.1 hpos).1
      have := a.box.stop_eq cross
      refine decide_eq_false ?_
      dsimp only [single]
      omega
    rw [gather, hleaves, if_neg Bool.false_ne_true, ih hpos hs]
    rfl

theorem collect_level (hne : ss ≠ []) (hcd : c < d)
    (hs : ∀ s ∈ ss, s.box.start axis.cross = c ∧ s.box.stop axis.cross = d) :
    ∃ items, collect axis ss = [⟨items, c, d⟩] := by
  have hp := perm_stableSort (before axis) ss
  unfold collect
  split
  · next he => exact absurd (he ▸ hp).nil_eq.symm hne
  · next s rest he =>
    rw [he] at hp
    obtain ⟨⟨hstart, hstop⟩, hrest⟩ := List.forall_mem_cons.1 fun a ha => hs a (hp.mem_iff.1 ha)
    rw [gather_level hcd ⟨hstart, hstop⟩ hrest]
    exact ⟨_, rfl⟩

theorem length_le_of_mem_collect (h : l ∈ collect axis ss) : l.items.length ≤ ss.length := by
  have hsub := List.sublist_flatten_of_mem (List.mem_map_of_mem (f := Line.items) h)
  rw [← List.flatMap_def] at hsub
  exact hsub.length_le.trans (perm_collect axis ss).length_eq.le

end Line

/-! ### What is left alone -/

theorem foldlM_eq_self {α : Type} {make : Siblings → α → Journaled Siblings} {xs : List α} {siblings : Siblings}
    (h : ∀ x ∈ xs, make siblings x = pure siblings) (j : Journal) : xs.foldlM make siblings j = (siblings, j) :=
  Prod.ext_iff.2 (Journaled.foldlM_keeps (P := fun s i => s = siblings ∧ i = j)
    (by rintro _ _ x hx ⟨rfl, rfl⟩; rw [h x hx]; exact ⟨rfl, rfl⟩) ⟨rfl, rfl⟩)

/-- A table has two rows at least. -/
theorem tables_eq_self (h : ∀ rows ∈ (Line.collect .row (Sibling.list t.flow)).splitBy sameTable, rows.length ≤ 1)
    (j : Journal) : tables t j = (t, j) := by
  obtain ⟨n, flow, attached⟩ := t
  unfold tables
  have hkeeps : ∀ rows ∈ (Line.collect .row (Sibling.list flow)).splitBy sameTable,
      makeTable n.id (Sibling.list flow) rows = pure (Sibling.list flow) := by
    intro rows hrows
    have hnone : isTable rows = false := by
      have := h rows hrows
      simp only [isTable, decide_eq_false_iff_not]
      omega
    simp [makeTable, hnone]
  rw [Journaled.run_bind, foldlM_eq_self hkeeps, trees, Sibling.map_tree_list]
  rfl

/-- Lines of one sibling repeat nothing. -/
theorem listsAlong_eq_self (h : ∀ l ∈ Line.collect axis (Sibling.list t.flow), l.items.length ≤ 1) (j : Journal) :
    listsAlong axis t j = (t, j) := by
  obtain ⟨n, flow, attached⟩ := t
  have hkeeps : ∀ chain ∈ chains axis (Line.collect axis (Sibling.list flow)),
      makeList n.id axis (Sibling.list flow) chain = pure (Sibling.list flow) := by
    intro chain hc
    have hnil : chain = [] := by
      refine List.eq_nil_iff_forall_not_mem.2 fun u hu => ?_
      obtain ⟨hline, hrun⟩ := (tracks_of_mem_chains hc).1 u hu
      have fits := (Run.longest_of_find hrun).fits
      have hle := Nat.mul_le_mul fits.period fits.groups
      have := fits.inside
      have := h u.line hline
      omega
    rw [hnil, makeList]
  unfold listsAlong
  rw [Journaled.run_bind, foldlM_eq_self hkeeps, trees, Sibling.map_tree_list]
  rfl

/-! ### Equal boxes at equal distances -/

/-- Three trees or more of one kind and one size, in one place across the axis and at one distance along it, in order.
They are not all bare texts. -/
structure Evenly (axis : Axis) (width height gap : Nat) (ts : List Tree) : Prop where
  many : 3 ≤ ts.length
  kind : ∃ tag n, ∀ t ∈ ts, t.node.tag = tag ∧ t.flow.length = n
  size : ∀ t ∈ ts, t.box.width = width ∧ t.box.height = height
  level : ∃ c, ∀ t ∈ ts, t.box.start axis.cross = c
  spaced : ts.IsChain fun a b : Tree => b.box.start axis = a.box.stop axis + gap
  texts : ¬∀ t ∈ ts, t.node.isBareText = true

/-- The list that they become. -/
def listOf (axis : Axis) (index : Nat) (ts : List Tree) : Tree where
  node := { Node.generated index (hull ts) axis with roles := ({} : Roles).insert (listRole axis) }
  flow := ts.map (mapNode (·.addRole .listItem))

namespace Evenly

section

variable (h : Evenly axis width height gap ts)

include h

theorem ne_nil : ts ≠ [] := by
  have := h.many
  rintro rfl
  simp at this

/-- One extent for all of them. -/
theorem extents (hw : 1 ≤ width) (hh : 1 ≤ height) (d : Axis) :
    ∃ e : Nat, 1 ≤ e ∧ ∀ t ∈ ts, t.box.extent d = e := by
  cases d with
  | row => exact ⟨width, hw, fun t ht => (h.size t ht).1⟩
  | column => exact ⟨height, hh, fun t ht => (h.size t ht).2⟩

theorem start_lt_stop (hw : 1 ≤ width) (hh : 1 ≤ height) (d : Axis) : ∀ t ∈ ts, t.box.start d < t.box.stop d := by
  obtain ⟨e, he, hext⟩ := h.extents hw hh d
  intro t ht
  have := hext t ht
  rw [Box.stop_eq]
  omega

/-- Each ends before all later ones begin. -/
theorem pairwise : ts.Pairwise fun a b => a.box.stop axis ≤ b.box.start axis := by
  have htrans : IsTrans Tree fun a b => a.box.stop axis ≤ b.box.start axis :=
    ⟨fun a b c hab hbc => hab.trans ((b.box.start_le_stop axis).trans hbc)⟩
  rw [← List.isChain_iff_pairwise]
  exact h.spaced.imp fun a b hab => by omega

/-- Siblings that are sorted along the axis are these trees in order. -/
theorem trees_eq (hw : 1 ≤ width) (hh : 1 ≤ height) (hp : (trees ss).Perm ts)
    (hs : ss.Pairwise fun a b => a.box.start axis ≤ b.box.start axis) : trees ss = ts := by
  have hts : ts.Pairwise fun a b => a.box.start axis < b.box.start axis :=
    h.pairwise.imp_of_mem fun ha _ hab => (h.start_lt_stop hw hh axis _ ha).trans_le hab
  have hss : (trees ss).Pairwise fun a b => a.box.start axis ≤ b.box.start axis := List.pairwise_map.2 hs
  have : Std.Symm fun a b : Tree => a.box.start axis ≠ b.box.start axis := ⟨fun _ _ => Ne.symm⟩
  refine List.Perm.eq_of_pairwise (fun a b ha hb hab hba => ?_) hss (hts.imp le_of_lt) hp
  by_contra hne
  exact (hts.imp ne_of_lt).forall (hp.mem_iff.1 ha) hb hne (le_antisymm hab hba)

/-- Across the axis each of them is a line of its own. -/
theorem lines_across (hw : 1 ≤ width) (hh : 1 ≤ height) (hp : (trees ss).Perm ts) :
    ∀ l ∈ Line.collect axis.cross ss, l.items.length ≤ 1 := by
  have hperm := perm_stableSort (Line.before axis.cross) ss
  have hsorted := Line.pairwise_before axis.cross ss
  rw [Axis.cross_cross] at hsorted
  have htrees := h.trees_eq hw hh ((hperm.map _).trans hp) hsorted
  intro l hl
  unfold Line.collect at hl
  split at hl
  · cases hl
  · next s rest he =>
    rw [he] at htrees
    have happart : (s :: rest).Pairwise fun a b => a.box.stop axis ≤ b.box.start axis :=
      List.pairwise_map.1 (htrees ▸ h.pairwise : (trees (s :: rest)).Pairwise _)
    have hpos : ∀ a ∈ s :: rest, a.box.start axis < a.box.stop axis := fun a ha =>
      h.start_lt_stop hw hh axis _ (htrees ▸ List.mem_map_of_mem ha)
    rw [Axis.cross_cross, Line.gather_apart hpos happart, List.map_map] at hl
    obtain ⟨a, -, rfl⟩ := List.mem_map.1 hl
    exact le_rfl

theorem line_along (hw : 1 ≤ width) (hh : 1 ≤ height) (hp : (trees ss).Perm ts) :
    ∃ l, Line.collect axis ss = [l] ∧ trees l.items = ts ∧ l.items.Perm ss := by
  obtain ⟨c, hc⟩ := h.level
  obtain ⟨e, he, hext⟩ := h.extents hw hh axis.cross
  have hne : ss ≠ [] := by
    rintro rfl
    exact h.ne_nil hp.nil_eq.symm
  have hspan : ∀ s ∈ ss, s.box.start axis.cross = c ∧ s.box.stop axis.cross = c + e := by
    intro s hs
    have hmem := hp.mem_iff.1 (List.mem_map_of_mem hs)
    have hstart : s.box.start axis.cross = c := hc _ hmem
    have hextent : s.box.extent axis.cross = e := hext _ hmem
    rw [Box.stop_eq, hstart, hextent]
    exact ⟨rfl, rfl⟩
  obtain ⟨items, hl⟩ := Line.collect_level hne (by omega) hspan
  have hperm := Line.perm_collect axis ss
  rw [hl, List.flatMap_singleton] at hperm
  refine ⟨_, hl, h.trees_eq hw hh ((hperm.map _).trans hp) ?_, hperm⟩
  exact Line.sorted_of_mem_collect (hl ▸ List.mem_singleton_self _)

end

/-- Each of them repeats the first one, at the same distance from the one before. -/
theorem valid_whole (hw : 1 ≤ width) (hh : 1 ≤ height) (h : Evenly axis width height gap (trees ss)) :
    Run.Valid axis ss ⟨0, 1, ss.length⟩ := by
  have hlen : (trees ss).length = ss.length := List.length_map _
  have hgap {i : Nat} (hi : i + 1 < ss.length) : Run.Gap axis ss i gap := by
    refine ⟨ss[i], ss[i + 1], List.getElem?_eq_getElem _, List.getElem?_eq_getElem hi, ?_⟩
    have hnext := List.isChain_iff_getElem.1 h.spaced i (by omega)
    simp only [trees, List.getElem_map] at hnext
    change (gap : Int) = ss[i + 1].tree.box.start axis - ss[i].tree.box.stop axis
    omega
  refine ⟨by simp, fun k j _ hk hj => ?_, fun i _ hi => ?_⟩
  · obtain rfl := Nat.lt_one_iff.1 hj
    dsimp only at hk
    refine ⟨ss[0], ss[k], List.getElem?_eq_getElem _, by simp, ?_⟩
    obtain ⟨tag, n, hkind⟩ := h.kind
    obtain ⟨e, -, hext⟩ := h.extents hw hh axis.cross
    have hmem {m : Nat} (hm : m < ss.length) : ss[m].tree ∈ trees ss := List.mem_map_of_mem (List.getElem_mem hm)
    obtain ⟨htag, hn⟩ := hkind _ (hmem (by omega : 0 < ss.length))
    obtain ⟨htag', hn'⟩ := hkind _ (hmem hk)
    have hcross : close (ss[0].box.extent axis.cross) (ss[k].box.extent axis.cross) = true := by
      rw [show ss[0].box.extent axis.cross = e from hext _ (hmem _),
        show ss[k].box.extent axis.cross = e from hext _ (hmem hk), close_iff]
      omega
    simp only [Run.matching, sameKind, hcross, Sibling.node, htag, htag', hn, hn', beq_self_eq_true, Bool.true_or,
      Bool.and_self]
  · dsimp only at hi
    refine ⟨gap, hgap (by omega), by unfold Tuning.tolerance; omega, fun h1 => ⟨gap, hgap (by omega), ?_⟩⟩
    exact close_iff.2 (by omega)

/-- All of them are one run. -/
theorem find_eq (hw : 1 ≤ width) (hh : 1 ≤ height) (h : Evenly axis width height gap (trees ss)) :
    Run.find axis ss = some ⟨0, 1, ss.length⟩ := by
  have hmany := h.many
  rw [trees, List.length_map] at hmany
  exact Run.find_eq_some_iff.2 ((h.valid_whole hw hh).best_whole (by omega))

end Evenly

/-! ### One list -/

theorem trees_replace_all {taken : List Nat} (made : Tree) (hne : ss ≠ []) (h : ∀ s ∈ ss, s.position ∈ taken) :
    trees (Sibling.replace taken made ss) = [made] := by
  obtain ⟨s, rest, rfl⟩ := List.exists_cons_of_ne_nil hne
  obtain ⟨hs, hrest⟩ := List.forall_mem_cons.1 h
  have hnone : rest.filter (fun r => !taken.contains r.position) = [] := by
    refine List.filter_eq_nil_iff.2 fun r hr => ?_
    simpa using hrest r hr
  rw [Sibling.replace, if_pos (List.contains_iff_mem.2 hs), hnone]
  rfl

theorem isClear_of_subset {members : List Sibling} (h : ∀ s ∈ ss, s ∈ members) : isClear ss members = true := by
  simp only [isClear, Sibling.overlapsOther, Bool.not_eq_true', List.any_eq_false, Bool.and_eq_true, not_and]
  intro s hs hout
  have hin : (positions members).contains s.position = true := List.contains_iff_mem.2 (List.mem_map_of_mem (h s hs))
  rw [hin] at hout
  cases hout

/-- A line as one run of single items. -/
def Line.whole (l : Line) : Track := ⟨l, 0, 1, l.items.length⟩

@[simp] theorem items_whole (l : Line) : l.whole.items = l.items := by
  simp [Line.whole, Track.items, Run.items, Run.length]

theorem listItems_whole (l : Line) (j : Journal) :
    listItems axis l.whole j = ((trees l.items).map (mapNode (·.addRole .listItem)), j) := by
  have hparts : l.whole.parts = l.items.map ([·]) := by
    refine List.ext_getElem (by simp [Track.parts, Line.whole]) fun k _ hk => ?_
    rw [List.length_map] at hk
    simp [Track.parts, Line.whole, Track.group, Run.group, List.take_one_drop_eq_of_lt_length hk]
  have hmap : listItems axis l.whole = l.whole.parts.mapM (listItem axis) := by
    rw [Track.parts, List.mapM_map]
    rfl
  rw [hmap, hparts, List.mapM_map, trees, List.map_map]
  exact congrFun (List.mapM_pure (f := fun s : Sibling => s.tree.mapNode (·.addRole .listItem))) j

/-- A list of all siblings takes the place of all of them. -/
theorem makeSingle_whole (owner : Option DesignId) {l : Line} (hne : ss ≠ []) (hp : l.items.Perm ss) (j : Journal) :
    trees (makeSingle owner axis ss l.whole j).1 = [listOf axis j.created (trees l.items)] := by
  have hall (made : Tree) : trees (Sibling.replace (positions l.items) made ss) = [made] :=
    trees_replace_all made hne fun s hs => List.mem_map_of_mem (hp.mem_iff.2 hs)
  have hhull : Sibling.hull l.items = hull (trees l.items) := by
    rw [Sibling.hull, hull, trees, List.map_map]
    rfl
  unfold makeSingle
  rw [Journaled.run_bind, listItems_whole, Journaled.run_bind, items_whole, hhull]
  exact hall _

theorem chains_single {l : Line} {r : Run} (h : Run.find axis l.items = some r) : chains axis [l] = [[⟨l, r⟩]] := by
  simp [chains, tracks, h, List.splitBy, List.splitBy.loop]

namespace Evenly

theorem standsAlone_whole {l : Line} (h : Evenly axis width height gap (trees l.items)) :
    standsAlone l.whole = true := by
  have hmany := h.many
  rw [trees, List.length_map] at hmany
  simp only [standsAlone, items_whole, Bool.and_eq_true, decide_eq_true_eq, Bool.not_eq_true', ← Bool.not_eq_true]
  exact ⟨hmany, fun hall => h.texts (mem_trees (List.all_eq_true.1 hall))⟩

variable (hw : 1 ≤ width) (hh : 1 ≤ height) (h : Evenly axis width height gap ts) (hp : t.flow.Perm ts)

include hw hh h hp

theorem listsAlong_eq (j : Journal) :
    (listsAlong axis t j).1 = ⟨t.node, [listOf axis j.created ts], t.attached⟩ := by
  obtain ⟨n, flow, attached⟩ := t
  have hsiblings : (trees (Sibling.list flow)).Perm ts := by rwa [trees, Sibling.map_tree_list]
  have hne : Sibling.list flow ≠ [] := by
    intro hnil
    rw [hnil] at hsiblings
    exact h.ne_nil hsiblings.nil_eq.symm
  obtain ⟨l, hl, rfl, hperm⟩ := h.line_along hw hh hsiblings
  have hclear : isClear (Sibling.list flow) l.items = true := isClear_of_subset fun s hs => hperm.mem_iff.2 hs
  have hmake : makeList n.id axis (Sibling.list flow) [l.whole] = makeSingle n.id axis (Sibling.list flow) l.whole := by
    rw [makeList, h.standsAlone_whole, items_whole, hclear]
    rfl
  have hchains : chains axis [l] = [[l.whole]] := chains_single (h.find_eq hw hh)
  unfold listsAlong
  dsimp only
  rw [hl, hchains, List.foldlM_cons, hmake, ← makeSingle_whole n.id hne hperm]
  rfl

/-- No table is made of them: either they are one row, or each of them is one. -/
theorem tables_eq (j : Journal) : tables t j = (t, j) := by
  have hsiblings : (trees (Sibling.list t.flow)).Perm ts := by rwa [trees, Sibling.map_tree_list]
  refine tables_eq_self (fun rows hrows => ?_) j
  have hsub : rows.Sublist (Line.collect .row (Sibling.list t.flow)) := by
    rw [← List.flatten_splitBy sameTable (Line.collect .row (Sibling.list t.flow))]
    exact List.sublist_flatten_of_mem hrows
  cases axis with
  | row =>
    obtain ⟨l, hl, -, -⟩ := h.line_along hw hh hsiblings
    rw [hl] at hsub
    exact hsub.length_le
  | column =>
    by_contra hlen
    have hcells := two_le_cells (by omega) (List.isChain_of_mem_splitBy hrows)
    obtain ⟨l, hl⟩ := List.exists_mem_of_length_pos (by omega : 0 < rows.length)
    have htwo := hcells l hl
    have hone := h.lines_across hw hh hsiblings l (hsub.subset hl)
    omega

/-- They become one list. -/
theorem makeLists_eq (j : Journal) :
    (makeLists t j).1 = ⟨t.node, [listOf axis j.created ts], t.attached⟩ := by
  have hsiblings : (trees (Sibling.list t.flow)).Perm ts := by rwa [trees, Sibling.map_tree_list]
  have hlen : ¬t.flow.length < 2 := by
    have := h.many
    rw [hp.length_eq]
    omega
  have hlist := h.listsAlong_eq hw hh hp j
  unfold makeLists
  rw [if_neg hlen, Journaled.run_bind, Journaled.run_bind, h.tables_eq hw hh hp]
  cases axis with
  | row =>
    -- a single child is left, and it makes no list of its own
    let owner : Tree := ⟨t.node, [listOf .row j.created ts], t.attached⟩
    have hlone : ∀ l ∈ Line.collect .column (Sibling.list owner.flow), l.items.length ≤ 1 :=
      fun l hl => Line.length_le_of_mem_collect hl
    rw [hlist]
    exact congrArg Prod.fst (listsAlong_eq_self hlone _)
  | column =>
    have hrows : listsAlong .row t j = (t, j) := listsAlong_eq_self (h.lines_across hw hh hsiblings) j
    rw [hrows]
    exact hlist

end Evenly

end Regroup

/-! ### Their distance -/

namespace Resolve

variable {owner : Node} {axis : Axis} {stated : List (Nat × Int)} {g : Int}

theorem commonGap_eq (hne : stated ≠ []) (h : ∀ p ∈ stated, p.2 = g) :
    commonGap stated = if 0 < g then some g else none := by
  obtain ⟨⟨i, v⟩, rest, rfl⟩ := List.exists_cons_of_ne_nil hne
  obtain ⟨rfl, hrest⟩ := List.forall_mem_cons.1 h
  have hall : (rest.all fun p => close v p.2) = true := List.all_eq_true.2 fun p hp => by
    rw [hrest p hp, close_iff]
    omega
  simp only [commonGap, hall, Bool.and_true, decide_eq_true_eq]

/-- Gaps of nothing need no margins. -/
theorem gapMargins_eq_nil (plan : Plan) (h : ∀ p ∈ stated, p.2 = 0) (position : Nat) :
    gapMargins plan stated position = [] := by
  refine List.filterMap_eq_nil_iff.2 fun p hp => ?_
  obtain ⟨i, g⟩ := p
  exact if_pos (h _ hp)

/-- A list that equal distances fill from edge to edge states them, and nothing else. -/
theorem mainPlan_eq {children : List Node} {gap n : Nat} (hr : owner.roles.isList = true) (hn : 0 < n)
    (hg : Gaps.along (children.map (·.box)) owner.box axis = ⟨0, 0, List.replicate n (gap : Int)⟩) :
    mainPlan owner axis children = { 
      plan := .start
      padStart := 0
      padStop := 0
      gap := if 0 < gap then some (gap : Int) else none
      children := List.replicate children.length [] } := by
  let stated := statedGaps .start ⟨0, 0, List.replicate n (gap : Int)⟩
  have hstated : ∀ p ∈ stated, p.2 = (gap : Int) := by
    intro p hp
    obtain ⟨⟨v, i⟩, hv, rfl⟩ := List.mem_map.1 hp
    exact List.eq_of_mem_replicate (List.fst_mem_of_mem_zipIdx hv)
  have hne : stated ≠ [] := by
    simp only [stated, statedGaps, ne_eq, List.map_eq_nil_iff, List.zipIdx_eq_nil_iff, List.replicate_eq_nil_iff]
    omega
  have hgap : commonGap stated = if 0 < gap then some (gap : Int) else none := by
    rw [commonGap_eq hne hstated]
    simp only [Int.natCast_pos]
  have hmargins (i : Nat) : (if (commonGap stated).isSome then [] else gapMargins .start stated i) = [] := by
    rw [hgap]
    by_cases h0 : 0 < gap
    · rw [if_pos h0]
      rfl
    · rw [if_neg h0]
      exact gapMargins_eq_nil .start (fun p hp => by rw [hstated p hp]; omega) i
  have hplan : mainPlan owner axis children = ⟨.start, 0, 0, commonGap stated,
      (List.range children.length).map fun i => if (commonGap stated).isSome then [] else gapMargins .start stated i⟩ := by
    unfold mainPlan
    rw [hg, hr]
    cases owner.sizing axis == some .auto && !isOpen owner axis <;> simp [mainPadding, Plan.distributes, stated]
  rw [hplan, hgap.symm]
  simp only [hmargins, List.map_const', List.length_range]

theorem justifyChildren_of_even {flow : List Tree} {gap n : Nat} (hd : owner.direction = some axis)
    (hr : owner.roles.isList = true) (hn : 0 < n)
    (hg : Gaps.along (flow.map box) owner.box axis = ⟨0, 0, List.replicate n (gap : Int)⟩) (j : Journal) :
    justifyChildren owner flow j =
      ((owner.pushAll ("justify-start" :: if 0 < gap then [gapToken axis gap] else []), flow), j) := by
  have hne : flow ≠ [] := by
    rintro rfl
    have hinterior := congrArg (fun g => g.interior.length) hg
    rw [List.length_replicate] at hinterior
    exact hn.ne hinterior
  have hboxes : (flow.map node).map (·.box) = flow.map box := List.map_map
  have hworded : worded (List.replicate flow.length []) flow = flow := by
    clear hg hne hboxes
    induction flow with
    | nil => rfl
    | cons t flow ih =>
      rw [List.length_cons, List.replicate_succ, worded, List.zipWith_cons_cons]
      exact congrArg₂ List.cons (by rw [mapNode, Node.pushAll_nil]; cases t; rfl) ih
  rw [justifyChildren_eq hd hne, mainPlan_eq hr hn (hboxes ▸ hg)]
  dsimp only [MainPlan.ownTokens, MainPlan.childTokens]
  rw [List.map_replicate, List.length_map, List.map_nil, hworded]
  split <;> rfl

end Resolve

namespace Regroup

open Resolve

variable {axis : Axis} {width height gap : Nat} {ts : List Tree} {t : Tree}

theorem gaps_eq_replicate (h : ts.IsChain fun a b : Tree => b.box.start axis = a.box.stop axis + gap) :
    Box.gaps axis (ts.map box) = List.replicate (ts.length - 1) (gap : Int) := by
  induction ts with
  | nil => rfl
  | cons a ts ih =>
    cases ts with
    | nil => rfl
    | cons b ts =>
      obtain ⟨hab, hrest⟩ := List.isChain_cons_cons.1 h
      have hgap : b.box.start axis - a.box.stop axis = gap := by omega
      rw [List.map_cons, List.map_cons, Box.gaps, hgap]
      exact congrArg (List.cons _) (ih hrest)

/-- They fill their hull from edge to edge. -/
theorem Evenly.along_eq (h : Evenly axis width height gap ts) :
    Gaps.along (ts.map box) (hull ts) axis = ⟨0, 0, List.replicate (ts.length - 1) (gap : Int)⟩ := by
  have hull := around_hull h.ne_nil
  have hstarts : ts.Pairwise fun a b : Tree => a.box.start axis ≤ b.box.start axis :=
    h.pairwise.imp fun hab => (Box.start_le_stop _ axis).trans hab
  have hstops : ts.Pairwise fun a b : Tree => a.box.stop axis ≤ b.box.stop axis :=
    h.pairwise.imp fun hab => hab.trans (Box.start_le_stop _ axis)
  have hfirst : (ts.head h.ne_nil).box.start axis = (Tree.hull ts).start axis := by
    obtain ⟨b, hb, hstart⟩ := hull.exists_start axis
    obtain ⟨c, hc, rfl⟩ := List.mem_map.1 hb
    have hle := hstarts.rel_head_of_rel_head_head hc le_rfl
    exact le_antisymm (hle.trans hstart.le) (hull.start_le (List.mem_map_of_mem (List.head_mem _)) axis)
  have hlast : (ts.getLast h.ne_nil).box.stop axis = (Tree.hull ts).stop axis := by
    obtain ⟨b, hb, hstop⟩ := hull.exists_stop axis
    obtain ⟨c, hc, rfl⟩ := List.mem_map.1 hb
    have hle := hstops.rel_getLast_of_rel_getLast_getLast hc le_rfl
    exact le_antisymm (hull.stop_le (List.mem_map_of_mem (List.getLast_mem _)) axis) (hstop.ge.trans hle)
  have hends : (ts.map box).head? = some (ts.head h.ne_nil).box ∧
      (ts.map box).getLast? = some (ts.getLast h.ne_nil).box := by
    rw [List.head?_map, List.getLast?_map, List.head?_eq_some_head h.ne_nil, List.getLast?_eq_getLast_of_ne_nil h.ne_nil]
    exact ⟨rfl, rfl⟩
  rw [Gaps.along, hends.1, hends.2, gaps_eq_replicate h.spaced]
  dsimp only
  rw [hfirst, hlast, Int.sub_self, Int.sub_self]

/-- In whatever order they stand among the children of their owner, equal boxes at equal distances become its one child,
a list of all of them in order. Whatever else is settled for the list and its items before its children are justified,
the list states the distance, and no item states a margin. -/
theorem makeLists_evenly (hw : 1 ≤ width) (hh : 1 ≤ height) (h : Evenly axis width height gap ts)
    (hp : t.flow.Perm ts) (j : Journal) :
    (makeLists t j).1 = ⟨t.node, [listOf axis j.created ts], t.attached⟩ ∧
    ∀ (n : Node) (flow : List Tree) (j' : Journal), n.box = (listOf axis j.created ts).box →
      n.direction = some axis → n.roles = (listOf axis j.created ts).node.roles →
      flow.map box = (listOf axis j.created ts).flow.map box →
      justifyChildren n flow j' =
        ((n.pushAll ("justify-start" :: if 0 < gap then [gapToken axis gap] else []), flow), j') := by
  refine ⟨h.makeLists_eq hw hh hp j, fun n flow j' hbox hd hr hflow => ?_⟩
  have hmany := h.many
  have hlist : n.roles.isList = true := by
    rw [hr]
    cases axis <;> rfl
  have hboxes : flow.map box = ts.map box := by
    rw [hflow, listOf, List.map_map]
    rfl
  apply justifyChildren_of_even (n := ts.length - 1) hd hlist (by omega)
  rw [hboxes, hbox]
  exact h.along_eq

/-- Three equal boxes one below the other, in order. -/
def rungs : List Tree := (sheet [⟨0, 0, 40, 24⟩, ⟨0, 48, 40, 24⟩, ⟨0, 96, 40, 24⟩]).flow

theorem evenly_rungs : Evenly .column 40 24 24 rungs where
  many := by decide
  kind := ⟨.view, 0, by decide⟩
  size := by decide
  level := ⟨0, by decide⟩
  spaced := by decide
  texts := by decide

/-- The lowest of them comes first. -/
def shuffled : Tree := sheet [⟨0, 96, 40, 24⟩, ⟨0, 0, 40, 24⟩, ⟨0, 48, 40, 24⟩]

theorem makeLists_evenly_rungs : (1 ≤ 40 ∧ 1 ≤ 24 ∧ shuffled.flow.Perm rungs) ∧
    (makeLists shuffled {}).1 = ⟨shuffled.node, [listOf .column 0 rungs], []⟩ ∧
    justifyChildren (listOf .column 0 rungs).node (listOf .column 0 rungs).flow {} =
      (((listOf .column 0 rungs).node.pushAll ["justify-start", gapToken .column 24], (listOf .column 0 rungs).flow), {}) := by
  have hperm : shuffled.flow.Perm rungs := (List.perm_append_singleton _ _).symm
  obtain ⟨hlist, hjustify⟩ := makeLists_evenly (by decide) (by decide) evenly_rungs hperm {}
  exact ⟨⟨by decide, by decide, hperm⟩, hlist, hjustify _ _ {} rfl rfl rfl rfl⟩

end Regroup

end FlexRecovery
