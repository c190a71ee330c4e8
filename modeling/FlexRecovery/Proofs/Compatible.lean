import FlexRecovery.Proofs.Flexbox.Aligned
import FlexRecovery.Proofs.Settling
import FlexRecovery.Proofs.Sparing
import FlexRecovery.Proofs.Tokens

/-!
The tokens of a layout do not conflict. A node states its own facets as an owner, other facets as a flow child or as
what is placed on an owner, and a maximal width as a text in a slot; whatever it stated before is none of them.
-/

namespace FlexRecovery

open Node FlexRecovery.Tree Facet

namespace Node

/-- Further tokens that state at most that much. What a node is does not change. -/
structure Gains (extra : Multiset Facet) (n n' : Node) : Prop where
  tokens : n.classes.toList.Sublist n'.classes.toList
  upper : n'.facets ≤ n.facets + extra
  direction : n'.direction = n.direction
  listWrap : n'.hasRole .listWrap = n.hasRole .listWrap
  chrome : n'.roles.isChrome = n.roles.isChrome

namespace Gains

variable {extra extra' : Multiset Facet} {a b c n n' : Node}

theorem of_eq (extra : Multiset Facet) (hc : n'.classes = n.classes) (hd : n'.direction = n.direction)
    (hr : n'.roles = n.roles) : Gains extra n n' where
  tokens := by rw [hc]
  upper := by
    rw [facets_of_classes hc]
    exact Multiset.le_add_right _ _
  direction := hd
  listWrap := by rw [hasRole, hr, ← hasRole]
  chrome := by rw [hr]

theorem refl (extra : Multiset Facet) (n : Node) : Gains extra n n := of_eq extra rfl rfl rfl

theorem trans (h : Gains extra a b) (h' : Gains extra' b c) : Gains (extra + extra') a c where
  tokens := h.tokens.trans h'.tokens
  upper := by
    rw [← add_assoc]
    exact h'.upper.trans (Multiset.add_le_add_right h.upper)
  direction := h'.direction.trans h.direction
  listWrap := h'.listWrap.trans h.listWrap
  chrome := h'.chrome.trans h.chrome

theorem lower (h : Gains extra a b) : a.facets ≤ b.facets := readAll_le_of_sublist h.tokens

theorem mono (h : Gains extra a b) (he : extra ≤ extra') : Gains extra' a b :=
  { h with upper := h.upper.trans (Multiset.add_le_add_left he) }

end Gains

theorem gains_pushAll (n : Node) (ts : List String) : Gains (readAll ts) n (n.pushAll ts) where
  tokens := (n.classes.prefix_pushAll ts).sublist
  upper := facets_pushAll_le n ts
  direction := rfl
  listWrap := rfl
  chrome := rfl

theorem gains_push (n : Node) (t : String) : Gains (readAll [t]) n (n.push t) := gains_pushAll n [t]

theorem mem_facets {n : Node} {t : String} {f : Facet} (ht : t ∈ n.classes.toList) (hf : read t = some f) :
    f ∈ n.facets := Multiset.mem_coe.2 (List.mem_filterMap.2 ⟨t, ht, hf⟩)

/-- A token that was added and states something. -/
theorem mem_pushAll {n : Node} {ts : List String} {t : String} {f : Facet} (ht : t ∈ ts) (hf : read t = some f) :
    t ∈ (n.pushAll ts).classes.toList := by
  refine Classes.mem_pushAll.2 (.inr ⟨ht, ?_⟩)
  rintro rfl
  cases hf

theorem gains_setSizing (n : Node) (axis : Axis) (s : Sizing) : Gains 0 n (n.setSizing axis s) := by
  cases axis <;> exact .of_eq 0 rfl rfl rfl

theorem gains_button (n : Node) : Gains 0 n (n.addRole .button) where
  tokens := .refl _
  upper := Multiset.le_add_right _ _
  direction := rfl
  listWrap := hasRole_addMark n rfl rfl
  chrome := (marked_addRole n rfl).chrome

end Node

/-- A node with a direction states it, and an owner that lays out its flow children along it states how, unless it has
gaps of its own. -/
structure Tree.Tells (t : Tree) : Prop where
  direction : ∀ d, t.node.direction = some d → Resolve.directionToken d ∈ t.node.classes.toList
  placement : t.flow ≠ [] → t.node.direction.isSome = true → t.node.hasRole .listWrap = false →
    .items ∈ t.node.facets ∧ .justify ∈ t.node.facets

/-- No facet is stated twice, and those of a layout are stated. -/
structure Tree.Compatible (t : Tree) : Prop where
  once : t.node.facets.Nodup
  tells : t.Tells

theorem Tree.Tells.gains {t : Tree} (h : t.Tells) {extra : Multiset Facet} {n : Node} (hn : Gains extra t.node n)
    (attached : List Tree) : Tells ⟨n, t.flow, attached⟩ where
  direction := fun d hd => hn.tokens.subset (h.direction d (hn.direction ▸ hd))
  placement := fun hf hd hw => (h.placement hf (hn.direction ▸ hd) (hn.listWrap ▸ hw)).imp
    (Multiset.mem_of_le hn.lower) (Multiset.mem_of_le hn.lower)

namespace Resolve

/-- What an owner states for its members. A wrapping list has gaps already. -/
def ownFacets (n : Node) : Multiset Facet := if n.hasRole .listWrap = true then {.direction} else owned

theorem ownFacets_of_gains {extra : Multiset Facet} {n n' : Node} (h : Gains extra n n') :
    ownFacets n' = ownFacets n := by
  rw [ownFacets, h.listWrap]
  rfl

/-- What an owner states in all. -/
theorem allowance_ownFacets (n : Node) : n.allowance + ownFacets n ≤
    owned + if n.roles.isChrome = true then {.extent .column} else 0 := by
  unfold Node.allowance ownFacets
  cases n.hasRole .listWrap <;> cases n.roles.isChrome <;> decide

/-! ### Finishing -/

section finish

variable {n : Node} {direction : Axis} {flow : List Tree} {u : Tree}

theorem gains_settleAuto (n : Node) (flow : List Tree) : Gains 0 n (settleAuto n flow) := by
  have axis (n : Node) (axis : Axis) : Gains 0 n (settleAxis flow n axis) := by
    unfold settleAxis
    split
    · exact gains_setSizing n axis .fixed
    · exact .refl 0 n
  unfold settleAuto
  split
  · exact .refl 0 n
  · exact (axis n .row).trans (axis _ .column)

/-- An owner and its flow children, before the children state their sizes. -/
def laidOut (n : Node) (direction : Axis) (flow : List Tree) (j : Journal) : Node × List Tree :=
  let n := (settleAuto n flow).pushAll ["flex", directionToken direction]
  if n.hasRole .listWrap then (n, flow)
  else (justifyChildren (alignChildren n flow).1 (alignChildren n flow).2 j).1

theorem run_finish (hd : n.direction = some direction) (flow : List Tree) (j : Journal) : (finish n flow j).1 =
    let r := laidOut n direction flow j
    (if isButton r.1 (withSizes r.1 r.2) then r.1.addRole .button else r.1, withSizes r.1 r.2) := by
  unfold finish laidOut
  rw [(gains_settleAuto n flow).direction, hd]
  dsimp only
  split <;> rfl

theorem mem_worded {tokens : List (List String)} (h : u ∈ worded tokens flow) :
    ∃ t ∈ flow, ∃ ts ∈ tokens, u = t.mapNode (·.pushAll ts) := by
  rw [worded, ← List.map_uncurry_zip_eq_zipWith] at h
  obtain ⟨⟨ts, t⟩, hm, rfl⟩ := List.mem_map.1 h
  exact ⟨t, (List.of_mem_zip hm).2, ts, (List.of_mem_zip hm).1, rfl⟩

/-! What the children get. -/

theorem mem_alignChildren (hd : n.direction = some direction) (hu : u ∈ (alignChildren n flow).2) :
    ∃ t ∈ flow, ∃ ts, readAll ts ≤ crossFacets direction.cross (t.node.sizing direction.cross == some .constrained) ∧
      u = t.mapNode (·.pushAll ts) := by
  have hne : flow ≠ [] := by
    rintro rfl
    unfold alignChildren at hu
    rw [hd] at hu
    exact List.not_mem_nil hu
  obtain ⟨skew, hchildren⟩ := children_crossPlan n direction.cross (flow.map (·.node))
  rw [alignChildren_eq hd hne] at hu
  dsimp only at hu
  rw [CrossPlan.childTokens, hchildren, List.map_map, List.map_map, worded, List.zipWith_map_left,
    List.zipWith_self] at hu
  obtain ⟨t, ht, rfl⟩ := List.mem_map.1 hu
  exact ⟨t, ht, _, readAll_childTokens direction.cross _ skew _ _, rfl⟩

theorem mem_insertSpacer {box : Box} {axis : Axis} {k : Nat} {j : Journal}
    (hu : u ∈ (insertSpacer box axis k flow j).1) :
    u ∈ flow ∨ ∃ index before after, u = ⟨spacerNode box axis index before after, [], []⟩ := by
  unfold insertSpacer at hu
  cases hb : flow[k]? with
  | none =>
    rw [hb] at hu
    exact .inl hu
  | some before =>
    cases ha : flow[k + 1]? with
    | none =>
      rw [hb, ha] at hu
      exact .inl hu
    | some after =>
      rw [hb, ha] at hu
      rcases List.mem_append.1 hu with h | h
      · exact .inl (List.mem_of_mem_take h)
      · rcases List.mem_cons.1 h with rfl | h
        · exact .inr ⟨_, _, _, rfl⟩
        · exact .inl (List.mem_of_mem_drop h)

theorem mem_justifyChildren (hd : n.direction = some direction) {j : Journal}
    (hu : u ∈ (justifyChildren n flow j).1.2) :
    (∃ t ∈ flow, ∃ ts, readAll ts ≤ mainFacets direction ∧ u = t.mapNode (·.pushAll ts)) ∨
      ∃ s : Node, s.facets = 0 ∧ s.direction = none ∧ u = ⟨s, [], []⟩ := by
  have hne : flow ≠ [] := by
    rintro rfl
    unfold justifyChildren at hu
    rw [hd] at hu
    exact List.not_mem_nil hu
  have hworded {u : Tree} (hu : u ∈ worded ((mainPlan n direction (flow.map (·.node))).childTokens direction) flow) :
      ∃ t ∈ flow, ∃ ts, readAll ts ≤ mainFacets direction ∧ u = t.mapNode (·.pushAll ts) := by
    obtain ⟨t, ht, ts, hts, rfl⟩ := mem_worded hu
    exact ⟨t, ht, ts, readAll_mainTokens n direction _ ts hts, rfl⟩
  rw [justifyChildren_eq hd hne] at hu
  dsimp only at hu
  split at hu
  · rcases mem_insertSpacer hu with h | ⟨index, before, after, rfl⟩
    · exact .inl (hworded h)
    · refine .inr ⟨_, ?_, ?_, rfl⟩ <;> cases direction <;> rfl
  · exact .inl (hworded hu)

theorem mem_withSizes (hd : n.direction = some direction) (hu : u ∈ withSizes n flow) :
    ∃ t ∈ flow, ∃ ts, readAll ts ≤ sizeFacets (t.node.sizing direction.cross == some .constrained) ∧
      u = t.mapNode (·.pushAll ts) := by
  unfold withSizes at hu
  rw [hd] at hu
  obtain ⟨t, ht, rfl⟩ := List.mem_map.1 hu
  exact ⟨t, ht, _, readAll_sizeTokens direction _ t.node, rfl⟩

/-! What the owner gets. -/

theorem gains_alignChildren (hd : n.direction = some direction) (flow : List Tree) :
    Gains {.items, .padding (.leading direction.cross), .padding (.trailing direction.cross)} n
      (alignChildren n flow).1 ∧ (flow ≠ [] → .items ∈ (alignChildren n flow).1.facets) := by
  by_cases hne : flow = []
  · subst hne
    unfold alignChildren
    rw [hd]
    exact ⟨.refl _ n, fun h => absurd rfl h⟩
  · rw [alignChildren_eq hd hne]
    have halign : Gains 0 n { n with align := some (crossPlan n direction.cross (flow.map (·.node))).align } :=
      .of_eq 0 rfl rfl rfl
    refine ⟨((halign.trans (gains_pushAll _ _)).mono ?_), fun _ => ?_⟩
    · rw [zero_add]
      exact readAll_crossPlan _ direction.cross
    · exact mem_facets (mem_pushAll List.mem_cons_self (read_align _)) (read_align _)

theorem gains_justifyChildren (hd : n.direction = some direction) (flow : List Tree) (j : Journal) :
    Gains {.justify, .padding (.leading direction), .padding (.trailing direction), .gap direction} n
      (justifyChildren n flow j).1.1 ∧ (flow ≠ [] → .justify ∈ (justifyChildren n flow j).1.1.facets) := by
  by_cases hne : flow = []
  · subst hne
    unfold justifyChildren
    rw [hd]
    exact ⟨.refl _ n, fun h => absurd rfl h⟩
  · have howner : (justifyChildren n flow j).1.1 =
        n.pushAll ((mainPlan n direction (flow.map (·.node))).ownTokens direction) := by
      rw [justifyChildren_eq hd hne]
      dsimp only
      split <;> rfl
    rw [howner]
    exact ⟨(gains_pushAll _ _).mono (readAll_mainPlan _ direction),
      fun _ => mem_facets (mem_pushAll List.mem_cons_self (read_plan _)) (read_plan _)⟩

theorem gains_flex (hd : n.direction = some direction) (flow : List Tree) :
    let m := (settleAuto n flow).pushAll ["flex", directionToken direction]
    Gains {.direction} n m ∧ directionToken direction ∈ m.classes.toList ∧ m.direction = some direction := by
  have hflex : readAll ["flex", directionToken direction] = {.direction} := by
    rw [readAll_cons_none (by decide +kernel), readAll_cons_some (read_direction direction)]
    rfl
  have h := (gains_settleAuto n flow).trans (gains_pushAll _ ["flex", directionToken direction])
  rw [zero_add, hflex] at h
  exact ⟨h, mem_pushAll (by simp) (read_direction direction), h.direction.trans hd⟩

theorem gains_laidOut (hd : n.direction = some direction) (flow : List Tree) (j : Journal) :
    Gains (ownFacets n) n (laidOut n direction flow j).1 ∧ Tells ⟨(laidOut n direction flow j).1, flow, []⟩ := by
  obtain ⟨hm, hflex, hmd⟩ := gains_flex hd flow
  unfold laidOut
  dsimp only at hm hflex hmd ⊢
  generalize (settleAuto n flow).pushAll ["flex", directionToken direction] = m at *
  have htold {m' : Node} {extra : Multiset Facet} (h : Gains extra m m') :
      ∀ d, m'.direction = some d → directionToken d ∈ m'.classes.toList := by
    intro d hd'
    obtain rfl := Option.some.inj (hmd.symm.trans (h.direction.symm.trans hd'))
    exact h.tokens.subset hflex
  cases hw : n.hasRole .listWrap with
  | true =>
    have hwm : m.hasRole .listWrap = true := hm.listWrap.trans hw
    rw [if_pos hwm, ownFacets, if_pos hw]
    exact ⟨hm, htold (.refl 0 m), fun _ _ hn => absurd hwm (by simp [hn])⟩
  | false =>
    obtain ⟨ha, hitems⟩ := gains_alignChildren hmd flow
    obtain ⟨hj, hjustify⟩ := gains_justifyChildren (ha.direction.trans hmd) (alignChildren m flow).2 j
    rw [if_neg (by simp [hm.listWrap, hw]), ownFacets, if_neg (by simp [hw])]
    refine ⟨((hm.trans ha).trans hj).mono (by cases direction <;> decide), htold (ha.trans hj), fun hne _ _ => ?_⟩
    have hne' : (alignChildren m flow).2 ≠ [] := by
      rw [ne_eq, ← List.length_eq_zero_iff, ← (spaced_alignChildren m flow).length_eq, List.length_eq_zero_iff]
      exact hne
    exact ⟨Multiset.mem_of_le hj.lower (hitems hne), hjustify hne'⟩

theorem gains_finish (n : Node) (flow : List Tree) (j : Journal) : Gains (ownFacets n) n (finish n flow j).1.1 := by
  cases hd : n.direction with
  | none =>
    unfold finish
    rw [(gains_settleAuto n flow).direction, hd]
    exact (gains_settleAuto n flow).mono (Multiset.zero_le _)
  | some direction =>
    obtain ⟨hr, -⟩ := gains_laidOut hd flow j
    rw [run_finish hd]
    dsimp only
    split
    · exact (hr.trans (gains_button _)).mono (add_zero _).le
    · exact hr

theorem tells_finish (n : Node) (flow : List Tree) (j : Journal) :
    Tells ⟨(finish n flow j).1.1, (finish n flow j).1.2, []⟩ := by
  cases hd : n.direction with
  | none =>
    have hnone := (gains_finish n flow j).direction.trans hd
    exact ⟨fun d h => (by rw [hnone] at h; cases h), fun _ h => (by rw [hnone] at h; cases h)⟩
  | some direction =>
    obtain ⟨-, ht⟩ := gains_laidOut hd flow j
    have hflow : (finish n flow j).1.2 ≠ [] → flow ≠ [] := fun h h' => h ((dressed_finish n flow j).2.nil_iff.2 h')
    have hr : Gains 0 (laidOut n direction flow j).1 (finish n flow j).1.1 := by
      rw [run_finish hd]
      dsimp only
      split
      · exact gains_button _
      · exact .refl 0 _
    have ht := ht.gains hr []
    exact ⟨ht.direction, fun h => ht.placement (hflow h)⟩

theorem mem_laidOut (hd : n.direction = some direction) {j : Journal} (hu : u ∈ (laidOut n direction flow j).2) :
    (∃ t ∈ flow, ∃ ts, readAll ts ≤ crossFacets direction.cross
        (t.node.sizing direction.cross == some .constrained) + mainFacets direction ∧ u = t.mapNode (·.pushAll ts)) ∨
      ∃ s : Node, s.facets = 0 ∧ s.direction = none ∧ u = ⟨s, [], []⟩ := by
  obtain ⟨hm, -, hmd⟩ := gains_flex hd flow
  unfold laidOut at hu
  dsimp only at hm hmd hu
  generalize (settleAuto n flow).pushAll ["flex", directionToken direction] = m at *
  split at hu
  · refine .inl ⟨u, hu, [], Multiset.zero_le _, ?_⟩
    rw [mapNode, pushAll_nil]
    cases u
    rfl
  · obtain ⟨ha, -⟩ := gains_alignChildren hmd flow
    rcases mem_justifyChildren (ha.direction.trans hmd) hu with ⟨v, hv, us, hus, rfl⟩ | h
    · obtain ⟨t, ht, ts, hts, rfl⟩ := mem_alignChildren hmd hv
      refine .inl ⟨t, ht, ts ++ us, ?_, ?_⟩
      · rw [readAll_append]
        exact add_le_add hts hus
      · rw [mapNode, mapNode, mapNode, pushAll_pushAll]
    · exact .inr h

/-- A child of an owner that is finished: one of its children with tokens of its place, or a spacer. -/
theorem mem_finish {j : Journal} (hu : u ∈ (finish n flow j).1.2) :
    (∃ t ∈ flow, ∃ ts, readAll ts ≤ placed ∧ u = t.mapNode (·.pushAll ts)) ∨
      ∃ s : Node, s.facets ≤ placed ∧ s.direction = none ∧ u = ⟨s, [], []⟩ := by
  cases hd : n.direction with
  | none =>
    unfold finish at hu
    rw [(gains_settleAuto n flow).direction, hd] at hu
    refine .inl ⟨u, hu, [], Multiset.zero_le _, ?_⟩
    rw [mapNode, pushAll_nil]
    cases u
    rfl
  | some direction =>
    have hplaced (isConstrained : Bool) : crossFacets direction.cross isConstrained + mainFacets direction +
        sizeFacets isConstrained ≤ placed := by cases direction <;> cases isConstrained <;> decide
    obtain ⟨hr, -⟩ := gains_laidOut hd flow j
    rw [run_finish hd] at hu
    obtain ⟨v, hv, us, hus, rfl⟩ := mem_withSizes (hr.direction.trans hd) hu
    rcases mem_laidOut hd hv with ⟨t, ht, ts, hts, rfl⟩ | ⟨s, hs, hsd, rfl⟩
    · refine .inl ⟨t, ht, ts ++ us, ?_, ?_⟩
      · rw [readAll_append]
        rw [mapNode, sizing_pushAll] at hus
        exact (add_le_add hts hus).trans (hplaced _)
      · rw [mapNode, mapNode, mapNode, pushAll_pushAll]
    · refine .inr ⟨s.pushAll us, (facets_pushAll_le s us).trans ?_, hsd, rfl⟩
      rw [hs, zero_add]
      exact hus.trans ((Multiset.le_add_left _ _).trans (hplaced _))

end finish

/-! ### Slots -/

theorem gains_neutral (n : Node) {t : String} (h : read t = none) : Gains 0 n (n.push t) :=
  (gains_push n t).mono (readAll_cons_none h []).le

theorem gains_scrolling (o : Options) (n : Node) : Gains 0 n (scrolling o n) := by
  unfold scrolling
  split
  · exact .refl 0 n
  · split
    · exact gains_neutral n (by decide +kernel)
    · split
      · exact gains_neutral n (by decide +kernel)
      · exact .refl 0 n

theorem gains_clamped (o : Options) (n : Node) : Gains 0 n (clamped o n) := by
  have hclamp (s : String) : read ("line-clamp-" ++ s) = none :=
    read_eq_none ((by decide : Opens ["line-clamp-"] "line-clamp-").append s) (by decide +kernel)
  unfold clamped
  split
  · split
    · exact gains_neutral n (hclamp _)
    · exact .refl 0 n
  · exact .refl 0 n

theorem gains_sized (o : Options) (owner : Node) (direction : Axis) (n : Node) :
    Gains 0 n (sized o owner direction n) := by
  have hfill (n : Node) (axis : Axis) : Gains 0 n (fillSizing n axis) := by
    unfold fillSizing
    split
    · exact .refl 0 n
    · exact gains_setSizing n axis _
  have hwidened : Gains 0 n (widened owner.box direction.cross n) := by
    unfold widened
    split
    · have hbox : Gains 0 n { n with
          box := n.box.withSpan direction.cross (owner.box.start direction.cross) (owner.box.stop direction.cross) } :=
        .of_eq 0 rfl rfl rfl
      exact hbox.trans (gains_setSizing _ _ _)
    · exact .refl 0 n
  have hdefinite (n : Node) : Gains 0 n (definite owner n) := by
    unfold definite
    split
    · exact gains_setSizing n .row .fixed
    · exact .refl 0 n
  have hstretched (n : Node) : Gains 0 n (stretched owner direction.cross n) := by
    unfold stretched
    split
    · exact gains_setSizing n _ _
    · exact .refl 0 n
  unfold sized
  split
  · exact (gains_setSizing n .row .fixed).trans (gains_setSizing _ .column .fixed)
  · exact (((hwidened.trans (hfill _ .row)).trans (hfill _ .column)).trans (hdefinite _)).trans (hstretched _)

/-- What a child states in its slot. The text in a wrapper is not bounded again. -/
def slotFacets (owner : Node) : Multiset Facet := if owner.hasRole .overflow = true then 0 else {.maxWidth}

/-- A child in its slot. -/
structure Fitted (owner n : Node) (s : Slot) : Prop where
  node : Gains (slotFacets owner) n s.node
  wrapper : ∀ w, s.wrapper = some w → ∃ index box, w = overflowWrapper owner index box

variable {owner : Node}

theorem Fitted.of_gains {n n' : Node} {s : Slot} (h : Gains 0 n n') (hs : Fitted owner n' s) : Fitted owner n s :=
  ⟨(h.trans hs.node).mono (zero_add _).le, hs.wrapper⟩

theorem fitted_bare {n n' : Node} (h : Gains (slotFacets owner) n n') : Fitted owner n { node := n' } := ⟨h, nofun⟩

theorem fitted_bounded (hb : owner.hasRole .overflow = false) (direction : Axis) (n : Node) (next : Option Node)
    (j : Journal) : Fitted owner n (bounded owner direction n next j).1 := by
  have hslot : slotFacets owner = {.maxWidth} := if_neg (by simp [hb])
  have hlimit (v : Int) : Gains (slotFacets owner) n (n.push (maxWidth v)) := by
    rw [hslot, ← readAll_maxWidth v]
    exact gains_push n _
  unfold bounded
  split
  · exact fitted_bare (.refl _ n)
  · split
    · exact fitted_bare (hlimit _)
    · split
      · exact fitted_bare (hlimit _)
      · refine ⟨?_, fun w hw => ⟨_, _, (Option.some.inj hw).symm⟩⟩
        rw [hslot, ← readAll_maxWidthFull]
        exact gains_push n _

theorem fitted_slot (o : Options) (owner : Node) (direction : Axis) (n : Node) (next : Option Node) (j : Journal) :
    Fitted owner n (slot o owner direction n next j).1 := by
  have htruncate (n : Node) : Gains 0 n (n.push "truncate") := gains_neutral n (by decide +kernel)
  have hbare {n n' : Node} (h : Gains 0 n n') : Fitted owner n { node := n' } :=
    fitted_bare (h.mono (Multiset.zero_le _))
  refine .of_gains (gains_scrolling o n) ?_
  unfold slot
  split
  · exact hbare (gains_clamped o _)
  · split
    · exact hbare (.refl 0 _)
    · split
      · exact hbare (htruncate _)
      · next h =>
        rw [Bool.or_eq_true, not_or, Bool.not_eq_true] at h
        exact .of_gains (htruncate _) (fitted_bounded (Bool.eq_false_iff.2 h.2) direction _ next j)

theorem fitted_slotsFrom (o : Options) (owner : Node) (direction : Axis) (ns : List Node) (j : Journal) :
    List.Forall₂ (Fitted owner) ns (slotsFrom o owner direction ns j).1 := by
  induction ns generalizing j with
  | nil => exact .nil
  | cons n ns ih => exact .cons (fitted_slot o owner direction n ns.head? j) (ih _)

theorem fitted_slots (o : Options) (owner : Node) (ns : List Node) (j : Journal) :
    List.Forall₂ (Fitted owner) ns (slots o owner ns j).1 := by
  unfold slots
  cases owner.direction with
  | none => exact List.forall₂_map_right_iff.2 (List.forall₂_same.2 fun n _ => fitted_bare (.refl _ n))
  | some direction =>
    exact (List.forall₂_map_left_iff.1 (fitted_slotsFrom o owner direction (ns.map (sized o owner direction)) j)).imp
      fun _ _ h => h.of_gains (gains_sized o owner direction _)

/-! ### The walk -/

/-- What is asked of the members of a tree that is to be resolved. -/
structure Frugal (l : Link) (n : Node) : Prop where
  sparing : n.Sparing
  chrome : l = .flow → n.roles.isChrome = false

/-- A node and the tree that it is resolved to. -/
structure Worked (n : Node) (r : Tree) : Prop where
  node : Gains (ownFacets n) n r.node
  tells : r.Tells
  below : ∀ m ∈ r.members, m.Every Compatible

/-- A resolved flow child, before its owner is finished. -/
structure Due (r : Tree) : Prop where
  facets : r.node.facets ≤ owned + {.maxWidth}
  tells : r.Tells
  below : ∀ m ∈ r.members, m.Every Compatible

/-- What a node states that was resolved. -/
theorem Worked.facets_le {m n : Node} {r : Tree} (h : Worked n r) (hm : m.Sparing) {extra : Multiset Facet}
    (hn : Gains extra m n) :
    r.node.facets ≤ owned + (if m.roles.isChrome = true then {.extent .column} else 0) + extra := by
  calc r.node.facets
    _ ≤ n.facets + ownFacets n := h.node.upper
    _ ≤ m.facets + extra + ownFacets n := Multiset.add_le_add_right hn.upper
    _ ≤ m.allowance + extra + ownFacets n := Multiset.add_le_add_right (Multiset.add_le_add_right hm)
    _ = m.allowance + ownFacets m + extra := by rw [ownFacets_of_gains hn, add_right_comm]
    _ ≤ _ := Multiset.add_le_add_right (allowance_ownFacets m)

theorem Worked.due {m n : Node} {r : Tree} (h : Worked n r) (hm : Frugal .flow m) (hn : Gains {.maxWidth} m n) :
    Due r where
  facets := by
    have hle := h.facets_le hm.sparing hn
    rwa [if_neg (by simp [hm.chrome rfl]), add_zero] at hle
  tells := h.tells
  below := h.below

theorem compatible_finish {n : Node} {flow : List Tree} (h : ∀ f ∈ flow, Due f) {j : Journal} :
    ∀ u ∈ (finish n flow j).1.2, u.Every Compatible := by
  intro u hu
  rcases mem_finish hu with ⟨t, ht, ts, hts, rfl⟩ | ⟨s, hs, hd, rfl⟩
  · have hd := h t ht
    have hle : (t.node.pushAll ts).facets ≤ owned + {.maxWidth} + placed :=
      (facets_pushAll_le _ _).trans (add_le_add hd.facets hts)
    exact every_iff.2 ⟨⟨Multiset.nodup_of_le hle (by decide), hd.tells.gains (gains_pushAll _ _) _⟩, hd.below⟩
  · have htells : Tells ⟨s, [], []⟩ := ⟨fun d h => (by rw [hd] at h; cases h), fun h => absurd rfl h⟩
    exact every_iff.2 ⟨⟨Multiset.nodup_of_le hs (by decide), htells⟩, by simp [members]⟩

/-- A text in a wrapper, and the wrapper. -/
theorem due_wrapper {w : Node} (hw : w.facets = 0) (hr : w.hasRole .listWrap = false) {f : Tree} (hf : Due f)
    (j : Journal) : Due ⟨(finish w [f] j).1.1, (finish w [f] j).1.2, []⟩ where
  facets := by
    have hle := (gains_finish w [f] j).upper
    rw [hw, zero_add, ownFacets, if_neg (by simp [hr])] at hle
    exact hle.trans (Multiset.le_add_right _ _)
  tells := tells_finish w [f] j
  below := by
    rw [members, List.append_nil]
    exact compatible_finish (List.forall_mem_singleton.2 hf)

abbrev Working : Settlement := fun t n r => t.Standing Frugal → Worked n r

theorem due_resolveFlow (o : Options) {ts : List Tree}
    (ih : ∀ t ∈ ts, ∀ n, ∀ j : Journal, Working t n (resolve o n t j).1) (ht : ∀ t ∈ ts, Seated Frugal .flow t)
    {ss : List Slot} (hs : List.Forall₂ (Fitted owner) (ts.map node) ss) (j : Journal) :
    ∀ f ∈ (resolveFlow o ss ts j).1, Due f := by
  induction ts generalizing ss j with
  | nil =>
    cases hs
    rw [show resolveFlow o [] [] j = ([], j) from rfl]
    simp
  | cons t ts ihs =>
    have ihs := @ihs (fun u hu => ih u (List.mem_cons_of_mem _ hu)) fun u hu => ht u (List.mem_cons_of_mem _ hu)
    have iht := ih t List.mem_cons_self
    have ht := ht t List.mem_cons_self
    have hslack : slotFacets owner ≤ {.maxWidth} := by
      unfold slotFacets
      split
      · exact Multiset.zero_le _
      · exact le_rfl
    rw [List.map_cons] at hs
    obtain ⟨⟨n, wrapper⟩, ss, hslot, hss, rfl⟩ := List.forall₂_cons_left_iff.1 hs
    have hn : Gains {.maxWidth} t.node n := hslot.node.mono hslack
    cases wrapper with
    | none =>
      exact List.forall_mem_cons.2 ⟨(iht n j ht.below).due ht.node hn, ihs hss (resolve o n t j).2⟩
    | some w =>
      obtain ⟨index, box, rfl⟩ := hslot.wrapper w rfl
      obtain ⟨n', -, -, hslots⟩ := slots_wrapper o (wrapper_overflowWrapper owner index box) n j
      have hinner := fitted_slots o (overflowWrapper owner index box) [n] j
      rw [hslots] at hinner
      obtain ⟨hn', -⟩ := List.forall₂_cons.1 hinner
      have hn' : Gains {.maxWidth} t.node n' := (hn.trans hn'.node).mono (add_zero _).le
      rw [run_resolveFlow_wrapped hslots]
      exact List.forall_mem_cons.2 ⟨due_wrapper rfl rfl ((iht n' j ht.below).due ht.node hn') _, ihs hss _⟩

theorem gains_pinPrepared (owner : Box) (n : Node) : Gains 0 n (pinPrepared owner n) := by
  have hfill (n : Node) (axis : Axis) : Gains 0 n (fillPinned owner n axis) := by
    unfold fillPinned
    split
    · exact .refl 0 n
    · exact gains_setSizing n axis _
  exact (hfill n .row).trans (hfill _ .column)

/-- What is placed on an owner states its extents besides, chrome does not. -/
theorem compatible_pinning {owner : Box} {t r : Tree} (h : Pinning Working owner t r)
    (ht : Seated Frugal .attached t) : r.Every Compatible := by
  cases h with
  | chrome hc h =>
    have hr := h ht.below
    have hle := hr.facets_le ht.node.sparing (.refl 0 _)
    rw [if_pos hc] at hle
    exact every_iff.2 ⟨⟨Multiset.nodup_of_le hle (by decide), hr.tells⟩, hr.below⟩
  | @pinned r hc h =>
    have hr := h ht.below
    have hle := hr.facets_le ht.node.sparing (gains_pinPrepared owner t.node)
    rw [if_neg (by simp [hc])] at hle
    have hle : (Resolve.pinned owner r.node).facets ≤ owned + 0 + 0 + {.extent .row, .extent .column} :=
      (facets_pushAll_le _ _).trans (add_le_add hle (readAll_positionTokens owner r.node))
    exact every_iff.2 ⟨⟨Multiset.nodup_of_le hle (by decide), hr.tells.gains (gains_pushAll _ _) _⟩, hr.below⟩

theorem gains_containing (n : Node) (attached : List Tree) : Gains 0 n (containing n attached) := by
  unfold containing
  split
  · exact gains_neutral n (by decide +kernel)
  · exact .refl 0 n

theorem worked_resolve (o : Options) (t : Tree) : ∀ n, ∀ j : Journal, Working t n (resolve o n t j).1 := by
  induction t using induction_members with
  | _ t ih =>
    intro n j ht
    obtain ⟨m, flow, attached⟩ := t
    have hflow := due_resolveFlow o (fun t ht => ih t (List.mem_append_left _ ht)) ht.flow
      (fitted_slots o n (flow.map node) j) (slots o n (flow.map node) j).2
    rw [run_resolve]
    dsimp only
    generalize resolveFlow o (slots o n (flow.map node) j).1 flow (slots o n (flow.map node) j).2 = rs at hflow ⊢
    refine ⟨((gains_finish n rs.1 rs.2).trans (gains_containing _ attached)).mono (add_zero _).le,
      (tells_finish n rs.1 rs.2).gains (gains_containing _ attached) _, fun u hu => ?_⟩
    rcases List.mem_append.1 hu with hu | hu
    · exact compatible_finish hflow u hu
    · obtain ⟨v, hv, hp⟩ := exists_of_mem_right
        (pinnings_resolveAttached o _ (fun t ht => ih t (List.mem_append_right _ ht)) _) hu
      exact compatible_pinning hp (ht.attached v hv)

/-- What the whole tree is resolved to. -/
theorem compatible_tree (o : Options) {t : Tree} (hroot : t.node.Sparing) (ht : t.Standing Frugal) (j : Journal) :
    (tree o t j).1.Every Compatible := by
  have hr := worked_resolve o t t.node j ht
  have hle := hr.facets_le hroot (.refl 0 _)
  refine every_iff.2 ⟨⟨Multiset.nodup_of_le hle ?_, hr.tells⟩, hr.below⟩
  split <;> decide

end Resolve

end FlexRecovery
