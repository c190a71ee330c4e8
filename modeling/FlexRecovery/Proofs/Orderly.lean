import FlexRecovery.Proofs.Facets
import FlexRecovery.Proofs.Items
import FlexRecovery.Proofs.Plots
import FlexRecovery.Proofs.Ready

/-!
What a node may state before it is resolved: a wrapping list the spaces between its items, chrome its height, and nothing
else. Two wrapping lists never become one node, so none states a space twice.
-/

namespace FlexRecovery

open Node Tree

theorem Box.Around.solid {b : Box} {bs : List Box} (h : b.Around bs) (hbs : ∀ c ∈ bs, c.Solid) : b.Solid := by
  obtain ⟨c, hc, -⟩ := h.exists_start .row
  have hsolid := hbs c hc
  have hw := hsolid.width
  have hh := hsolid.height
  have hf := frames_edges.1 (h.frames c hc)
  simp only [Box.right, Box.bottom] at hf
  exact ⟨by omega, by omega⟩

namespace Node

/-- What a node states before it is resolved. -/
def allowance (n : Node) : Multiset Facet :=
  (if n.hasRole .listWrap = true then {.gap .row, .gap .column} else 0) +
    if n.roles.isChrome = true then {.extent .column} else 0

def Sparing (n : Node) : Prop := n.facets ≤ n.allowance

variable {n n' : Node}

theorem allowance_of_roles (hw : n'.hasRole .listWrap = n.hasRole .listWrap) (hc : n'.roles.isChrome = n.roles.isChrome) :
    n'.allowance = n.allowance := by
  rw [allowance, hw, hc]
  rfl

theorem Sparing.mono (h : n.Sparing) (hf : n'.facets ≤ n.facets) (hw : n'.hasRole .listWrap = n.hasRole .listWrap)
    (hc : n'.roles.isChrome = n.roles.isChrome) : n'.Sparing :=
  hf.trans (h.trans_eq (allowance_of_roles hw hc).symm)

theorem Sparing.of_eq (h : n.Sparing) (hf : n'.classes = n.classes) (hr : n'.roles = n.roles) : n'.Sparing :=
  h.mono (facets_of_classes hf).le (by rw [hasRole, hr, ← hasRole]) (by rw [hr])

theorem Sparing.addMark (h : n.Sparing) {r : Role} (hr : r.isMark = true) : (n.addRole r).Sparing :=
  h.mono le_rfl (hasRole_addMark n hr rfl) (marked_addRole n hr).chrome

theorem Sparing.promoted (h : n.Sparing) : n.promoted.Sparing :=
  h.mono (facets_promoted_le n) (by rw [hasRole, roles_promoted, ← hasRole]) (by rw [roles_promoted])

/-- Of two nodes that become one, at most one is a wrapping list. -/
theorem Sparing.absorb {lower upper : Node} (h : lower.Sparing) (h' : upper.Sparing)
    (hw : lower.hasRole .listWrap = true → upper.hasRole .listWrap = false) (hc : upper.roles.isChrome = false) :
    (lower.absorb upper).Sparing := by
  have hle : (lower.absorb upper).facets ≤ lower.allowance + upper.allowance :=
    (facets_absorb_le lower upper).trans (add_le_add h h')
  refine hle.trans (le_of_eq ?_)
  rw [allowance, allowance, allowance, hasRole_absorb _ _ (by simp), isChrome_absorb, hc]
  cases hl : lower.hasRole .listWrap with
  | true => simp [hw hl]
  | false => simp [add_comm]

end Node

namespace Regroup

open Facet

theorem Container.sparing {roles : List Role} {n : Node} {k : Nat} (h : Container roles n k) : n.Sparing := by
  rcases h.tokens with hc | ⟨hr, across, along, hc⟩
  · rw [Sparing, facets, hc]
    exact Multiset.zero_le _
  · have hrow : read ("gap-x-" ++ px across) = some (.gap .row) := read_of_opens (Opens.append (by decide) _)
    have hcolumn : read ("gap-y-" ++ px along) = some (.gap .column) := read_of_opens (Opens.append (by decide) _)
    have hwrap : read "flex-wrap" = none := by decide +kernel
    have hgrid : n.hasRole .listWrap = true := by
      rw [hasRole_of_roles hr]
      rfl
    rw [Sparing, facets, hc, allowance, if_pos hgrid]
    refine (Classes.readAll_pushAll_le _ _).trans (le_trans (le_of_eq ?_) (Multiset.le_add_right _ _))
    rw [readAll_cons_none hwrap, readAll_cons_some hrow, readAll_cons_some hcolumn]
    rfl

theorem not_isGrid {t : Tree} (h : t.node.roles.isList = false) : ¬IsGrid t := fun hg => by
  have hl : t.node.roles.isList = true := isList_iff.2 ⟨.listWrap, hasRole_iff.1 hg, rfl⟩
  rw [h] at hl
  cases hl

/-- A flow child before it is regrouped: a list, or an owner without grids. -/
structure Plain (c : Tree) : Prop where
  solid : c.box.Solid
  chrome : c.node.roles.isChrome = false
  kind : c.node.roles.isList = true ∧ c.node.isContent = false ∨ isPreset c.node = false ∧ ∀ m ∈ c.flow, ¬IsGrid m

/-- The flow children of an owner that is still to be regrouped. -/
structure Assorted (s : Tree) : Prop where
  plain : ∀ c ∈ s.flow, Plain c
  foldable : Foldable s.flow
  framed : (∃ g ∈ s.flow, IsGrid g) → ∀ c ∈ s.flow, s.box.Frames c.box

structure Orderly (s : Tree) : Prop where
  sparing : s.node.Sparing
  assorted : isPreset s.node = false → Assorted s

/-- A flow child, and all that lies below it. -/
structure Proper (c : Tree) : Prop where
  plain : Plain c
  below : c.Every Orderly

/-- An owner in the middle of being regrouped. -/
structure Underway (t : Tree) : Prop where
  sparing : t.node.Sparing
  flow : ∀ c ∈ t.flow, Proper c
  attached : ∀ a ∈ t.attached, a.Every Orderly

variable {x y t : Tree} {ts us : List Tree}

theorem Sturdy.mono {b : Box} (h : Sturdy ts b) (hu : us ⊆ ts) : Sturdy us b :=
  ⟨h.height, fun x hx => h.outside x (hu hx), fun hw x hx => h.clear hw x (hu hx)⟩

theorem Unmixed.mono (h : Unmixed ts x y) (hu : us ⊆ ts) : Unmixed us x y :=
  ⟨fun c hc => h.differ c (hu hc), fun c hc c' hc' => h.separate c (hu hc) c' (hu hc')⟩

theorem Foldable.subperm (h : Foldable ts) (hu : us.Subperm ts) : Foldable us := by
  have hsub := hu.subset
  obtain ⟨vs, hp, hs⟩ := hu
  refine ⟨fun o ho hg c hc hb => (h.sturdy o (hsub ho) hg c (hsub hc) hb).mono hsub, ?_⟩
  have hpair := (h.unmixed.imp (S := fun x y => IsGrid x → IsGrid y → Unmixed us x y)
    fun hm hg hg' => (hm hg hg').mono hsub).sublist hs
  exact (hp.pairwise_iff fun hm hg hg' => (hm hg' hg).symm).1 hpair

theorem foldable_of_not_isGrid (h : ∀ t ∈ ts, ¬IsGrid t) : Foldable ts :=
  ⟨fun o ho hg => absurd hg (h o ho), List.Pairwise.imp_of_mem (R := fun _ _ => True)
    (fun ha _ _ hg => absurd hg (h _ ha)) (List.pairwise_of_forall fun _ _ => trivial)⟩

theorem assorted_of_not_isGrid {s : Tree} (hp : ∀ c ∈ s.flow, Plain c) (h : ∀ c ∈ s.flow, ¬IsGrid c) : Assorted s :=
  ⟨hp, foldable_of_not_isGrid h, fun ⟨g, hg, hgrid⟩ => absurd hgrid (h g hg)⟩

theorem Plain.of_not_list {c : Tree} (h : Plain c) (hl : c.node.roles.isList = false) :
    isPreset c.node = false ∧ ∀ m ∈ c.flow, ¬IsGrid m :=
  h.kind.resolve_left fun hk => by
    rw [hl] at hk
    cases hk.1

theorem Proper.members {c : Tree} (h : Proper c) : ∀ m ∈ c.members, m.Every Orderly := (every_iff.1 h.below).2

theorem Proper.orderly {c : Tree} (h : Proper c) : Orderly c := (every_iff.1 h.below).1

/-- The flow children of a child that is no list are proper as well, and there are no grids among them. -/
theorem Proper.flow {c : Tree} (h : Proper c) (hl : c.node.roles.isList = false) : ∀ m ∈ c.flow, Proper m ∧ ¬IsGrid m := by
  obtain ⟨hp, hg⟩ := h.plain.of_not_list hl
  exact fun m hm => ⟨⟨(h.orderly.assorted hp).plain m hm, h.members m (List.mem_append_left _ hm)⟩, hg m hm⟩

/-- Another node in place of the root, of the same kind. -/
theorem Proper.rooted {n : Node} (h : Proper x) (hb : n.box = x.box) (hs : n.Sparing)
    (hc : n.roles.isChrome = x.node.roles.isChrome) (hl : n.roles.isList = x.node.roles.isList)
    (hp : isPreset n = isPreset x.node) (ht : n.isContent = true → x.node.isContent = true) :
    Proper ⟨n, x.flow, x.attached⟩ := by
  refine ⟨⟨?_, hc.trans h.plain.chrome, ?_⟩, every_iff.2 ⟨⟨hs, fun hn => ?_⟩, h.members⟩⟩
  · change n.box.Solid
    rw [hb]
    exact h.plain.solid
  · change n.roles.isList = true ∧ n.isContent = false ∨ isPreset n = false ∧ _
    rw [hl, hp]
    refine h.plain.kind.imp_left (And.imp_right fun hx => Bool.eq_false_iff.2 fun hn => ?_)
    rw [ht hn] at hx
    cases hx
  · have ha := h.orderly.assorted (hp.symm.trans hn)
    refine ⟨ha.plain, ha.foldable, fun hg c hmem => ?_⟩
    change n.box.Frames c.box
    rw [hb]
    exact ha.framed hg c hmem

theorem Proper.addMark (h : Proper x) {r : Role} (hr : r.isMark = true) : Proper (x.mapNode (·.addRole r)) := by
  have hm := marked_addRole x.node hr
  exact h.rooted rfl (h.orderly.sparing.addMark hr) hm.chrome hm.list (isPreset_of_alike hm.toAlike) id

theorem Proper.hosting (h : Proper x) : Proper (hosting x) := by
  unfold Regroup.hosting
  split
  · next hi =>
    refine h.rooted (kept_promoted hi).2 h.orderly.sparing.promoted ?_ ?_ ?_ ?_
    · rw [roles_promoted]
    · rw [roles_promoted]
    · rw [isPreset, hasRole, roles_promoted, ← hasRole, ← isPreset]
    · intro hc
      simp [isContent] at hc
  · exact h

theorem roles_hosting (x : Tree) : (hosting x).node.roles = x.node.roles := by
  unfold hosting
  split
  · exact roles_promoted _
  · rfl

/-- Only a list takes grids in. -/
theorem Proper.addFlow (h : Proper x) (hts : ∀ u ∈ ts, Proper u ∧ (x.node.roles.isList = false → ¬IsGrid u)) :
    Proper (x.addFlow ts) := by
  have hgrid (hl : x.node.roles.isList = false) : ∀ u ∈ x.flow ++ ts, ¬IsGrid u :=
    List.forall_mem_append.2 ⟨fun u hu => (h.flow hl u hu).2, fun u hu => (hts u hu).2 hl⟩
  refine ⟨⟨h.plain.solid, h.plain.chrome, ?_⟩, every_iff.2 ⟨⟨h.orderly.sparing, fun hp => ?_⟩, fun m hm => ?_⟩⟩
  · cases hl : x.node.roles.isList with
    | true => exact .inl (h.plain.kind.resolve_right fun hk => by
        have := (isPreset_iff.1 hk.1).1
        rw [hl] at this
        cases this)
    | false => exact .inr ⟨(h.plain.of_not_list hl).1, hgrid hl⟩
  · have hl : x.node.roles.isList = false := (isPreset_iff.1 hp).1
    refine assorted_of_not_isGrid (List.forall_mem_append.2 ⟨fun u hu => (h.flow hl u hu).1.plain, fun u hu => ?_⟩)
      (hgrid hl)
    exact (hts u hu).1.plain
  · simp only [Tree.members, Tree.addFlow, List.mem_append] at hm
    rcases hm with (hm | hm) | hm
    · exact h.members m (List.mem_append_left _ hm)
    · exact (hts m hm).1.below
    · exact h.members m (List.mem_append_right _ hm)

theorem Proper.addAttached (h : Proper x) (hts : ∀ u ∈ ts, u.Every Orderly) : Proper (x.addAttached ts) := by
  refine ⟨⟨h.plain.solid, h.plain.chrome, h.plain.kind⟩, every_iff.2 ⟨⟨h.orderly.sparing, fun hp => ?_⟩, fun m hm => ?_⟩⟩
  · have ha := h.orderly.assorted hp
    exact ⟨ha.plain, ha.foldable, ha.framed⟩
  · simp only [Tree.members, Tree.addAttached, List.mem_append] at hm
    rcases hm with hm | hm | hm
    · exact h.members m (List.mem_append_left _ hm)
    · exact h.members m (List.mem_append_right _ hm)
    · exact hts m hm

/-- Two containers that become one, if they are not both grids. -/
theorem Proper.fused (hx : Proper x) (hy : Proper y) (hxc : x.node.isContent = false) (hg : IsGrid x → ¬IsGrid y) :
    Proper (fused x y) := by
  have hl {P : Prop} (h : (x.node.absorb y.node).roles.isList = false) (hp : x.node.roles.isList = false →
      y.node.roles.isList = false → P) : P := by
    rw [isList_absorb, Bool.or_eq_false_iff] at h
    exact hp h.1 h.2
  have hflow (hx' : x.node.roles.isList = false) (hy' : y.node.roles.isList = false) :
      ∀ u ∈ x.flow ++ y.flow, Proper u ∧ ¬IsGrid u := List.forall_mem_append.2 ⟨hx.flow hx', hy.flow hy'⟩
  refine ⟨⟨?_, ?_, ?_⟩, every_iff.2 ⟨⟨?_, fun hp => ?_⟩, fun m hm => ?_⟩⟩
  · change (x.node.absorb y.node).box.Solid
    rw [box_absorb]
    exact hx.plain.solid
  · change (x.node.absorb y.node).roles.isChrome = false
    rw [isChrome_absorb, hx.plain.chrome, hy.plain.chrome]
    rfl
  · change (x.node.absorb y.node).roles.isList = true ∧ (x.node.absorb y.node).isContent = false ∨
      isPreset (x.node.absorb y.node) = false ∧ _
    cases h : (x.node.absorb y.node).roles.isList with
    | true => exact .inl ⟨rfl, by rw [isContent_absorb]; exact hxc⟩
    | false =>
      refine .inr (hl h fun hx' hy' => ⟨isPreset_iff.2 ⟨h, ?_⟩, fun u hu => (hflow hx' hy' u hu).2⟩)
      exact row_absorb (isPreset_iff.1 (hx.plain.of_not_list hx').1).2 (isPreset_iff.1 (hy.plain.of_not_list hy').1).2
  · exact hx.orderly.sparing.absorb hy.orderly.sparing (fun h => Bool.eq_false_iff.2 (hg h)) hy.plain.chrome
  · refine hl (isPreset_iff.1 hp).1 fun hx' hy' => ?_
    exact assorted_of_not_isGrid (fun u hu => (hflow hx' hy' u hu).1.plain) fun u hu => (hflow hx' hy' u hu).2
  · exact (mem_members_fused hm).elim (hx.members m) (hy.members m)

/-- A new container around some flow children. -/
theorem Container.orderly {roles : List Role} {n : Node} {k : Nat} (h : Container roles n k)
    (hb : n.box.Around (ts.map Tree.box)) (hts : ∀ t ∈ ts, Proper t) (hf : Foldable ts) : Every Orderly ⟨n, ts, []⟩ := by
  refine every_iff.2 ⟨⟨h.sparing, fun _ => ⟨fun c hc => (hts c hc).plain, hf, fun _ c hc => ?_⟩⟩, fun m hm => ?_⟩
  · exact hb.frames _ (List.mem_map_of_mem hc)
  · rw [Tree.members, List.append_nil] at hm
    exact (hts m hm).below

/-- The items of a list, or the rows of a table. -/
theorem Itemized.orderly {role : Role} {k k' : Nat} (h : Itemized role ts k us k') (hts : ∀ t ∈ ts, Proper t)
    (hf : Foldable ts) : ∀ u ∈ us, u.Every Orderly := by
  induction h with
  | nil => simp
  | single hr _ ih =>
    obtain ⟨ht, hts⟩ := List.forall_mem_cons.1 hts
    exact List.forall_mem_cons.2 ⟨(ht.addMark rfl).below, ih hts (hf.subperm (List.sublist_cons_self _ _).subperm)⟩
  | several hlen hn hb _ ih =>
    obtain ⟨hm, hts⟩ := List.forall_mem_append.1 hts
    exact List.forall_mem_cons.2 ⟨hn.orderly hb hm (hf.subperm (List.sublist_append_left _ _).subperm),
      ih hts (hf.subperm (List.sublist_append_right _ _).subperm)⟩

/-- A list or a table that is made of flow children. -/
theorem Compiled.proper {k k' : Nat} {made : Tree} (h : Compiled ts k made k') (hts : ∀ t ∈ ts, Proper t)
    (hf : Foldable ts) : Proper made := by
  obtain ⟨hl, hx, h, hlen, hm, hb⟩ := h
  have hitems := h.orderly (fun t ht => hts t (hx.mem_iff.2 ht)) (hf.subperm hx.symm.subperm)
  have hlist := (isList_of_roles hm.roles).trans hl
  refine ⟨⟨?_, ?_, .inl ⟨hlist, hm.content⟩⟩, every_iff.2 ⟨⟨hm.sparing, fun hp => ?_⟩, fun m hmem => ?_⟩⟩
  · exact hb.solid (List.forall_mem_map.2 fun t ht => (hts t ht).plain.solid)
  · exact hm.chrome
  · rw [isPreset, hlist] at hp
    cases hp
  · rw [Tree.members, List.append_nil] at hmem
    exact hitems m hmem

end Regroup

end FlexRecovery
