import FlexRecovery.Proofs.Compatible
import FlexRecovery.Proofs.Faults
import FlexRecovery.Proofs.Texts

/-!
A layout states nothing twice: no node that is reached from the page, and no span in a text, has two tokens of one
facet, and every owner of flow children has one for its direction, and unless it wraps one for each placement.
-/

namespace FlexRecovery

open Node FlexRecovery.Tree Facet

/-! ### Spans -/

/-- The spans in the text of a node state nothing, and have no spans themselves. -/
def Node.Mute (n : Node) : Prop :=
  ∀ ns, n.text = some (.spans ns) → ∀ m ∈ ns, m.facets = 0 ∧ ∃ s, m.text = some (.literal s)

theorem Node.Mute.of_text {n n' : Node} (h : n.Mute) (ht : n'.text = n.text) : n'.Mute := by
  unfold Mute
  rw [ht]
  exact h

theorem Node.mute_of_none {n : Node} (h : n.text = none) : n.Mute := fun ns hs => by rw [h] at hs; cases hs

namespace Draft

open Journaled

theorem facets_span (t : LayerTraits) (box : Box) (opacity : Float32) (r : TextRun) :
    Gives (fun m => m.facets = 0 ∧ ∃ s, m.text = some (.literal s)) (span t box opacity r) := by
  refine .bind (P := fun _ => True) (fun _ => trivial) fun index _ =>
    (drawn_run r opacity (some t.id)).bind fun ts hts => gives_pure ⟨?_, _, rfl⟩
  have hle := facets_pushAll_le { index, tag := .span, box } ts
  rw [readAll_drawn hts, add_zero] at hle
  exact Multiset.le_zero.1 hle

theorem mute_text (t : LayerTraits) (rs : List TextRun) (box : Box) (opacity : Float32) :
    Gives Mute (text t rs box opacity) := by
  rw [text_eq]
  refine .bind (P := fun _ => True) (fun _ => trivial) fun n _ => .bind (P := Mute) ?_ fun n hn => gives_pure ?_
  · unfold worded
    split
    · exact gives_pure fun ns h => by cases h
    · exact .bind (P := fun _ => True) (fun _ => trivial) fun _ _ => gives_pure fun ns h => by cases h
    · refine (gives_mapM fun r _ => facets_span t box opacity r).bind fun ns hns => gives_pure fun ns' h => ?_
      obtain rfl : ns = ns' := by simpa using h
      exact hns
  · unfold lined
    split <;> exact hn.of_text rfl

theorem drawing_mute : Drawing fun _ => Mute where
  node := by
    intro cv onPage t box opacity
    have hnone {x : Journaled Node} (h : Gives (·.text = none) x) :
        Gives (fun n => n.Mute ∧ (isChrome onPage t = false → n.Mute)) x :=
      fun j => ⟨mute_of_none (h j), fun _ => mute_of_none (h j)⟩
    unfold Draft.node
    split
    · exact hnone fun _ => rfl
    · split
      · exact fun j => ⟨mute_text t _ box opacity j, fun _ => mute_text t _ box opacity j⟩
      · exact hnone fun _ => rfl
      · unfold slice
        cases t.bitmap <;> exact hnone fun _ => rfl
      · exact hnone fun _ => rfl
  marked := fun _ _ _ hm h => h.of_text hm.kept.1.text

end Draft

namespace Ledger

variable {R : Node → Node → Prop} {a b : Ledger}

/-- A step keeps texts as they are, and makes none. -/
theorem Step.mute (hr : ∀ n n', R n n' → Later n n') (h : Step R a b) (ha : ∀ n ∈ a.live, n.Mute) :
    ∀ n ∈ b.live, n.Mute := by
  cases h with
  | change h l g k =>
    obtain ⟨hn, hl⟩ := Multiset.forall_mem_cons.1 ha
    exact Multiset.forall_mem_cons.2 ⟨hn.of_text (hr _ _ h).text, hl⟩
  | fold hl hu hb l g k =>
    obtain ⟨hn, hl⟩ := Multiset.forall_mem_cons.1 ha
    exact Multiset.forall_mem_cons.2 ⟨hn.of_text (text_absorb _ _), (Multiset.forall_mem_cons.1 hl).2⟩
  | lift h l g k => exact (Multiset.forall_mem_cons.1 ha).2
  | make h l g => exact Multiset.forall_mem_cons.2 ⟨mute_of_none h.text, ha⟩

theorem Steps.mute (hr : ∀ n n', R n n' → Later n n') (h : Steps R a b) (ha : ∀ n ∈ a.live, n.Mute) :
    ∀ n ∈ b.live, n.Mute := by
  induction h with
  | refl => exact ha
  | tail _ hs ih => exact hs.mute hr ih

end Ledger

namespace Tree

/-- A node of the tree, or a span in the text of one. -/
inductive Shows (t : Tree) : Node → Prop where
  | node {n : Node} (h : n ∈ t.nodes) : Shows t n
  | span {n : Node} {ns : List Node} {m : Node} (h : Shows t n) (hs : n.text = some (.spans ns)) (hm : m ∈ ns) :
      Shows t m

/-- Spans have no spans. -/
theorem Shows.node_or {t : Tree} (hmute : ∀ n ∈ t.nodes, n.Mute) {n : Node} (h : t.Shows n) :
    n ∈ t.nodes ∨ n.facets = 0 ∧ ∃ s, n.text = some (.literal s) := by
  induction h with
  | node h => exact .inl h
  | span h hs hm ih =>
    rcases ih with hn | ⟨-, s, ht⟩
    · exact .inr (hmute _ hn _ hs _ hm)
    · rw [hs] at ht
      cases ht

variable {P : Node → Prop} {Q Q' : Link → Node → Prop} {t : Tree}

theorem Standing.every (hroot : P t.node) (h : t.Standing fun _ => P) : t.Every fun s => P s.node := by
  induction t using induction_members with
  | _ t ih =>
    refine every_iff.2 ⟨hroot, fun m hm => ?_⟩
    have hs : Seated (fun _ => P) .flow m := by
      rcases List.mem_append.1 hm with hf | ha
      · exact h.flow m hf
      · exact ⟨(h.attached m ha).node, (h.attached m ha).below⟩
    exact ih m hm hs.node hs.below

end Tree

namespace Recovery

variable (o : Options) (d : Document)

theorem mute_drafted : ∀ n ∈ (drafted o d).1.census, n.Mute := by
  intro n hn
  obtain ⟨s, hs, rfl⟩ := mem_census.1 hn
  exact Standing.every (mute_of_none rfl) (Draft.drawing_mute.ofPage o d {}) s hs

theorem mute_staged : ∀ n ∈ (staged o d).nodes, n.Mute := by
  obtain ⟨g, c, hs⟩ := steps_staged o d
  exact fun n hn => Ledger.Steps.mute (fun _ _ h => h) hs (mute_drafted o d) n (Multiset.mem_coe.2 hn)

/-! ### Nodes -/

theorem frugal_regrouped : (regrouped o d).1.Standing Resolve.Frugal := by
  intro s hs
  obtain ⟨hf, ha⟩ := (posed_regrouped o d).1 s hs
  have hsparing {m : Tree} (hm : m ∈ s.members) : m.node.Sparing :=
    sparing_regrouped o d m (mem_subtrees_of_mem_members hm hs)
  exact ⟨fun m hm => ⟨hsparing (List.mem_append_left _ hm), (hf m hm).chrome⟩,
    fun m hm => ⟨hsparing (List.mem_append_right _ hm), nofun⟩⟩

theorem compatible_resolved : (resolved o d).1.Every Compatible :=
  Resolve.compatible_tree o (sparing_regrouped o d _ (self_mem_subtrees _)) (frugal_regrouped o d) _

variable {o d} {r : Recovery}

theorem staged_of_resolved (hs : o.stage = .resolved) : staged o d = (resolved o d).1 := by rw [staged, hs]

/-- A layout that was not refused has directions wherever it has flow children. -/
theorem directed_of_ok (hs : o.stage = .resolved) (h : ofDocument o d = .ok r) :
    ∀ s ∈ (resolved o d).1.subtrees, s.flow ≠ [] → s.node.direction.isSome = true := by
  obtain ⟨-, h⟩ := passes_of_ok h
  unfold complete at h
  simp only [Options.reaches, hs, Stage.rank] at h
  obtain ⟨-, h⟩ := passes_of_ok h
  obtain ⟨hfault, -⟩ := passes_of_ok h
  intro s hmem
  exact (Regroup.directionFault?_eq_none.1 ((Regroup.structureFault?_eq_none.1 hfault).1 s hmem)).2

/-- In a layout no node states a facet twice. Every owner of flow children states its own direction, and unless it is a
wrapping list, where it puts them along it and across it. -/
theorem unambiguous_throughout (hs : o.stage = .resolved) (h : ofDocument o d = .ok r) :
    (∀ n, r.tree.Shows n → ∀ f : Facet, n.classes.toList.countP f.covers ≤ 1) ∧
    ∀ s ∈ r.tree.subtrees, s.flow ≠ [] → s.node.hasRole .listWrap = false →
      (∃ direction, s.node.direction = some direction ∧ Resolve.directionToken direction ∈ s.node.classes.toList) ∧
      ∀ f ∈ [Facet.direction, .items, .justify], s.node.classes.toList.countP f.covers = 1 := by
  have htree : r.tree = (resolved o d).1 := (tree_of_ok h).trans (staged_of_resolved hs)
  have hmute : ∀ n ∈ r.tree.nodes, n.Mute := by
    rw [tree_of_ok h]
    exact mute_staged o d
  have hall := compatible_resolved o d
  have hdir := directed_of_ok hs h
  rw [← htree] at hall hdir
  have once {n : Node} (hn : n ∈ r.tree.nodes) (f : Facet) : n.facets.count f ≤ 1 := by
    obtain ⟨s, hmem, rfl⟩ := List.mem_map.1 hn
    exact Multiset.nodup_iff_count_le_one.1 (hall s hmem).once f
  refine ⟨fun n hn f => ?_, fun s hmem hne hw => ?_⟩
  · rw [countP_covers]
    rcases hn.node_or hmute with hn | ⟨hn, -⟩
    · exact once hn f
    · rw [← facets, hn, Multiset.count_zero]
      exact Nat.zero_le 1
  · obtain ⟨direction, hd⟩ := Option.isSome_iff_exists.1 (hdir s hmem hne)
    have htells := (hall s hmem).tells
    have htoken := htells.direction direction hd
    obtain ⟨hitems, hjustify⟩ := htells.placement hne (hdir s hmem hne) hw
    have hstated : ∀ f ∈ [Facet.direction, .items, .justify], f ∈ s.node.facets := by
      simp only [List.forall_mem_cons, List.not_mem_nil, false_implies, implies_true, and_true]
      exact ⟨mem_facets htoken (Resolve.read_direction direction), hitems, hjustify⟩
    refine ⟨⟨direction, hd, htoken⟩, fun f hf => ?_⟩
    rw [countP_covers]
    exact le_antisymm (once (List.mem_map_of_mem hmem) f) (Multiset.one_le_count_iff_mem.2 (hstated f hf))

theorem unambiguous_throughout_heading : ∃ r, ofDocument {} heading = .ok r ∧
    (∀ n, r.tree.Shows n → ∀ f : Facet, n.classes.toList.countP f.covers ≤ 1) ∧
    ∃ s ∈ r.tree.subtrees, ∀ f ∈ [Facet.direction, .items, .justify], s.node.classes.toList.countP f.covers = 1 := by
  have howner : ((ofDocument {} heading).toOption.any fun r => r.tree.subtrees.any fun s =>
      !s.flow.isEmpty && !s.node.hasRole .listWrap) = true := by decide +kernel
  cases h : ofDocument {} heading with
  | error e =>
    rw [h] at howner
    cases howner
  | ok r =>
    rw [h] at howner
    obtain ⟨s, hs, hc⟩ := List.any_eq_true.1 howner
    rw [Bool.and_eq_true, Bool.not_eq_true', Bool.not_eq_true', List.isEmpty_eq_false_iff] at hc
    obtain ⟨hall, howners⟩ := unambiguous_throughout rfl h
    exact ⟨r, rfl, hall, s, hs, (howners s hs hc.1 hc.2).2⟩

end Recovery

end FlexRecovery
