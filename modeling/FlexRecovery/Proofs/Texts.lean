import FlexRecovery.Proofs.Stages

/-!
A recovery keeps every text. Texts are moved between owners, wrapped and sized, and what they say is never
touched.
-/

namespace FlexRecovery

open Node Tree Ledger

/-- The same text, with tokens added after its own. -/
structure SameText (n m : Node) : Prop where
  id : m.id = n.id
  index : m.index = n.index
  tag : m.tag = n.tag
  box : m.box = n.box
  style : m.style = n.style
  text : m.text = n.text
  multiLine : m.multiLine = n.multiLine
  lineHeight : m.lineHeight = n.lineHeight
  classes : n.classes.toList <+: m.classes.toList

theorem Node.Later.sameText {n m : Node} (h : n.Later m) (ht : n.isText = true) (hi : n.id.isSome = true) :
    SameText n m := by
  have htag : n.tag = .text := beq_iff_eq.1 ht
  refine ⟨h.id, h.index, ?_, h.box hi, h.style (by simp [htag]), h.text, h.multiLine, h.lineHeight, h.classes⟩
  rcases h.tag with htag' | ⟨himage, -⟩
  · exact htag'
  · rw [htag] at himage
    cases himage

/-- An index that is given once finds one node. -/
theorem filter_index_eq {ns : List Node} (h : (ns.map Node.index).Nodup) {n : Node} (hn : n ∈ ns) :
    ns.filter (·.index == n.index) = [n] := by
  induction ns with
  | nil => cases hn
  | cons m ns ih =>
    obtain ⟨hm, hns⟩ := List.nodup_cons.1 h
    rcases List.mem_cons.1 hn with rfl | hn
    · rw [List.filter_cons_of_pos (by simp)]
      have hnone : ns.filter (·.index == n.index) = [] := by
        refine List.filter_eq_nil_iff.2 fun m hmem hi => hm ?_
        rw [beq_iff_eq] at hi
        exact hi ▸ List.mem_map_of_mem hmem
      rw [hnone]
    · rw [List.filter_cons_of_neg, ih hns hn]
      intro hi
      rw [beq_iff_eq] at hi
      exact hm (hi ▸ List.mem_map_of_mem hn)

namespace Recovery

variable (o : Options) (d : Document)

theorem nodup_staged : ((staged o d).nodes.map Node.index).Nodup := by
  obtain ⟨g, c, hs⟩ := steps_staged o d
  have h := (Steps.balanced (fun _ _ h => h) hs (balanced_opening o d)).nodup
  rw [Multiset.map_add] at h
  exact (Multiset.nodup_add.1 h).1

theorem texts_staged : Multiset.Rel Later (texts (drafted o d).1.census) (texts (staged o d).census) := by
  obtain ⟨g, c, hs⟩ := steps_staged o d
  exact Steps.texts (fun _ _ h => h) hs

theorem mem_texts {t : Tree} {n : Node} : n ∈ texts t.census ↔ n ∈ t.nodes ∧ n.isText = true := Multiset.mem_filter

theorem exists_layer_of_mem {n : Node} (hn : n ∈ (drafted o d).1.nodes) : ∃ t ∈ d.page.inside, Draft.Drafted t n := by
  have hmem : n ∈ censusAll [(drafted o d).1] := mem_censusAll.2 ⟨_, List.mem_singleton_self _, Multiset.mem_coe.2 hn⟩
  obtain ⟨t, ht, h⟩ := (sketch_drafted o d).exists_layer hmem
  exact ⟨t, Multiset.mem_coe.1 ht, h⟩

theorem texts_conserved {o : Options} {d : Document} {r : Recovery} (h : ofDocument o d = .ok r) :
    (∀ n ∈ (drafted o d).1.nodes, n.isText = true →
      (∃ m, r.tree.nodes.filter (·.index == n.index) = [m] ∧ SameText n m) ∧
      ∃ t ∈ d.page.inside, n.id = some t.id ∧ t.kind = .text ∧
        ∃ rs, t.runs = some rs ∧ n.plain = some (String.join (rs.map (·.value)))) ∧
    ∀ m ∈ r.tree.nodes, m.isText = true → ∃ n ∈ (drafted o d).1.nodes, n.isText = true ∧ SameText n m := by
  have hr := texts_staged o d
  have hn := nodup_staged o d
  rw [← tree_of_ok h] at hr hn
  refine ⟨fun n hmem ht => ?_, fun m hmem ht => ?_⟩
  · obtain ⟨t, hlayer, hd⟩ := exists_layer_of_mem o d hmem
    obtain ⟨m, hm, hl⟩ := Multiset.exists_mem_of_rel_of_mem hr (mem_texts.2 ⟨hmem, ht⟩)
    have hsame := hl.sameText ht (by rw [hd.id, Option.isSome_some])
    obtain ⟨hkind, rs, hrs, hp⟩ := hd.text ht
    refine ⟨⟨m, ?_, hsame⟩, t, hlayer, hd.id, hkind, rs, hrs, hp⟩
    rw [← hsame.index]
    exact filter_index_eq hn (mem_texts.1 hm).1
  · obtain ⟨n, hmem', hl⟩ := Multiset.exists_mem_of_rel_of_mem (Multiset.rel_flip.2 hr) (mem_texts.2 ⟨hmem, ht⟩)
    obtain ⟨hnodes, htext⟩ := mem_texts.1 hmem'
    obtain ⟨t, -, hd⟩ := exists_layer_of_mem o d hnodes
    exact ⟨n, hnodes, htext, Later.sameText hl htext (by rw [hd.id, Option.isSome_some])⟩

/-- A heading over a box, its two halves in different fonts. -/
def heading : Document :=
  let run (value : String) (size : Float32) : TextRun :=
    ⟨value, ⟨size, none, none, none, none⟩, .solid ⟨0, 0, 0, 1⟩, none, none⟩
  let layer (name : String) (kind : LayerKind) (left top width height : Float32) (runs : Option (List TextRun)) :
      LayerTraits := ⟨⟨name⟩, kind, none, 1, ⟨left, top, width, height⟩, [], {}, [], runs, none⟩
  ⟨100, 100, ⟨layer "page" .artboard 0 0 100 100 none,
    [⟨layer "box" .shape 0 50 40 40 none, []⟩,
      ⟨layer "heading" .text 0 0 80 20 (some [run "re" 12, run "covered" 14]), []⟩]⟩⟩

theorem texts_conserved_heading : ∃ r, ofDocument {} heading = .ok r ∧
    ∃ n ∈ (drafted {} heading).1.nodes, n.isText = true ∧
      ∃ m, r.tree.nodes.filter (·.index == n.index) = [m] ∧ SameText n m := by
  have hok : (ofDocument {} heading).isOk = true := by decide +kernel
  have htext : (drafted {} heading).1.nodes.any isText = true := by decide +kernel
  cases h : ofDocument {} heading with
  | error e =>
    rw [h] at hok
    cases hok
  | ok r =>
    obtain ⟨n, hn, ht⟩ := List.any_eq_true.1 htext
    exact ⟨r, rfl, n, hn, ht, ((texts_conserved h).1 n hn ht).1⟩

end Recovery

end FlexRecovery
