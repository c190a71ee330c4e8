import FlexRecovery.Proofs.Extents
import FlexRecovery.Proofs.Grounding
import FlexRecovery.Proofs.Thrift

/-!
What the nodes of a document state before they are resolved. Drafting gives a height to chrome and no other facet to any
node, spans included, and regrouping adds the spaces between the items of wrapping lists.
-/

namespace FlexRecovery

open Node Tree Facet

/-- What is asked of nodes before they are regrouped: only chrome states a facet, and flow children are not chrome. -/
structure Node.Terse (l : Link) (n : Node) : Prop where
  facets : n.facets ≤ if n.roles.isChrome = true then {.extent .column} else 0
  chrome : l = .flow → n.roles.isChrome = false

theorem Node.Terse.of_eq {l : Link} {n n' : Node} (h : Terse l n) (hc : n'.classes = n.classes)
    (hr : n'.roles.isChrome = n.roles.isChrome) : Terse l n' := by
  refine ⟨?_, fun hl => hr.trans (h.chrome hl)⟩
  rw [facets_of_classes hc, hr]
  exact h.facets

theorem Node.Terse.sparing {l : Link} {n : Node} (h : Terse l n) : n.Sparing :=
  h.facets.trans (Multiset.le_add_left _ _)

namespace Draft

open Journaled

theorem read_drawn {t : String} (h : IsDrawn t) : read t = none := read_eq_none h (by decide +kernel)

theorem readAll_drawn {ts : List String} (h : ∀ t ∈ ts, IsDrawn t) : readAll ts = 0 :=
  readAll_eq_zero fun t ht => read_drawn (h t ht)

theorem Plain.facets {n : Node} (h : Plain n) : n.facets = 0 := readAll_drawn h.drawn

theorem Plain.terse {n : Node} (h : Plain n) (l : Link) : Terse l n :=
  ⟨h.facets.le.trans (Multiset.zero_le _), fun _ => h.chrome⟩

/-- A header or a safe area states its height. -/
theorem terse_chrome (cv : Canvas) (t : LayerTraits) (box : Box) (opacity : Float32) :
    Gives (Terse .attached) (chrome cv t box opacity) := by
  refine (plain_styled t .view box opacity).bind fun n hn => gives_pure ?_
  have hheight : read ("h-" ++ px box.height) = some (.extent .column) := by
    refine read_of_opens ?_
    rw [px, ← String.append_assoc, ← String.append_assoc]
    exact ((by decide : Opens (starts (.extent .column)) ("h-" ++ "[")).append _).append _
  have hfixed : read "fixed" = none := by decide +kernel
  have hleft : read "left-0" = none := by decide +kernel
  have hfull : read "w-full" = none := by decide +kernel
  have hlevel : read "z-50" = none := by decide +kernel
  have key (isHeader : Bool) : Terse .attached ((n.addRole (if isHeader then .header else .safeArea)).pushAll
      ["fixed", if isHeader then "top-0" else "bottom-0", "left-0", "w-full", "h-" ++ px box.height, "z-50"]) := by
    have hedge : read (if isHeader then "top-0" else "bottom-0") = none := by cases isHeader <;> decide +kernel
    have hchrome : (n.addRole (if isHeader then .header else .safeArea)).roles.isChrome = true := by
      rw [isChrome_addRole]
      cases isHeader <;> exact Bool.or_true _
    refine ⟨(facets_pushAll_le _ _).trans (le_of_eq ?_), nofun⟩
    rw [show (n.addRole (if isHeader then .header else .safeArea)).facets = n.facets from rfl, hn.facets, zero_add,
      readAll_cons_none hfixed, readAll_cons_none hedge, readAll_cons_none hleft, readAll_cons_none hfull,
      readAll_cons_some hheight, readAll_cons_none hlevel, readAll_nil]
    exact (if_pos hchrome).symm
  generalize (close box.left cv.page.left && close box.top cv.page.top) = isHeader
  exact (key isHeader).of_eq rfl rfl

theorem drawing_terse : Drawing Terse where
  node := by
    intro cv onPage t box opacity
    have hplain {x : Journaled Node} (h : Gives Plain x) :
        Gives (fun n => Terse .attached n ∧ (isChrome onPage t = false → Terse .flow n)) x :=
      fun j => ⟨(h j).terse _, fun _ => (h j).terse _⟩
    unfold Draft.node
    split
    · next hc => exact fun j => ⟨terse_chrome cv t box opacity j, fun h => by simp [hc] at h⟩
    · split
      · exact hplain (plain_text t _ box opacity)
      · exact hplain (plain_image t box opacity)
      · exact hplain (plain_slice t box opacity)
      · exact hplain (plain_styled t .view box opacity)
  marked := fun _ _ _ hm h => h.of_eq hm.classes hm.chrome

theorem terse_ofPage (o : Options) (d : Document) (l : Link) : Gives (fun t => Terse l t.node) (ofPage o d) := by
  obtain ⟨width, height, t, children⟩ := d
  refine Gives.bind (P := Terse l) ?_ fun n hn => .bind (P := fun _ => True) (fun _ => trivial) fun _ _ => gives_pure hn
  refine .bind (P := fun _ => True) (fun _ => trivial) fun index _ =>
    (drawn_fillClasses t.fill _ (some t.id)).bind fun fill hfill => gives_pure ⟨?_, fun _ => rfl⟩
  have hbase : readAll ["flex", "w-full", "min-h-screen"] = 0 := by decide +kernel
  refine (Classes.readAll_pushAll_le _ _).trans ?_
  rw [readAll_drawn hfill, add_zero]
  refine (Classes.readAll_pushAll_le _ _).trans ?_
  rw [hbase]
  exact Multiset.zero_le _

end Draft

namespace Stacking

theorem read_level (l : Nat) : read (level l) = none :=
  read_eq_none (((by decide : Opens ["z-["] "z-[").append _).append _) (by decide +kernel)

/-- A token that states nothing. -/
theorem Terse.push {l : Link} {n : Node} (h : Terse l n) {t : String} (ht : read t = none) : Terse l (n.push t) := by
  refine ⟨(facets_push_le n t).trans ?_, h.chrome⟩
  rw [readAll_cons_none ht, readAll_nil, add_zero]
  exact h.facets

theorem stackable_terse : Stackable Terse where
  numbered := by
    intro n l hn
    rcases numbered_or n l with e | e <;> rw [e]
    · exact hn
    · exact Terse.push (Terse.push hn (read_level l)) (by decide +kernel)
  owning := by
    intro l n flow hn
    rcases owning_or n flow with e | e <;> rw [e]
    · exact hn
    · exact Terse.push hn (read_level _)

end Stacking

/-- Before a tree is regrouped there are no lists in it. -/
theorem Regroup.orderly_of_raw {k : Nat} {page : Box} {t : Tree} (hroot : t.node.Sparing) (hterse : t.Standing Terse)
    (honPage : t.Standing (OnPage page)) (hraw : t.Every (Draft.Raw k)) : t.Every Orderly := by
  induction t using induction_members with
  | _ t ih =>
    have hraws := (every_iff.1 hraw).2
    have raw {m : Tree} (hm : m ∈ t.members) : isPreset m.node = false := (every_iff.1 (hraws m hm)).1.preset
    have not_grid {m : Tree} (hm : isPreset m.node = false) : ¬IsGrid m := not_isGrid (isPreset_iff.1 hm).1
    have hgrid : ∀ c ∈ t.flow, ¬IsGrid c := fun c hc => not_grid (raw (List.mem_append_left _ hc))
    refine every_iff.2 ⟨⟨hroot, fun _ => assorted_of_not_isGrid (fun c hc => ?_) hgrid⟩, fun m hm => ?_⟩
    · have hmem : c ∈ t.members := List.mem_append_left _ hc
      have hin := (honPage.flow c hc).node
      exact ⟨⟨hin.width, hin.height⟩, (hterse.flow c hc).node.chrome rfl, .inr ⟨raw hmem, fun m hm =>
        not_grid (every_iff.1 ((every_iff.1 (hraws c hmem)).2 m (List.mem_append_left _ hm))).1.preset⟩⟩
    · rcases List.mem_append.1 hm with h | h
      · exact ih m hm (hterse.flow m h).node.sparing (hterse.flow m h).below (honPage.flow m h).below (hraws m hm)
      · exact ih m hm (hterse.attached m h).node.sparing (hterse.attached m h).below (honPage.attached m h).below
          (hraws m hm)

namespace Recovery

open Regroup

variable (o : Options) (d : Document)

theorem orderly_cleaned : (cleaned o (drafted o d).1).Every Orderly := by
  obtain ⟨hb, he, -⟩ := enclosed_drafted o d
  have honPage : (drafted o d).1.Standing (OnPage (Draft.canvas d)) :=
    standing_of_inside (inside_of_enclosing he (hb ▸ Box.Frames.refl _))
  have hroot := node_cleaned o (fun _ => Stacking.stackable_terse) (Draft.terse_ofPage o d .attached {})
  exact orderly_of_raw hroot.sparing
    (standing_cleaned o (fun _ => Stacking.stackable_terse) (Draft.drawing_terse.ofPage o d {}))
    (standing_cleaned o (fun _ => Stacking.stackable_onPage _) honPage) (raw_cleaned o (raw_drafted o d))

/-- Before a tree is resolved, a node states at most the spaces between its items, if it is a wrapping list, and its
height, if it is chrome. -/
theorem sparing_regrouped : (regrouped o d).1.Every fun s => s.node.Sparing := sparing_within (orderly_cleaned o d)

end Recovery

end FlexRecovery
