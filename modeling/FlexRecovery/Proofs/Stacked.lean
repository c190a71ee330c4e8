import FlexRecovery.Proofs.Loops
import FlexRecovery.Proofs.Spans

/-!
How the children of an owner lie along the axis that is found for it. They stand in the order of their leading
edges and neighbours share no more than the tolerance. So do all others, but for the children after a container made
of a band, if the first of them is no thicker than the tolerance: it may lie within the container, and hide from it
what comes next.
-/

namespace FlexRecovery.Regroup

open Tree Tuning

variable {axis preferred : Axis} {ts : List Tree} {bs : List (List Tree)}

theorem bandTree_box (axis : Axis) (b : List Tree) (j : Journal) : (bandTree axis b j).1.box = hull b := by
  match b with
  | [] => rfl
  | [t] => rfl
  | t :: u :: rest => rfl

theorem map_box_bands (axis : Axis) (bs : List (List Tree)) (j : Journal) :
    (bs.mapM (bandTree axis) j).1.map box = bs.map hull := by
  induction bs generalizing j with
  | nil => rfl
  | cons b bs ih =>
    rw [Journaled.run_mapM_cons, List.map_cons, List.map_cons, ih, bandTree_box]

theorem neighbours_of_areDisjoint (h : areDisjoint axis bs = true) :
    bs.IsChain fun a b => (hull a).overlap (hull b) axis ≤ tolerance := by
  induction bs with
  | nil => exact .nil
  | cons a bs ih =>
    match bs with
    | [] => exact .singleton a
    | b :: bs =>
      simp only [areDisjoint, Bool.and_eq_true, decide_eq_true_eq] at h
      exact .cons_cons h.1 (ih h.2)

/-- A single tree ends before a thin band that starts after it, or it would have taken part of that band in. -/
theorem stop_le_of_led {x : Tree} {b : List Tree} (hb : b ≠ []) (h : Led axis [x] b ∨ Led axis b [x])
    (hs : x.box.start axis ≤ (hull b).start axis) (thin : ((hull b).extent axis : Int) ≤ 1) :
    x.box.stop axis ≤ (hull b).start axis + 1 := by
  have hull := around_hull hb
  have hbs := Box.stop_eq (Tree.hull b) axis
  rcases h with ⟨p, hp, hy⟩ | ⟨p, hp, hx⟩
  · -- the member that the band starts with sticks out of the single tree at the end
    obtain ⟨c, hc, hstart⟩ := hull.exists_start axis
    have hstop := hull.stop_le hc axis
    obtain ⟨y, hmem, rfl⟩ := List.mem_map.1 hc
    have hout := (hy y hmem).2
    rw [List.mem_singleton.1 hp, inBand, Bool.or_eq_false_iff, Bool.eq_false_iff, ne_eq, Box.within_iff] at hout
    change y.box.start axis = _ at hstart
    omega
  · -- the single tree is no longer than the pivot of the band, which is thin itself
    have hlong := (hx x (List.mem_singleton_self x)).1
    have hp := List.mem_map_of_mem (f := box) hp
    have h1 := hull.start_le hp axis
    have h2 := hull.stop_le hp axis
    rw [Box.stop_eq] at h2 ⊢
    change p.box.extent axis ≥ _ at hlong
    omega

/-- A container made of the `i`-th band, the `k`-th one, and between them one within the tolerance. -/
structure Straddles (axis : Axis) (bs : List (List Tree)) (i k : Nat) : Prop where
  beyond : i + 1 < k
  container : ∃ b, bs[i]? = some b ∧ 1 < b.length
  thin : ∃ b, bs[i + 1]? = some b ∧ (hull b).extent axis ≤ tolerance

theorem overlap_le_or_straddles (h : partition? axis ts = some bs) {i k : Nat} (hik : i < k) (hk : k < bs.length) :
    (hull bs[i]).overlap (hull bs[k]) axis ≤ tolerance ∨ Straddles axis bs i k := by
  obtain ⟨hbands, hdisjoint⟩ := partition?_eq_some h
  have sorted : bs.Pairwise fun a b => (hull a).start axis ≤ (hull b).start axis := hbands ▸ pairwise_sortByKey _ _
  have led := hbands ▸ led_bands axis ts
  rw [List.pairwise_iff_getElem] at sorted led
  have next := List.isChain_iff_getElem.1 (neighbours_of_areDisjoint hdisjoint) i (by omega)
  rcases Nat.lt_or_eq_of_le hik with hlt | rfl
  · have hi := sorted i (i + 1) (by omega) (by omega) (by omega)
    have hle := sorted (i + 1) k (by omega) (by omega) hlt
    rw [Box.overlap_le_iff hi] at next
    rw [Box.overlap_le_iff (hi.trans hle)]
    by_cases hstop : (hull bs[i]).stop axis ≤ (hull bs[i + 1]).start axis + 1
    · exact .inl (.inl (by omega))
    · have thin := next.resolve_left hstop
      rw [Box.stop_eq] at thin
      refine .inr ⟨hlt, ⟨bs[i], by simp, ?_⟩, bs[i + 1], by simp, by unfold tolerance; omega⟩
      by_contra hone
      have hmem : ∀ b ∈ bs, b ≠ [] := fun b hb => ne_nil_of_mem_bands (hbands ▸ hb)
      have hone : bs[i].length = 1 := by
        have := List.length_pos_iff.2 (hmem bs[i] (List.getElem_mem _))
        omega
      obtain ⟨x, hx⟩ := List.length_eq_one_iff.1 hone
      have hled := led i (i + 1) (by omega) (by omega) (by omega)
      rw [hx] at hled hi hstop
      exact hstop (stop_le_of_led (hmem _ (List.getElem_mem _)) hled hi (by omega))
  · exact .inl next

theorem two_le_of_chooseAxis (h : chooseAxis preferred ts = some (axis, bs)) : 2 ≤ ts.length := by
  obtain ⟨hbands, hlen⟩ := eq_bands_of_chooseAxis h
  have hl := length_le_flatMap (f := id) fun b hb => List.length_pos_iff.2 (ne_nil_of_mem_bands (hbands ▸ hb : b ∈ bands axis ts))
  rw [List.flatMap_id, hbands, (perm_flatten_bands axis ts).length_eq, ← hbands] at hl
  omega

theorem collapseWrapper_of_length {t : Tree} (h : t.flow.length ≠ 1) : collapseWrapper t = t := by
  unfold collapseWrapper
  split
  · next hf =>
    rw [hf] at h
    exact absurd rfl h
  · rfl

/-- The children of an owner for which an axis is found are its bands along it. -/
theorem makeFlex_of_chosen {t : Tree} {j : Journal} {s : Tree × Journal}
    (hs : Ends (demoteStep (t.node.direction.getD .column)) (t, j) s)
    (h : chooseAxis (t.node.direction.getD .column) s.1.flow = some (axis, bs)) :
    (makeFlex t j).1.node.direction = some axis ∧ (makeFlex t j).1.flow = (bs.mapM (bandTree axis) s.2).1 := by
  have htwo := two_le_of_chooseAxis h
  have hne : t.flow ≠ [] := by
    intro he
    have hlast : demoteStep (t.node.direction.getD .column) (t, j) = none := if_pos (.inl (by simp [he]))
    rw [hs.unique (.here hlast), he] at htwo
    simp at htwo
  have hlen := Journaled.length_mapM (bandTree axis) bs s.2
  have hbs := (eq_bands_of_chooseAxis h).2
  have hlaid : (layOut (t.node.direction.getD .column) 1 s.1 s.2).1 =
      collapseWrapper ⟨{ s.1.node with direction := some axis }, (bs.mapM (bandTree axis) s.2).1, s.1.attached⟩ := by
    rw [layOut, if_neg (by omega), h]
    rfl
  rw [makeFlex_of_ends hne hs, hlaid, collapseWrapper_of_length (by dsimp only; omega)]
  exact ⟨rfl, rfl⟩

/-- All pairs of children share no more than the tolerance along the axis that is found, unless a container made of a
band is followed by a child within the tolerance and that by others. -/
theorem stacked_makeFlex {t : Tree} {j : Journal} {s : Tree × Journal}
    (hs : Ends (demoteStep (t.node.direction.getD .column)) (t, j) s)
    (h : chooseAxis (t.node.direction.getD .column) s.1.flow = some (axis, bs)) :
    let r := (makeFlex t j).1
    r.node.direction = some axis ∧ r.flow.map box = bs.map hull ∧
      (r.flow.Pairwise (fun a b => a.box.overlap b.box axis ≤ tolerance) ↔
        ∀ i k a b, r.flow[i]? = some a → r.flow[k]? = some b → Straddles axis bs i k →
          a.box.overlap b.box axis ≤ tolerance) := by
  intro r
  obtain ⟨hdirection, hflow⟩ := makeFlex_of_chosen hs h
  have hboxes : r.flow.map box = bs.map hull := by
    change (makeFlex t j).1.flow.map box = _
    rw [hflow, map_box_bands]
  have hlen : r.flow.length = bs.length := by simpa using congrArg List.length hboxes
  have hbox (i : Nat) (hi : i < r.flow.length) : r.flow[i].box = hull bs[i] := by
    have := List.getElem_of_eq hboxes (i := i) (by simpa using hi)
    rwa [List.getElem_map, List.getElem_map] at this
  rw [List.pairwise_iff_getElem]
  refine ⟨hdirection, hboxes, fun hall i k a b ha hb hik => ?_, fun hexempt i k hi hk hik => ?_⟩
  · obtain ⟨hi, rfl⟩ := List.getElem?_eq_some_iff.1 ha
    obtain ⟨hk, rfl⟩ := List.getElem?_eq_some_iff.1 hb
    have := hik.beyond
    exact hall i k hi hk (by omega)
  · rcases overlap_le_or_straddles (partition?_of_chooseAxis h).1 hik (hlen ▸ hk) with hle | hstraddles
    · rw [hbox, hbox]
      exact hle
    · exact hexempt i k _ _ (List.getElem?_eq_getElem hi) (List.getElem?_eq_getElem hk) hstraddles

/-- Two boxes side by side, of which the right one hangs lower, a strip under the left one, and a box below. -/
def hanging (strip : Nat) : Tree :=
  sheet [⟨0, 0, 100, 50⟩, ⟨110, 25, 50, 48⟩, ⟨0, 55, 100, strip⟩, ⟨0, 57, 100, 43⟩]

/-- A strip of two pixels keeps the upper boxes from being a band, and the boxes stand in a row. -/
theorem stacked_makeFlex_hanging : ∃ bs, Ends (demoteStep .column) (hanging 2, {}) (hanging 2, {}) ∧
    chooseAxis .column (hanging 2).flow = some (.row, bs) ∧
    (makeFlex (hanging 2) {}).1.flow.Pairwise fun a b => a.box.overlap b.box .row ≤ tolerance := by
  obtain ⟨⟨axis, bs⟩, hc, hrow⟩ : ∃ p, chooseAxis .column (hanging 2).flow = some p ∧ p.1 = .row :=
    Option.map_eq_some_iff.1 (by decide +kernel)
  obtain rfl : axis = .row := hrow
  have hs : Ends (demoteStep .column) (hanging 2, {}) (hanging 2, {}) := .here (if_pos (.inr (by rw [hc]; rfl)))
  obtain ⟨-, hboxes, hstacked⟩ := stacked_makeFlex (t := hanging 2) (j := {}) hs hc
  have htwo : (makeFlex (hanging 2) {}).1.flow.length = 2 := by decide +kernel
  refine ⟨bs, hs, hc, hstacked.2 fun i k a b ha hb hik => ?_⟩
  obtain ⟨hk, -⟩ := List.getElem?_eq_some_iff.1 hb
  have := hik.beyond
  omega

/-- The container around the upper boxes reaches over a strip of one pixel, and sixteen pixels into what comes next. -/
theorem straddled_strip : ¬∀ (t : Tree) (j : Journal) (s : Tree × Journal) (axis : Axis) (bs : List (List Tree)),
    Ends (demoteStep (t.node.direction.getD .column)) (t, j) s →
    chooseAxis (t.node.direction.getD .column) s.1.flow = some (axis, bs) →
    (makeFlex t j).1.flow.Pairwise fun a b => a.box.overlap b.box axis ≤ tolerance := by
  intro h
  have found : (chooseAxis .column (hanging 1).flow).isSome = true := by decide +kernel
  obtain ⟨⟨axis, bs⟩, hc⟩ := Option.isSome_iff_exists.1 found
  have last : demoteStep .column (hanging 1, {}) = none := if_pos (.inr found)
  have hall := h (hanging 1) {} _ axis bs (.here last) hc
  have hcolumn : (chooseAxis .column (hanging 1).flow).map (·.1) = some .column := by decide +kernel
  rw [hc] at hcolumn
  obtain rfl : axis = .column := Option.some.inj hcolumn
  exact absurd hall (by decide +kernel)

end FlexRecovery.Regroup
