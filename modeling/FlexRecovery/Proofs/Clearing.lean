import FlexRecovery.Proofs.Holding
import FlexRecovery.Proofs.Nesting
import FlexRecovery.Proofs.Spans

/-!
What rebuilding nesting leaves in the flow of an owner. No sibling lies in another one, and the smaller of two that
overlap does not intrude into the other. The rule for siblings asks for a little more in two places: it sees a
strip of one pixel, which overlaps nothing, and of two equal areas it compares the lower with the upper sibling.
-/

namespace FlexRecovery

namespace Box

theorem overlaps_comm (a b : Box) : a.overlaps b = b.overlaps a := by
  unfold overlaps overlapping
  rw [overlap_comm a b, overlap_comm a b]

/-- Half of the pixel that a strip shares with a box is enough to intrude, while it takes two to overlap. -/
theorem exists_thin_of_intrudesFully {small large : Box} (h : small.intrudesFully large = true)
    (ho : small.overlaps large = false) :
    ∃ axis, small.overlap large axis = 1 ∧ small.extent axis = 1 := by
  obtain ⟨axis, haxis⟩ : ∃ axis, small.overlap large axis ≤ 1 := by
    rw [overlaps, overlapping, overlapping, Bool.and_eq_false_iff, decide_eq_false_iff_not,
      decide_eq_false_iff_not] at ho
    rcases ho with ho | ho
    · exact ⟨_, Int.not_lt.1 ho⟩
    · exact ⟨_, Int.not_lt.1 ho⟩
  have hshared : ¬2 * small.overlap large axis ≤ small.extent axis := fun hle =>
    absurd h (by rw [not_intrudesFully axis hle]; exact Bool.false_ne_true)
  have hin := intrudes_of_intrudesFully h axis
  simp only [intrudes, Bool.and_eq_true, decide_eq_true_eq] at hin
  exact ⟨axis, by omega, by omega⟩

end Box

namespace Regroup

open Tree Tuning Consistency

/-- Where a sibling stands, and its box. Attaching other siblings to it changes neither. -/
def Sibling.outline (s : Sibling) : Nat × Box := (s.position, s.box)

def outlines (l : List Sibling) : List (Nat × Box) := l.map Sibling.outline

theorem apart_iff {l : List Sibling} : Sibling.Apart l ↔ ((outlines l).map Prod.fst).Nodup := by
  rw [Sibling.Apart, outlines, List.map_map]
  rfl

/-- Intrudes into no sibling that it overlaps and that may lie below it: one that is larger, or as large and earlier. -/
def Settles (n m : Nat × Box) : Prop :=
  m.1 ≠ n.1 → n.2.overlaps m.2 = true → (n.2.area < m.2.area ∨ m.2.area = n.2.area ∧ m.1 < n.1) →
    n.2.intrudesFully m.2 = false

theorem settles_of_stays {l : List Sibling} {n : Sibling} (h : moveOf l n = .stays) :
    ∀ m ∈ outlines l, Settles n.outline m := by
  have hempty : (l.filter fun m => m.position != n.position && n.box.overlaps m.box).filter
      (fun m => liesBelow m n && n.box.intrudesFully m.box) = [] := by
    unfold moveOf at h
    dsimp only at h
    split at h
    · cases h
    · split_ifs at h with he
      simpa using he
  intro o ho hne hoverlaps hbelow
  obtain ⟨m, hm, rfl⟩ := List.mem_map.1 ho
  have hout := List.filter_eq_nil_iff.1 hempty m (List.mem_filter.2 ⟨hm, by
    rw [Bool.and_eq_true, bne_iff_ne]
    exact ⟨hne, hoverlaps⟩⟩)
  have hbelow : liesBelow m n = true := decide_eq_true hbelow
  rw [hbelow, Bool.true_and, Bool.not_eq_true] at hout
  exact hout

theorem outlines_attachTo (a : Attaching) (n : Sibling) (host : Nat) {prepare : Tree → Tree} (t : Tree)
    (hp : ∀ t, (prepare t).box = t.box) :
    outlines (attachTo a n host prepare t).siblings = outlines (a.siblings.filter (·.position != n.position)) := by
  rw [outlines, outlines, attachTo, List.map_map]
  refine List.map_congr_left fun m _ => ?_
  simp only [Function.comp]
  split
  · exact Prod.ext rfl (hp m.tree)
  · rfl

/-- Either a sibling leaves when its turn comes, or it has nowhere to go. -/
theorem outlines_attachOne (a : Attaching) (p : Nat) (j : Journal) (ha : Sibling.Apart a.siblings) :
    (outlines (attachOne a p j).1.siblings).Sublist (outlines a.siblings) ∧
      ∀ n ∈ outlines (attachOne a p j).1.siblings, n.1 = p → ∀ m ∈ outlines a.siblings, Settles n m := by
  unfold attachOne
  cases hs : a.siblings.find? (·.position == p) with
  | none =>
    refine ⟨.refl _, fun n hn hp => ?_⟩
    obtain ⟨s, hmem, rfl⟩ := List.mem_map.1 hn
    exact absurd (beq_iff_eq.2 hp) (List.find?_eq_none.1 hs s hmem)
  | some s =>
    have hmem := List.mem_of_find?_eq_some hs
    have hpos : s.position = p := by simpa using List.find?_some hs
    have left {l : List Sibling} (hl : outlines l = outlines (a.siblings.filter (·.position != s.position))) :
        (outlines l).Sublist (outlines a.siblings) ∧
          ∀ n ∈ outlines l, n.1 = p → ∀ m ∈ outlines a.siblings, Settles n m := by
      rw [hl]
      refine ⟨List.filter_sublist.map _, fun n hn hp => ?_⟩
      obtain ⟨u, hu, rfl⟩ := List.mem_map.1 hn
      have hout : u.position ≠ s.position := by simpa using (List.mem_filter.1 hu).2
      exact absurd (hp.trans hpos.symm) hout
    dsimp only
    cases hm : moveOf a.siblings s with
    | stays =>
      refine ⟨.refl _, fun n hn hp => ?_⟩
      obtain ⟨u, hu, rfl⟩ := List.mem_map.1 hn
      rw [ha.eq_of_position hu hmem (hp.trans hpos.symm)]
      exact settles_of_stays hm
    | onto host => exact left (outlines_attachTo a s host s.tree box_hosting)
    | asBorder host => exact left (outlines_attachTo a s host _ fun _ => rfl)
    | offLeaf => exact left rfl

/-- Once each sibling had its turn, none of those that are left has anywhere to go: what a sibling could have moved
onto when it was left in place only gets less. -/
theorem outlines_attachAll (order : List Nat) (a : Attaching) (j : Journal) (ha : Sibling.Apart a.siblings) :
    (outlines (order.foldlM attachOne a j).1.siblings).Sublist (outlines a.siblings) ∧
      ∀ n ∈ outlines (order.foldlM attachOne a j).1.siblings, n.1 ∈ order →
        ∀ m ∈ outlines (order.foldlM attachOne a j).1.siblings, Settles n m := by
  induction order generalizing a j with
  | nil => exact ⟨.refl _, fun _ _ hn => by cases hn⟩
  | cons p order ih =>
    rw [List.foldlM_cons, Journaled.run_bind]
    obtain ⟨hsub, hturn⟩ := outlines_attachOne a p j ha
    have ha' := apart_iff.2 ((apart_iff.1 ha).sublist (hsub.map Prod.fst))
    obtain ⟨hrest, hlater⟩ := ih _ (attachOne a p j).2 ha'
    refine ⟨hrest.trans hsub, fun n hn hp m hm => ?_⟩
    rcases List.mem_cons.1 hp with hp | hp
    · exact hturn n (hrest.subset hn) hp m (hsub.subset (hrest.subset hm))
    · exact hlater n hn hp m hm

/-- Siblings stand in the order of their positions. -/
theorem sorted_list (ts : List Tree) : (outlines (Sibling.list ts)).Pairwise fun n m => n.1 < m.1 := by
  have h : (outlines (Sibling.list ts)).map Prod.fst = List.range' 0 ts.length := by
    simp [outlines, Sibling.list, Sibling.outline, Function.comp_def, List.zipIdx_map_snd]
  have hlt := List.pairwise_lt_range' (s := 0) (n := ts.length)
  rw [← h] at hlt
  exact List.pairwise_map.1 hlt

theorem map_box_trees (l : List Sibling) : (trees l).map box = (outlines l).map Prod.snd := by
  rw [trees, outlines, List.map_map, List.map_map]
  rfl

/-- The smaller of two siblings that overlap, the upper one if they are equally large, does not intrude into the other. -/
def Calm (lower upper : Box) : Prop := lower.overlaps upper = true →
  (lower.area < upper.area → lower.intrudesFully upper = false) ∧
    (upper.area ≤ lower.area → upper.intrudesFully lower = false)

theorem calm_of_settles {n m : Nat × Box} (hlt : n.1 < m.1) (h : Settles n m) (h' : Settles m n) : Calm n.2 m.2 := by
  intro ho
  refine ⟨fun harea => h hlt.ne' ho (.inl harea), fun harea => h' hlt.ne (Box.overlaps_comm n.2 m.2 ▸ ho) ?_⟩
  omega

/-- The boxes of the siblings that are left, and how they lie. -/
theorem calm_attachOverlapping (t : Tree) (j : Journal) :
    ((attachOverlapping t j).1.flow.map box).Sublist (t.flow.map box) ∧
      (attachOverlapping t j).1.flow.Pairwise fun a b => Calm a.box b.box := by
  let order := (stableSort movesBefore (Sibling.list t.flow)).map (·.position)
  let l := (order.foldlM attachOne { siblings := Sibling.list t.flow } j).1.siblings
  change ((trees l).map box).Sublist _ ∧ (trees l).Pairwise _
  obtain ⟨hsub, hsettles⟩ := outlines_attachAll order { siblings := Sibling.list t.flow } j (Sibling.apart_list t.flow)
  change (outlines l).Sublist _ at hsub
  have hturn : ∀ n ∈ outlines l, n.1 ∈ order := by
    intro n hn
    obtain ⟨s, hs, rfl⟩ := List.mem_map.1 (hsub.subset hn)
    exact List.mem_map_of_mem ((perm_stableSort _ _).mem_iff.2 hs)
  have hcalm : (outlines l).Pairwise fun n m => Calm n.2 m.2 := by
    refine ((sorted_list t.flow).sublist hsub).imp_of_mem fun hn hm hlt => ?_
    exact calm_of_settles hlt (hsettles _ hn (hturn _ hn) _ hm) (hsettles _ hm (hturn _ hm) _ hn)
  constructor
  · have h := hsub.map Prod.snd
    rwa [← map_box_trees, ← map_box_trees, trees, trees, Sibling.map_tree_list] at h
  · have h := List.pairwise_map.2 hcalm
    rw [← map_box_trees] at h
    exact List.pairwise_map.1 h

/-- Of the siblings that move into no other one, none contains another. -/
theorem outside_nestContained (t : Tree) (j : Journal) :
    ∀ a ∈ (nestContained t j).1.flow, ∀ b ∈ (nestContained t j).1.flow, a.box.strictlyContains b.box = false := by
  have hflow : ((nestContained t j).1.flow) = ((guests t.flow).filter (·.host.isNone)).map
    (settled (guests t.flow) (guests t.flow).length) := rfl
  rw [hflow]
  simp only [List.mem_map, List.mem_filter, Option.isNone_iff_eq_none]
  rintro _ ⟨g, ⟨hg, -⟩, rfl⟩ _ ⟨h, ⟨hh, hnone⟩, rfl⟩
  rw [box_settled, box_settled]
  obtain ⟨⟨u, i⟩, -, rfl⟩ := List.mem_map.1 hh
  refine Box.strictlyContains_of_bestContainer_eq_none hnone _ (List.mem_map_of_mem ?_)
  rw [← map_tree_guests t.flow]
  exact List.mem_map_of_mem hg

/-- The smaller sibling of the two intrudes, but goes nowhere: it is a strip of one pixel along some axis, of which
the other one takes in just that pixel, or both are equally large and the upper one does not intrude. -/
def Missed (lower upper : Box) : Prop :=
  (∃ axis, lower.overlap upper axis = tolerance ∧
    ((lower.extent axis : Int) = tolerance ∨ (upper.extent axis : Int) = tolerance)) ∨
  lower.area = upper.area ∧ upper.intrudesFully lower = false

theorem missed_of_intruding {a b : Box} (h : Calm a b) (hi : isIntruding a b = true) : Missed a b := by
  by_cases ho : a.overlaps b = true
  · obtain ⟨hless, hge⟩ := h ho
    unfold isIntruding at hi
    split_ifs at hi with harea
    · rcases Nat.lt_or_eq_of_le harea with hlt | heq
      · exact absurd hi (by rw [hless hlt]; exact Bool.false_ne_true)
      · exact .inr ⟨heq, hge heq.ge⟩
    · exact absurd hi (by rw [hge (by omega)]; exact Bool.false_ne_true)
  · have ho : a.overlaps b = false := by simpa using ho
    unfold isIntruding at hi
    split_ifs at hi with harea
    · obtain ⟨axis, hone, hthin⟩ := Box.exists_thin_of_intrudesFully hi ho
      exact .inl ⟨axis, hone, .inl (by rw [hthin]; rfl)⟩
    · obtain ⟨axis, hone, hthin⟩ := Box.exists_thin_of_intrudesFully hi (Box.overlaps_comm a b ▸ ho)
      exact .inl ⟨axis, Box.overlap_comm a b axis ▸ hone, .inr (by rw [hthin]; rfl)⟩

/-- No two siblings that are left are nested, and where the smaller one intrudes it is one of the pairs that the pass
misses. So the siblings pass the check of their rule exactly if no such pair intrudes. -/
theorem cleared_rebuildNesting (t : Tree) (j : Journal) : let r := (rebuildNesting t j).1
    (r.flow.Pairwise fun a b => isNested a.box b.box = false ∧ (isIntruding a.box b.box = true → Missed a.box b.box)) ∧
    (siblingFault? r.flow = none ↔
      r.flow.Pairwise fun a b => Missed a.box b.box → isIntruding a.box b.box = false) := by
  intro r
  let u := nestContained (collapseEqual t j).1 (collapseEqual t j).2
  obtain ⟨hsub, hcalm⟩ := calm_attachOverlapping u.1 u.2
  change (r.flow.map box).Sublist _ at hsub
  change r.flow.Pairwise _ at hcalm
  have outside : ∀ a ∈ r.flow, ∀ b ∈ r.flow, a.box.strictlyContains b.box = false := by
    intro a ha b hb
    obtain ⟨x, hx, hxa⟩ := List.mem_map.1 (hsub.subset (List.mem_map_of_mem ha))
    obtain ⟨y, hy, hyb⟩ := List.mem_map.1 (hsub.subset (List.mem_map_of_mem hb))
    rw [← hxa, ← hyb]
    exact outside_nestContained _ _ x hx y hy
  have hpairs : r.flow.Pairwise fun a b =>
      isNested a.box b.box = false ∧ (isIntruding a.box b.box = true → Missed a.box b.box) :=
    hcalm.imp_of_mem fun ha hb h =>
      ⟨by rw [isNested, outside _ ha _ hb, outside _ hb _ ha]; rfl, missed_of_intruding h⟩
  refine ⟨hpairs, ?_⟩
  rw [siblingFault?_eq_none]
  constructor
  · intro h
    apply h.imp
    exact fun hp _ => (pairFault?_eq_none.1 hp).2
  · intro h
    apply (hpairs.and h).imp
    rintro a b ⟨⟨hnested, hmissed⟩, hclear⟩
    refine pairFault?_eq_none.2 ⟨hnested, ?_⟩
    cases hi : isIntruding a.box b.box with
    | false => rfl
    | true => exact hi.symm.trans (hclear (hmissed hi))

/-- More than half of a strip of one pixel lies on a box, and more than half of a box lies on an upper one that is as
large, but wider. -/
theorem intruding_strip :
    siblingFault? (rebuildNesting (sheet [⟨20, 0, 100, 100⟩, ⟨0, 10, 50, 1⟩]) {}).1.flow ≠ none ∧
      siblingFault? (rebuildNesting (sheet [⟨0, 0, 30, 20⟩, ⟨12, 8, 40, 15⟩]) {}).1.flow ≠ none := by
  constructor
  · decide +kernel
  · decide +kernel

end Regroup

end FlexRecovery
