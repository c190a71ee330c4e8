import FlexRecovery.Proofs.Lines
import FlexRecovery.Proofs.Spans
import Mathlib.Order.Bounds.Basic

/-!
The siblings in cross order fall into stretches, one for each line. The band of a line grows while its stretch is
gathered, but at any time it is the span of the items so far, and it is the whole band that turns away the first item of
the next line.
-/

namespace FlexRecovery.Regroup

theorem Sibling.nodup_list (ts : List Tree) : (list ts).Nodup := List.Nodup.of_map _ (apart_list ts)

namespace Line

variable {axis cross : Axis} {l m : Line} {s : Sibling} {ss : List Sibling}

/-- The items as they were gathered: by their leading edges across the axis. -/
def crossed (axis : Axis) (l : Line) : List Sibling := stableSort (before axis) l.items

/-- The band runs from the smallest leading edge of the items to the largest trailing one. -/
structure Spans (cross : Axis) (l : Line) : Prop where
  isLeast : IsLeast {x | ∃ s ∈ l.items, s.box.start cross = x} l.crossStart
  isGreatest : IsGreatest {x | ∃ s ∈ l.items, s.box.stop cross = x} l.crossStop

/-- How much of the band a box covers, negative if it lies apart from it. -/
def shared (cross : Axis) (l : Line) (b : Box) : Int := b.overlap (b.withSpan cross l.crossStart l.crossStop) cross

/-- The first item of the later line covers at most half of the earlier band, and at most half of its own span lies in
that band. -/
def Parted (axis : Axis) (l m : Line) : Prop :=
  ∃ s rest, m.crossed axis = s :: rest ∧
    l.shared axis.cross s.box * 2 ≤ min (s.box.extent axis.cross : Int) (l.crossStop - l.crossStart)

/-- Siblings in lines along an axis. One line after another, each is a stretch of the cross order, put in order along
the axis. -/
structure Lined (axis : Axis) (ss : List Sibling) (lines : List Line) : Prop where
  stretches : lines.flatMap (crossed axis) = stableSort (before axis) ss
  unique : ∀ s ∈ ss, ∃! i : Nat, ∃ l : Line, lines[i]? = some l ∧ s ∈ l.items
  perm : (lines.flatMap (·.items)).Perm ss
  nonempty : ∀ l ∈ lines, l.items ≠ []
  sorted : ∀ l ∈ lines, l.items.Pairwise fun a b => a.box.start axis ≤ b.box.start axis
  spans : ∀ l ∈ lines, l.Spans axis.cross
  ordered : lines.Pairwise fun l m => l.crossStart ≤ m.crossStart
  parted : lines.IsChain (Parted axis)

/-! ### Bands -/

theorem spans_single (cross : Axis) (s : Sibling) : (single cross s).Spans cross := by
  constructor <;> simp [single, IsLeast, IsGreatest, lowerBounds, upperBounds]

/-- An item that begins no earlier than the band does, at most moves its end. -/
theorem Spans.add (h : l.Spans cross) (hs : l.crossStart ≤ s.box.start cross) : (l.add cross s).Spans cross := by
  obtain ⟨⟨⟨a, ha, hstart⟩, hle⟩, ⟨⟨b, hb, hstop⟩, hge⟩⟩ := h
  have least : ∀ t ∈ l.items ++ [s], l.crossStart ≤ t.box.start cross :=
    List.forall_mem_append.2 ⟨fun t ht => hle ⟨t, ht, rfl⟩, List.forall_mem_singleton.2 hs⟩
  have greatest : ∀ t ∈ l.items ++ [s], t.box.stop cross ≤ max l.crossStop (s.box.stop cross) :=
    List.forall_mem_append.2
      ⟨fun t ht => le_max_of_le_left (hge ⟨t, ht, rfl⟩), List.forall_mem_singleton.2 (le_max_right _ _)⟩
  refine ⟨⟨⟨a, List.mem_append_left _ ha, hstart⟩, ?_⟩, ⟨?_, ?_⟩⟩
  · rintro _ ⟨t, ht, rfl⟩
    exact least t ht
  · rcases le_total (s.box.stop cross) l.crossStop with hle | hle
    · exact ⟨b, List.mem_append_left _ hb, hstop.trans (max_eq_left hle).symm⟩
    · exact ⟨s, List.mem_append_right _ (List.mem_singleton_self s), (max_eq_right hle).symm⟩
  · rintro _ ⟨t, ht, rfl⟩
    exact greatest t ht

/-- Siblings that come in cross order are gathered under exact bands. -/
theorem spans_gather (hs : (l.items ++ ss).Pairwise fun a b => before axis a b = true) (h : l.Spans axis.cross) :
    ∀ m ∈ gather axis.cross l ss, m.Spans axis.cross := by
  induction ss generalizing l with
  | nil => exact List.forall_mem_singleton.2 h
  | cons s ss ih =>
    unfold gather
    split
    · obtain ⟨a, ha, hstart⟩ := h.isLeast.1
      have hbefore := (List.pairwise_append.1 hs).2.2 a ha s (List.mem_cons_self ..)
      have hadd := h.add (hstart ▸ start_le_of_before hbefore)
      rw [List.append_cons] at hs
      exact ih hs hadd
    · have hrest := (List.pairwise_append.1 hs).2.1
      exact List.forall_mem_cons.2 ⟨h, ih hrest (spans_single _ s)⟩

theorem Spans.sorted (h : l.Spans cross) (axis : Axis) : (l.sorted axis).Spans cross := by
  have hmem : ∀ s, s ∈ (l.sorted axis).items ↔ s ∈ l.items := fun s => (perm_sortByKey _ l.items).mem_iff
  constructor
  · simp only [hmem]
    exact h.isLeast
  · simp only [hmem]
    exact h.isGreatest

theorem Spans.start_le_stop (h : l.Spans cross) : l.crossStart ≤ l.crossStop := by
  obtain ⟨s, hs, he⟩ := h.isLeast.1
  calc l.crossStart = s.box.start cross := he.symm
    _ ≤ s.box.stop cross := s.box.start_le_stop cross
    _ ≤ l.crossStop := h.isGreatest.2 ⟨s, hs, rfl⟩

/-- A line turns away what shares too little with its band. -/
theorem Spans.takes_eq_false_iff (h : l.Spans cross) : l.takes cross s = false ↔
    l.shared cross s.box * 2 ≤ min (s.box.extent cross : Int) (l.crossStop - l.crossStart) := by
  simp only [takes, shared, Box.overlap, Box.start_withSpan, Box.stop_withSpan _ _ h.start_le_stop,
    decide_eq_false_iff_not, Int.not_lt]

/-! ### Openings -/

/-- The line under way goes on as the first one. -/
theorem exists_gather (cross : Axis) (l : Line) (ss : List Sibling) :
    ∃ m rest, gather cross l ss = m :: rest ∧ l.items <+: m.items := by
  induction ss generalizing l with
  | nil => exact ⟨l, [], rfl, List.prefix_rfl⟩
  | cons s ss ih =>
    unfold gather
    split
    · obtain ⟨m, rest, hm, hpre⟩ := ih (l.add cross s)
      exact ⟨m, rest, hm, (List.prefix_append _ _).trans hpre⟩
    · exact ⟨l, _, rfl, List.prefix_rfl⟩

/-- Each line turns away the item that the next one was opened with. -/
theorem isChain_gather (cross : Axis) (l : Line) (ss : List Sibling) :
    (gather cross l ss).IsChain fun l m => ∃ s rest, m.items = s :: rest ∧ l.takes cross s = false := by
  induction ss generalizing l with
  | nil => exact List.isChain_singleton l
  | cons s ss ih =>
    unfold gather
    split
    · exact ih _
    · next hs =>
      obtain ⟨m, rest, hm, t, ht⟩ := exists_gather cross (single cross s) ss
      have hchain := ih (single cross s)
      rw [hm] at hchain ⊢
      exact List.isChain_cons_cons.2 ⟨⟨s, t, ht.symm, Bool.eq_false_iff.2 hs⟩, hchain⟩

/-! ### Lines in order -/

/-- Sorting a line along the axis loses nothing: across it, the items can be put back as they were gathered. -/
theorem crossed_sorted (h : l.items.Pairwise fun a b => before axis a b = true) :
    (l.sorted axis).crossed axis = l.items := by
  have tie (a b : Sibling) (hab : before axis a b = true) (hba : before axis b a = true) :
      decide (a.box.start axis ≤ b.box.start axis) = true := by
    simp only [before, decide_eq_true_eq] at *
    omega
  calc (l.sorted axis).crossed axis
    _ = stableSort (before axis) l.items := stableSort_stableSort (before_total axis) (before_trans axis) tie l.items
    _ = l.items := stableSort_of_pairwise h

theorem crossed_of_mem_gather (h : (l.items ++ ss).Pairwise fun a b => before axis a b = true) :
    ∀ m ∈ gather cross l ss, (m.sorted axis).crossed axis = m.items := by
  intro m hm
  rw [← flatMap_gather cross] at h
  exact crossed_sorted (h.sublist (List.sublist_flatten_of_mem (List.mem_map_of_mem hm)))

/-- One after another, the lines are the siblings in cross order. -/
theorem flatMap_crossed (axis : Axis) (ss : List Sibling) :
    (collect axis ss).flatMap (crossed axis) = stableSort (before axis) ss := by
  have hs := sorted_before axis ss
  unfold collect
  split
  · next h => rw [h, List.flatMap_nil]
  · next s rest h =>
    rw [h] at hs ⊢
    rw [List.flatMap_map, List.flatMap_congr (crossed_of_mem_gather hs), flatMap_gather]
    rfl

theorem spans_of_mem_collect (h : l ∈ collect axis ss) : l.Spans axis.cross := by
  have hs := sorted_before axis ss
  unfold collect at h
  split at h
  · cases h
  · next s rest he =>
    rw [he] at hs
    obtain ⟨m, hm, rfl⟩ := List.mem_map.1 h
    exact (spans_gather hs (spans_single _ s) m hm).sorted axis

/-- What opens a line is turned away by the one before, now that its band is complete. -/
theorem isChain_collect (axis : Axis) (ss : List Sibling) : (collect axis ss).IsChain (Parted axis) := by
  have hs := sorted_before axis ss
  unfold collect
  split
  · exact .nil
  · next s rest he =>
    rw [he] at hs
    refine (List.isChain_map _).2 ((isChain_gather _ _ _).imp_of_mem_imp fun l m hl hm hopen => ?_)
    obtain ⟨t, ts, hitems, ht⟩ := hopen
    have hspans := spans_gather hs (spans_single _ s) l hl
    exact ⟨t, ts, (crossed_of_mem_gather hs m hm).trans hitems, hspans.takes_eq_false_iff.1 ht⟩

/-- Of siblings that occur once, each lies in one line. -/
theorem existsUnique_line (hss : ss.Nodup) (hs : s ∈ ss) :
    ∃! i : Nat, ∃ l : Line, (collect axis ss)[i]? = some l ∧ s ∈ l.items := by
  have hperm := perm_collect axis ss
  have apart := List.pairwise_iff_getElem.1 (List.nodup_flatMap.1 (hperm.nodup_iff.2 hss)).2
  obtain ⟨l, hl, hsl⟩ := List.mem_flatMap.1 (hperm.mem_iff.2 hs)
  obtain ⟨i, hi⟩ := List.mem_iff_getElem?.1 hl
  refine ⟨i, ⟨l, hi, hsl⟩, ?_⟩
  rintro j ⟨m, hj, hsm⟩
  obtain ⟨hil, rfl⟩ := List.getElem?_eq_some_iff.1 hi
  obtain ⟨hjl, rfl⟩ := List.getElem?_eq_some_iff.1 hj
  rcases Nat.lt_trichotomy j i with hlt | heq | hlt
  · exact (apart j i hjl hil hlt hsm hsl).elim
  · exact heq
  · exact (apart i j hil hjl hlt hsl hsm).elim

/-- The lines of an owner divide its flow children among themselves, whatever boxes these have. Their bands are exact and
in order, and what opens a line had no place in the one before. -/
theorem lined_collect (t : Tree) (axis : Axis) :
    Lined axis (Sibling.list t.flow) (collect axis (Sibling.list t.flow)) where
  stretches := flatMap_crossed axis _
  unique _ hs := existsUnique_line (Sibling.nodup_list t.flow) hs
  perm := perm_collect axis _
  nonempty _ hl := items_ne_nil_of_mem_collect hl
  sorted _ hl := sorted_of_mem_collect hl
  spans _ hl := spans_of_mem_collect hl
  ordered := pairwise_collect axis _
  parted := isChain_collect axis _

/-- It is only the first item that has no place there: a later one may lie in the band before altogether. -/
example : (collect .row (Sibling.list (Tree.sheet [⟨0, 0, 10, 10⟩, ⟨20, 5, 10, 20⟩, ⟨40, 6, 10, 4⟩]).flow)).map
    (fun l => l.items.map (·.position)) = [[0], [1, 2]] := by
  decide

end Line

end FlexRecovery.Regroup
