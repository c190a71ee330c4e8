import FlexRecovery.Proofs.Ruled
import FlexRecovery.Proofs.Runs
import FlexRecovery.Proofs.Stretches

/-!
The rows of a wrapping grid. Lines of siblings with an area stand in the order of both edges of their bands, and the lines
of a chain follow one another immediately. So the line below the first row of a grid runs between all siblings.
-/

namespace FlexRecovery.Regroup

open Box

variable {axis : Axis} {lines : List Line} {chain : List Track}

namespace Line

/-- Both edges of the band lie before those of the other. -/
def Precedes (l m : Line) : Prop := l.crossStart < m.crossStart ∧ l.crossStop < m.crossStop

theorem Precedes.trans {l m n : Line} (h : Precedes l m) (h' : Precedes m n) : Precedes l n :=
  ⟨h.1.trans h'.1, h.2.trans h'.2⟩

theorem Spans.start_le {cross : Axis} {l : Line} (h : l.Spans cross) {s : Sibling} (hs : s ∈ l.items) :
    l.crossStart ≤ s.box.start cross := h.isLeast.2 ⟨s, hs, rfl⟩

theorem Spans.stop_le {cross : Axis} {l : Line} (h : l.Spans cross) {s : Sibling} (hs : s ∈ l.items) :
    s.box.stop cross ≤ l.crossStop := h.isGreatest.2 ⟨s, hs, rfl⟩

/-- What opens a line stands at the leading edge of its band. -/
theorem start_of_crossed {m : Line} {s : Sibling} {rest : List Sibling} (h : m.Spans axis.cross)
    (hc : m.crossed axis = s :: rest) : s ∈ m.items ∧ s.box.start axis.cross = m.crossStart := by
  have hmem : ∀ u, u ∈ m.items ↔ u ∈ s :: rest := fun u => by
    rw [← hc]
    exact (perm_stableSort _ _).mem_iff.symm
  have hs : s ∈ m.items := (hmem s).2 List.mem_cons_self
  refine ⟨hs, le_antisymm ?_ (h.start_le hs)⟩
  obtain ⟨u, hu, he⟩ := h.isLeast.1
  have hsorted := sorted_before axis m.items
  rw [show stableSort (before axis) m.items = s :: rest from hc] at hsorted
  rw [← he]
  rcases List.mem_cons.1 ((hmem u).1 hu) with rfl | hu
  · exact le_rfl
  · exact start_le_of_before ((List.pairwise_cons.1 hsorted).1 u hu)

/-- What had no place in the line before, and does not begin before it, ends behind it. -/
theorem precedes_of_parted {l m : Line} (hl : l.Spans axis.cross) (hm : m.Spans axis.cross)
    (hle : l.crossStart ≤ m.crossStart) (hp : Parted axis l m)
    (hpos : ∀ s ∈ l.items ++ m.items, 0 < s.box.extent axis.cross) : Precedes l m := by
  obtain ⟨s, rest, hc, hshared⟩ := hp
  obtain ⟨hs, hstart⟩ := start_of_crossed hm hc
  obtain ⟨u, hu, -⟩ := hl.isLeast.1
  have hus := hpos u (List.mem_append_left _ hu)
  have hss := hpos s (List.mem_append_right _ hs)
  have hustart := hl.start_le hu
  have hustop := hl.stop_le hu
  have hsstop := hm.stop_le hs
  have huedge := u.box.stop_eq axis.cross
  have hsedge := s.box.stop_eq axis.cross
  rw [shared, Box.overlap, Box.start_withSpan, Box.stop_withSpan _ _ hl.start_le_stop] at hshared
  unfold Precedes
  omega

theorem pairwise_precedes {axis : Axis} {ss : List Sibling} (h : ∀ s ∈ ss, 0 < s.box.extent axis.cross) :
    (collect axis ss).Pairwise Precedes := by
  have hordered := pairwise_collect axis ss
  have hpos (l : Line) (hl : l ∈ collect axis ss) : ∀ s ∈ l.items, 0 < s.box.extent axis.cross := fun s hs =>
    h s ((perm_collect axis ss).mem_iff.1 (List.mem_flatMap.2 ⟨l, hl, hs⟩))
  have hparted := isChain_collect axis ss
  have : IsTrans Line Precedes := ⟨fun _ _ _ => Precedes.trans⟩
  rw [← List.isChain_iff_pairwise, List.isChain_iff_getElem]
  intro i hi
  have hl := List.getElem_mem (l := collect axis ss) (n := i) (by omega)
  have hm := List.getElem_mem hi
  exact precedes_of_parted (spans_of_mem_collect hl) (spans_of_mem_collect hm)
    (List.pairwise_iff_getElem.1 hordered i (i + 1) _ hi (by omega)) (List.isChain_iff_getElem.1 hparted i hi)
    (List.forall_mem_append.2 ⟨hpos _ hl, hpos _ hm⟩)

end Line

/-- The first two lines of a chain are neighbours. -/
theorem neighbours_of_mem_chains {t u : Track} {rest : List Track} (h : t :: u :: rest ∈ chains axis lines) :
    ∃ before after, lines = before ++ t.line :: u.line :: after := by
  obtain ⟨c, hc, hcs⟩ := List.mem_map.1 h
  have hlinked := List.isChain_of_mem_splitBy hc
  have htracks : ∃ c', c = some t :: some u :: c' := by
    match c, hlinked with
    | [], _ => cases hcs
    | [none], _ => cases hcs
    | [some _], _ => cases hcs
    | none :: _ :: _, hl => cases (List.isChain_cons_cons.1 hl).1
    | some _ :: none :: _, hl => cases (List.isChain_cons_cons.1 hl).1
    | some _ :: some _ :: c', _ =>
      simp only [List.filterMap_cons, id, List.cons.injEq] at hcs
      obtain ⟨rfl, rfl, -⟩ := hcs
      exact ⟨c', rfl⟩
  obtain ⟨c', rfl⟩ := htracks
  obtain ⟨before, after, he⟩ := List.append_of_mem hc
  have hflat := congrArg List.flatten he
  rw [List.flatten_splitBy, List.flatten_append, List.flatten_cons, List.cons_append, List.cons_append, tracks,
    List.map_eq_append_iff] at hflat
  obtain ⟨before, tail, rfl, -, htail⟩ := hflat
  obtain ⟨l, tail, rfl, hl, htail⟩ := List.map_eq_cons_iff.1 htail
  obtain ⟨m, tail, rfl, hm, -⟩ := List.map_eq_cons_iff.1 htail
  obtain ⟨r, -, rfl⟩ := Option.map_eq_some_iff.1 hl
  obtain ⟨r', -, rfl⟩ := Option.map_eq_some_iff.1 hm
  exact ⟨before, tail, rfl⟩

/-- The bands of all lines of a chain, and of those of a later chain, come one after another. -/
theorem pairwise_chains (axis : Axis) (h : lines.Pairwise Line.Precedes) :
    (∀ c ∈ chains axis lines, c.Pairwise fun t u => t.line.Precedes u.line) ∧
      (chains axis lines).Pairwise fun c d => ∀ t ∈ c, ∀ u ∈ d, t.line.Precedes u.line :=
  List.pairwise_flatten.1 (List.pairwise_map.1 (h.sublist (lines_flatten_sublist axis lines)))

/-- The rows of a grid share no pixel, and their items have one size. -/
theorem gridGap_eq_some {t u : Track} {rest : List Track} {rowGap : Int} (h : gridGap (t :: u :: rest) = some rowGap) :
    t.line.crossStop ≤ u.line.crossStart ∧
      ∀ (q : Nat) (b a : Sibling), u.items[q]? = some b → t.items[q]? = some a → sameSize b.box a.box = true := by
  unfold gridGap at h
  simp only [List.zip_cons_cons, List.map_cons] at h
  split at h
  · next hc =>
    simp only [Bool.and_eq_true, List.all_cons, decide_eq_true_eq] at hc
    refine ⟨by omega, fun q b a hb ha => ?_⟩
    have hsame := List.all_eq_true.1 hc.1.1.2.1 (b, a) (List.mem_of_getElem? (List.getElem?_zip_eq_some.2 ⟨hb, ha⟩))
    exact (Bool.and_eq_true_iff.1 hsame).2
  · cases h

/-- The items of a chain lie in the bands of their lines. -/
theorem item_of_mem_chains {ss : List Sibling} (hc : chain ∈ chains axis (Line.collect axis ss)) {v : Track}
    (hv : v ∈ chain) {s : Sibling} (hs : s ∈ v.items) :
    s ∈ ss ∧ v.line.crossStart ≤ s.box.start axis.cross ∧ s.box.stop axis.cross ≤ v.line.crossStop := by
  have hline := ((tracks_of_mem_chains hc).1 v hv).1
  have hs := (Run.items_sublist v.run v.line.items).subset hs
  have hspans := Line.spans_of_mem_collect hline
  exact ⟨(Line.perm_collect axis ss).mem_iff.1 (List.mem_flatMap.2 ⟨_, hline, hs⟩), hspans.start_le hs,
    hspans.stop_le hs⟩

/-- The items of a track in a row begin with the leftmost one. -/
theorem Track.Found.exists_first {v : Track} (h : v.Found .row) :
    ∃ f, v.items[0]? = some f ∧ ∀ s ∈ v.items, f.box.left ≤ s.box.left := by
  have hf := List.getElem?_eq_getElem (List.length_pos_of_ne_nil h.fits.items_ne_nil)
  refine ⟨_, hf, fun s hs => ?_⟩
  obtain ⟨q, hq⟩ := List.getElem?_of_mem hs
  have hlt := (List.getElem?_eq_some_iff.1 hq).1
  have hle := h.starts_le (Nat.zero_le q) (h.fits.length_items ▸ hlt)
  rwa [(Track.edges_of_getElem? hf .row).1, (Track.edges_of_getElem? hq .row).1] at hle

/-- Some boxes, divided among siblings that lie around them. -/
structure Divided (parts : Sibling → List Box) (ss : List Sibling) (all : List Box) : Prop where
  nodup : ss.Nodup
  solid : ∀ b ∈ all, Solid b
  covers : ∀ b ∈ all, ∃ s ∈ ss, b ∈ parts s
  inside : ∀ s ∈ ss, ∀ b ∈ parts s, b ∈ all ∧ Partakes b s.box
  around : ∀ s ∈ ss, s.box.Around (parts s)
  apart : ∀ s ∈ ss, ∀ s' ∈ ss, s ≠ s' → List.Disjoint (parts s) (parts s')

namespace Divided

variable {parts : Sibling → List Box} {ss : List Sibling} {all : List Box} (h : Divided parts ss all)

include h

theorem pos {s : Sibling} (hs : s ∈ ss) : 0 < s.box.height := by
  obtain ⟨b, hb, -⟩ := (h.around s hs).exists_start .row
  have hframes := frames_edges.1 ((h.around s hs).frames b hb)
  have := (h.solid b (h.inside s hs b hb).1).height
  simp only [bottom] at hframes
  omega

theorem precedes : (Line.collect .row ss).Pairwise Line.Precedes := Line.pairwise_precedes fun _ => h.pos

theorem exists_part {s : Sibling} (hs : s ∈ ss) : ∃ p ∈ parts s, Partakes p s.box := by
  obtain ⟨b, hb, -⟩ := (h.around s hs).exists_start .row
  exact ⟨b, hb, (h.inside s hs b hb).2⟩

theorem edges {s : Sibling} (hs : s ∈ ss) {p : Box} (hp : p ∈ parts s) :
    ((s.box.left ≤ p.left ∧ p.right ≤ s.box.right) ∧ s.box.top ≤ p.top ∧ p.bottom ≤ s.box.bottom) ∧
      p.top + 1 ≤ p.bottom := by
  have hheight := (h.solid p (h.inside s hs p hp).1).height
  refine ⟨frames_edges.1 ((h.around s hs).frames p hp), ?_⟩
  simp only [bottom]
  omega

theorem nodup_items (hc : chain ∈ chains axis (Line.collect axis ss)) {v : Track} (hv : v ∈ chain) : v.items.Nodup := by
  have hline := ((tracks_of_mem_chains hc).1 v hv).1
  have hlines := ((Line.perm_collect axis ss).nodup_iff.2 h.nodup).sublist
    (List.sublist_flatten_of_mem (List.mem_map_of_mem hline))
  exact hlines.sublist (Run.items_sublist v.run v.line.items)

/-- The parts of the items of a row lie in its band. -/
theorem edges_of_mem_chains (hc : chain ∈ chains .row (Line.collect .row ss)) {v : Track} (hv : v ∈ chain) {s : Sibling}
    (hs : s ∈ v.items) {p : Box} (hp : p ∈ parts s) :
    s.box.left ≤ p.left ∧ v.line.crossStart ≤ p.top ∧ p.bottom ≤ v.line.crossStop ∧ Partakes p s.box := by
  obtain ⟨hss, hstart, hstop⟩ := item_of_mem_chains hc hv hs
  have hedges := h.edges hss hp
  simp only [Axis.cross, start, stop] at hstart hstop
  exact ⟨hedges.1.1.1, by omega, by omega, (h.inside s hss p hp).2⟩

/-- Two items of a row have different parts. -/
theorem exists_two_parts (hc : chain ∈ chains axis (Line.collect axis ss)) {v : Track} (hv : v ∈ chain) :
    ∃ s ∈ v.items, ∃ s' ∈ v.items, ∃ p ∈ parts s, ∃ p' ∈ parts s', p ≠ p' := by
  have hfound := Track.found_of_mem_chains hc v hv
  have hlen := hfound.fits.length_items
  have hgroups := Nat.mul_le_mul hfound.longest.period hfound.longest.groups
  have hnodup := h.nodup_items hc hv
  have hmem {s : Sibling} (hs : s ∈ v.items) : s ∈ ss := (item_of_mem_chains hc hv hs).1
  match hitems : v.items with
  | [] =>
    rw [hitems, List.length_nil] at hlen
    omega
  | [_] =>
    rw [hitems, List.length_singleton] at hlen
    omega
  | s :: s' :: items =>
    rw [hitems] at hnodup hmem
    have hs := hmem List.mem_cons_self
    have hs' := hmem (List.mem_cons_of_mem _ List.mem_cons_self)
    have hne : s ≠ s' := fun he => by simp [he] at hnodup
    obtain ⟨p, hp, -⟩ := h.exists_part hs
    obtain ⟨p', hp', -⟩ := h.exists_part hs'
    refine ⟨s, by simp, s', by simp, p, hp, p', hp', ?_⟩
    rintro rfl
    exact h.apart s hs s' hs' hne hp hp'

section grid

variable {t u : Track} {rest : List Track} {rowGap : Int}
  (hc : t :: u :: rest ∈ chains .row (Line.collect .row ss)) (hg : gridGap (t :: u :: rest) = some rowGap)

include hc

/-- Every sibling lies in the first row of a grid or before it, or it begins below that row. -/
theorem cut {s : Sibling} (hs : s ∈ ss) :
    (s.box.bottom ≤ t.line.crossStop ∧ (s.box.bottom + 1 ≤ t.line.crossStop ∨ t.line.crossStart ≤ s.box.top)) ∨
      u.line.crossStart ≤ s.box.top ∧ t.line.crossStart ≤ s.box.top := by
  obtain ⟨before, after, hlines⟩ := neighbours_of_mem_chains hc
  have hprecedes := h.precedes
  obtain ⟨l, hl, hs⟩ := List.mem_flatMap.1 ((Line.perm_collect .row ss).mem_iff.2 hs)
  have hspans := Line.spans_of_mem_collect hl
  have hstart : l.crossStart ≤ s.box.top := hspans.start_le hs
  have hstop : s.box.bottom ≤ l.crossStop := hspans.stop_le hs
  rw [hlines] at hprecedes hl
  obtain ⟨-, htail, hbefore⟩ := List.pairwise_append.1 hprecedes
  obtain ⟨ht, htail⟩ := List.pairwise_cons.1 htail
  have hu := (List.pairwise_cons.1 htail).1
  simp only [List.mem_append, List.mem_cons] at hl
  unfold Line.Precedes at *
  rcases hl with hl | rfl | rfl | hl
  · have := hbefore l hl t.line List.mem_cons_self
    omega
  · omega
  · have := ht u.line List.mem_cons_self
    omega
  · have := hu l hl
    have := ht u.line List.mem_cons_self
    omega

include hg

/-- Items of one number in the first two rows. -/
theorem across {w : Box} (hw : ∀ v ∈ t :: u :: rest, ∀ s ∈ v.items, w.Frames s.box) {f f' a b : Sibling} {q : Nat}
    (hf : t.items[0]? = some f) (hf' : u.items[0]? = some f') (ha : t.items[q]? = some a) (hb : u.items[q]? = some b) :
    Across (((t :: u :: rest).flatMap Track.items).flatMap parts) w t.line.crossStop f.box f'.box a.box b.box := by
  have ht : t ∈ t :: u :: rest := by simp
  have hu : u ∈ t :: u :: rest := by simp
  have hfound := Track.found_of_mem_chains hc
  have hmema := List.mem_of_getElem? ha
  have hmemb := List.mem_of_getElem? hb
  obtain ⟨has, -, hastop⟩ := item_of_mem_chains hc ht hmema
  obtain ⟨hbs, hbstart, -⟩ := item_of_mem_chains hc hu hmemb
  obtain ⟨hgap, hsize⟩ := gridGap_eq_some hg
  have part {v : Track} (hv : v ∈ t :: u :: rest) {s : Sibling} (hs : s ∈ v.items) (hss : s ∈ ss) :
      ∃ p ∈ ((t :: u :: rest).flatMap Track.items).flatMap parts, Partakes p s.box := by
    obtain ⟨p, hp, hpart⟩ := h.exists_part hss
    exact ⟨p, List.mem_flatMap.2 ⟨s, List.mem_flatMap.2 ⟨v, hv, hs⟩, hp⟩, hpart⟩
  refine ⟨⟨hw t ht a hmema, hastop, part ht hmema has⟩, ⟨hw u hu b hmemb, hgap.trans hbstart, part hu hmemb hbs⟩, ?_, ?_⟩
  · have hstructure := (List.isChain_cons_cons.1 (tracks_of_mem_chains hc).2).1
    have hq : q < t.run.period * t.run.groups := by
      rw [← (hfound t ht).fits.length_items]
      exact (List.getElem?_eq_some_iff.1 ha).1
    have hnear := close_iff.1 (Track.near_of_sameStructure (hfound t ht) (hfound u hu) hstructure hq)
    rw [(Track.edges_of_getElem? ha .row).1, (Track.edges_of_getElem? hb .row).1, (Track.edges_of_getElem? hf .row).1,
      (Track.edges_of_getElem? hf' .row).1] at hnear
    exact hnear
  · have hsame := hsize q b a hb ha
    simp only [sameSize, Bool.and_eq_true, close_iff] at hsame
    omega

omit hg in
/-- What lies in the first row is a part of one of its items, and what begins right below that row is a part of an item
of the second one. -/
theorem item_of_part (hgap : t.line.crossStop ≤ u.line.crossStart) {p : Box}
    (hp : p ∈ ((t :: u :: rest).flatMap Track.items).flatMap parts) :
    (p.bottom ≤ t.line.crossStop → ∃ s ∈ t.items, p ∈ parts s) ∧
      (t.line.crossStop ≤ p.top → t.line.crossStop + 1 ≤ p.top ∨ ∃ s ∈ u.items, p ∈ parts s) := by
  obtain ⟨s, hs, hps⟩ := List.mem_flatMap.1 hp
  obtain ⟨v, hv, hsv⟩ := List.mem_flatMap.1 hs
  obtain ⟨hss, hstart, hstop⟩ := item_of_mem_chains hc hv hsv
  have hedges := h.edges hss hps
  obtain ⟨-, hlater⟩ := List.pairwise_cons.1 ((pairwise_chains _ h.precedes).1 _ hc)
  simp only [Axis.cross, start, stop] at hstart hstop
  rcases List.mem_cons.1 hv with rfl | hv
  · exact ⟨fun _ => ⟨s, hsv, hps⟩, fun _ => by omega⟩
  rcases List.mem_cons.1 hv with rfl | hv
  · exact ⟨fun _ => by omega, fun _ => .inr ⟨s, hsv, hps⟩⟩
  · have := (List.pairwise_cons.1 hlater).1 v hv
    unfold Line.Precedes at this
    exact ⟨fun _ => by omega, fun _ => .inl (by omega)⟩

/-- The line below the first row of a grid runs between all boxes, and so does the one above that row. -/
theorem ruled_grid {w : Box} (hw : w.Around (((t :: u :: rest).flatMap Track.items).map Sibling.box)) :
    Ruled all (((t :: u :: rest).flatMap Track.items).flatMap parts) w t.line.crossStart t.line.crossStop := by
  have ht : t ∈ t :: u :: rest := by simp
  have hu : u ∈ t :: u :: rest := by simp
  have hfound := Track.found_of_mem_chains hc
  obtain ⟨hgap, -⟩ := gridGap_eq_some hg
  have hframes : ∀ v ∈ t :: u :: rest, ∀ s ∈ v.items, w.Frames s.box := fun v hv s hs =>
    hw.frames _ (List.mem_map_of_mem (List.mem_flatMap.2 ⟨v, hv, hs⟩))
  have part {v : Track} (hv : v ∈ t :: u :: rest) {s : Sibling} (hs : s ∈ v.items) {p : Box} (hp : p ∈ parts s) :
      p ∈ ((t :: u :: rest).flatMap Track.items).flatMap parts :=
    List.mem_flatMap.2 ⟨s, List.mem_flatMap.2 ⟨v, hv, hs⟩, hp⟩
  have hlength : t.items.length = u.items.length := by
    have hstructure := Track.period_of_sameStructure (List.isChain_cons_cons.1 (tracks_of_mem_chains hc).2).1
    rw [(hfound t ht).fits.length_items, (hfound u hu).fits.length_items, hstructure.1, hstructure.2]
  obtain ⟨f, hf, hleft⟩ := (hfound t ht).exists_first
  obtain ⟨f', hf', hleft'⟩ := (hfound u hu).exists_first
  refine ⟨fun b hb => ?_, fun b hb => ?_, ?_, ?_, f.box, f'.box, h.across hc hg hframes hf hf' hf hf',
    fun p hp hpg => ?_, fun p hp hpg => ?_⟩
  · obtain ⟨s, hs, hb⟩ := h.covers b hb
    have := h.cut hc hs
    have := h.edges hs hb
    omega
  · obtain ⟨s, hs, hb⟩ := h.covers b hb
    have := h.cut hc hs
    have := h.edges hs hb
    omega
  · obtain ⟨s, hs, s', hs', p, hp, p', hp', hne⟩ := h.exists_two_parts hc ht
    exact ⟨p, part ht hs hp, p', part ht hs' hp', hne, (h.edges_of_mem_chains hc ht hs hp).2.2.1,
      (h.edges_of_mem_chains hc ht hs' hp').2.2.1⟩
  · obtain ⟨s, hs, s', hs', p, hp, p', hp', hne⟩ := h.exists_two_parts hc hu
    exact ⟨p, part hu hs hp, p', part hu hs' hp', hne, hgap.trans (h.edges_of_mem_chains hc hu hs hp).2.1,
      hgap.trans (h.edges_of_mem_chains hc hu hs' hp').2.1⟩
  · obtain ⟨a, ha, hpa⟩ := (h.item_of_part hc hgap hp).1 hpg
    have hedges := h.edges_of_mem_chains hc ht ha hpa
    obtain ⟨q, hq⟩ := List.getElem?_of_mem ha
    have hb := List.getElem?_eq_getElem (hlength ▸ (List.getElem?_eq_some_iff.1 hq).1 : q < u.items.length)
    exact ⟨(hleft a ha).trans hedges.1, a.box, _, hedges.2.2.2, h.across hc hg hframes hf hf' hq hb⟩
  · rcases (h.item_of_part hc hgap hp).2 hpg with hbelow | ⟨b, hb, hpb⟩
    · exact .inl hbelow
    · have hedges := h.edges_of_mem_chains hc hu hb hpb
      obtain ⟨q, hq⟩ := List.getElem?_of_mem hb
      have ha := List.getElem?_eq_getElem (hlength ▸ (List.getElem?_eq_some_iff.1 hq).1 : q < t.items.length)
      exact .inr ⟨(hleft' b hb).trans hedges.1, _, b.box, hedges.2.2.2, h.across hc hg hframes hf hf' ha hq⟩

omit hg in
/-- A grid reaches over its ruled line on both sides. -/
theorem grid_inside (hgap : t.line.crossStop ≤ u.line.crossStart) {w : Box}
    (hw : w.Around (((t :: u :: rest).flatMap Track.items).map Sibling.box)) :
    w.top < t.line.crossStop ∧ t.line.crossStop < w.bottom := by
  have edges {v : Track} (hv : v ∈ t :: u :: rest) : ∃ s : Sibling, 0 < s.box.height ∧
      (v.line.crossStart ≤ s.box.top ∧ s.box.bottom ≤ v.line.crossStop) ∧ w.top ≤ s.box.top ∧ s.box.bottom ≤ w.bottom := by
    obtain ⟨s, hs⟩ := List.exists_mem_of_ne_nil _ (Track.found_of_mem_chains hc v hv).fits.items_ne_nil
    obtain ⟨hss, hstart, hstop⟩ := item_of_mem_chains hc hv hs
    have hframes := frames_edges.1 (hw.frames _ (List.mem_map_of_mem (List.mem_flatMap.2 ⟨v, hv, hs⟩)))
    exact ⟨s, h.pos hss, ⟨hstart, hstop⟩, hframes.2⟩
  obtain ⟨a, ha⟩ := edges (by simp : t ∈ t :: u :: rest)
  obtain ⟨b, hb⟩ := edges (by simp : u ∈ t :: u :: rest)
  simp only [bottom] at *
  omega

end grid

end Divided

/-- What is made of a chain lies in the bands of its lines. -/
theorem band_of_around {ss : List Sibling} {w : Box} (hc : chain ∈ chains .row (Line.collect .row ss))
    (hw : w.Around ((chain.flatMap Track.items).map Sibling.box)) :
    (∃ v ∈ chain, v.line.crossStart ≤ w.top) ∧ ∃ v ∈ chain, w.bottom ≤ v.line.crossStop := by
  obtain ⟨b, hb, htop⟩ : ∃ b : Box, b ∈ _ ∧ b.top = w.top := hw.exists_start .column
  obtain ⟨b', hb', hbottom⟩ : ∃ b' : Box, b' ∈ _ ∧ b'.bottom = w.bottom := hw.exists_stop .column
  obtain ⟨s, hs, rfl⟩ := List.mem_map.1 hb
  obtain ⟨s', hs', rfl⟩ := List.mem_map.1 hb'
  obtain ⟨v, hv, hs⟩ := List.mem_flatMap.1 hs
  obtain ⟨v', hv', hs'⟩ := List.mem_flatMap.1 hs'
  exact ⟨⟨v, hv, htop ▸ (item_of_mem_chains hc hv hs).2.1⟩, v', hv', hbottom ▸ (item_of_mem_chains hc hv' hs').2.2⟩

/-- The lines of the one chain come before those of the other one. -/
def Above (c d : List Track) : Prop := ∀ v ∈ c, ∀ v' ∈ d, v.line.Precedes v'.line

section pairs

variable {parts : Sibling → List Box} {ss : List Sibling} {all : List Box} {c : List Track} {t u : Track}
  {rest : List Track} {rowGap : Int} {p q : Box} (h : Divided parts ss all)
  (hd : t :: u :: rest ∈ chains .row (Line.collect .row ss)) (hg : gridGap (t :: u :: rest) = some rowGap)
  (hq : q.Around (((t :: u :: rest).flatMap Track.items).map Sibling.box))
  (hc : c ∈ chains .row (Line.collect .row ss)) (hp : p.Around ((c.flatMap Track.items).map Sibling.box))

include h hd hg hq hc hp

/-- What is made of another chain does not nearly have the box of a grid. -/
theorem not_same_grid_of_chain (horder : Above c (t :: u :: rest) ∨ Above (t :: u :: rest) c) : p.same q = false := by
  obtain ⟨hgap, -⟩ := gridGap_eq_some hg
  obtain ⟨⟨v, hv, htop⟩, v', hv', hbottom⟩ := band_of_around hc hp
  have hinside := h.grid_inside hd hgap hq
  rw [Bool.eq_false_iff, ne_eq, same_edges]
  simp only [Level, start, stop]
  intro hs
  rcases horder with ho | ho
  · have := ho v' hv' t (by simp)
    unfold Line.Precedes at this
    omega
  · have := ho u (by simp) v hv
    unfold Line.Precedes at this
    omega

/-- A chain above a grid ends before the first row of the grid does. -/
theorem above_grid (horder : Above c (t :: u :: rest)) :
    t.line.crossStart ≤ q.top ∧ p.bottom + 1 ≤ t.line.crossStop ∧ ∀ v ∈ c, v.line.crossStart + 1 ≤ t.line.crossStart := by
  obtain ⟨⟨w, hw, htop⟩, -⟩ := band_of_around hd hq
  obtain ⟨-, v', hv', hbottom⟩ := band_of_around hc hp
  have hordered := List.pairwise_cons.1 ((pairwise_chains _ h.precedes).1 _ hd)
  have hfirst : t.line.crossStart ≤ w.line.crossStart := by
    rcases List.mem_cons.1 hw with rfl | hw
    · exact le_rfl
    · exact (hordered.1 w hw).1.le
  have ho := horder v' hv' t (by simp)
  unfold Line.Precedes at ho
  exact ⟨hfirst.trans htop, by omega, fun v hv => (horder v hv t (by simp)).1⟩

end pairs

/-- The cells of a table are lower than the table. -/
theorem height_lt_of_rows {rows : List Line} {w : Box} (hrows : rows.Pairwise Line.Precedes)
    (hspans : ∀ l ∈ rows, l.Spans .column) (hlen : 2 ≤ rows.length)
    (hw : w.Around ((rows.flatMap (·.items)).map Sibling.box)) {s : Sibling} (hs : s ∈ rows.flatMap (·.items)) :
    s.box.height < w.height := by
  obtain ⟨l, hl, hsl⟩ := List.mem_flatMap.1 hs
  have edges {m : Line} (hm : m ∈ rows) {x : Sibling} (hx : x ∈ m.items) : (w.top ≤ x.box.top ∧ x.box.bottom ≤ w.bottom) ∧
      m.crossStart ≤ x.box.top ∧ x.box.bottom ≤ m.crossStop :=
    ⟨(frames_edges.1 (hw.frames _ (List.mem_map_of_mem (List.mem_flatMap.2 ⟨m, hm, hx⟩)))).2, (hspans m hm).start_le hx,
      (hspans m hm).stop_le hx⟩
  have hse := edges hl hsl
  have other {m : Line} (hm : m ∈ rows) (ho : l.Precedes m ∨ m.Precedes l) : s.box.height < w.height := by
    obtain ⟨x, hx, htop⟩ := (hspans m hm).isLeast.1
    obtain ⟨y, hy, hbottom⟩ := (hspans m hm).isGreatest.1
    have hxe := edges hm hx
    have hye := edges hm hy
    simp only [Line.Precedes, start, stop, bottom] at *
    omega
  cases rows with
  | nil => cases hl
  | cons a rows =>
    have hab := (List.pairwise_cons.1 hrows).1
    rcases List.mem_cons.1 hl with rfl | hl
    · obtain ⟨b, hb⟩ := List.exists_mem_of_length_pos (Nat.lt_of_succ_lt_succ hlen)
      exact other (List.mem_cons_of_mem _ hb) (.inl (hab b hb))
    · exact other List.mem_cons_self (.inr (hab l hl))

namespace Track

variable {t : Track} {w : Box} (h : t.Found .column) (hpos : ∀ s ∈ t.items, 0 < s.box.height)
  (hw : ∀ s ∈ t.items, w.Frames s.box) (h2 : w.height = 2)

include h hpos hw h2

/-- In a column of two lines of pixels, of two items in order, of which the first ends its group, one is flat. -/
theorem flat_or_flat {p q : Nat} (hp : t.run.period ≤ p + 1) (hpq : p < q) (hq : q < t.items.length) :
    (t.items[p].box.height = 1 ∨ t.items[q].box.height = 1) ∧
      (t.items[p].box.height ≠ 1 → t.items[q].box.top = w.top + 1) := by
  have hle := h.stops_le_starts hpq (h.fits.length_items ▸ hq)
  rw [if_neg (by omega), (edges_of_getElem? (List.getElem?_eq_getElem (by omega : p < t.items.length)) .column).2,
    (edges_of_getElem? (List.getElem?_eq_getElem hq) .column).1] at hle
  have edges {i : Nat} (hi : i < t.items.length) : (w.top ≤ t.items[i].box.top ∧ t.items[i].box.bottom ≤ w.bottom) ∧
      0 < t.items[i].box.height :=
    ⟨(frames_edges.1 (hw _ (List.getElem_mem hi))).2, hpos _ (List.getElem_mem hi)⟩
  have hpe := edges (by omega : p < t.items.length)
  have hqe := edges hq
  simp only [start, stop, bottom] at *
  omega

theorem exists_flat : ∃ s ∈ t.items, s.box.height = 1 := by
  have hlen := h.fits.length_items
  have hperiod := h.longest.period
  have hgroups := Nat.mul_le_mul_left t.run.period h.longest.groups
  have hq : t.run.period < t.items.length := by omega
  rcases (flat_or_flat h hpos hw h2 (by omega) (by omega : t.run.period - 1 < t.run.period) hq).1 with hflat | hflat
  · exact ⟨_, List.getElem_mem _, hflat⟩
  · exact ⟨_, List.getElem_mem _, hflat⟩

/-- A column of three groups has two flat items. -/
theorem exists_two_flat (h3 : 3 ≤ t.run.groups) : ∃ p q, ∃ (hp : p < q) (hq : q < t.items.length),
    t.items[p].box.height = 1 ∧ t.items[q].box.height = 1 := by
  have hlen := h.fits.length_items
  have hperiod := h.longest.period
  have hgroups := Nat.mul_le_mul_left t.run.period h3
  have hq : t.run.period * 2 < t.items.length := by omega
  have hab := flat_or_flat h hpos hw h2 (by omega) (by omega : t.run.period - 1 < t.run.period) (by omega)
  have hac := flat_or_flat h hpos hw h2 (by omega) (by omega : t.run.period - 1 < t.run.period * 2) hq
  have hbc := flat_or_flat h hpos hw h2 (by omega) (by omega : t.run.period < t.run.period * 2) hq
  by_cases ha : t.items[t.run.period - 1].box.height = 1
  · rcases hbc.1 with hb | hc
    · exact ⟨_, _, by omega, _, ha, hb⟩
    · exact ⟨_, _, by omega, hq, ha, hc⟩
  · exact ⟨_, _, by omega, hq, hab.1.resolve_left ha, hac.1.resolve_left ha⟩

end Track

/-- A list has three items or more. -/
theorem three_le_members {role : Role} (h : Enlists axis chain role) (hfound : ∀ t ∈ chain, t.Found axis) :
    3 ≤ (chain.flatMap Track.items).length := by
  have length {t : Track} (ht : t ∈ chain) : t.run.groups ≤ t.items.length := by
    rw [(hfound t ht).fits.length_items]
    exact Nat.le_mul_of_pos_left _ (hfound t ht).longest.period
  have two {chain : List Track} (hl : 2 ≤ chain.length) (hfound : ∀ t ∈ chain, t.Found axis)
      (length : ∀ t ∈ chain, t.run.groups ≤ t.items.length) : 3 ≤ (chain.flatMap Track.items).length := by
    match chain, hl with
    | t :: u :: rest, _ =>
      have ht := length t (by simp)
      have hu := length u (by simp)
      have htg := (hfound t (by simp)).longest.groups
      have hug := (hfound u (by simp)).longest.groups
      rw [List.flatMap_cons, List.flatMap_cons, List.length_append, List.length_append]
      omega
  cases h with
  | single hg =>
    rw [List.flatMap_singleton]
    exact hg.trans (length (List.mem_singleton_self _))
  | zipped hl => exact two hl hfound fun t => length
  | grid hl => exact two hl hfound fun t => length

/-- A list in a column of two lines of pixels has two flat items. -/
theorem exists_flat_members {role : Role} (h : Enlists .column chain role) (hfound : ∀ t ∈ chain, t.Found .column)
    (hnodup : (chain.flatMap Track.items).Nodup) {w : Box} (h2 : w.height = 2)
    (hw : ∀ s ∈ chain.flatMap Track.items, w.Frames s.box ∧ 0 < s.box.height) :
    ∃ s ∈ chain.flatMap Track.items, ∃ s' ∈ chain.flatMap Track.items, s ≠ s' ∧ s.box.height = 1 ∧ s'.box.height = 1 := by
  have mem {t : Track} (ht : t ∈ chain) {s : Sibling} (hs : s ∈ t.items) : s ∈ chain.flatMap Track.items :=
    List.mem_flatMap.2 ⟨t, ht, hs⟩
  have flat {t : Track} (ht : t ∈ chain) : ∃ s ∈ t.items, s.box.height = 1 :=
    Track.exists_flat (hfound t ht) (fun s hs => (hw s (mem ht hs)).2) (fun s hs => (hw s (mem ht hs)).1) h2
  cases h with
  | @single _ t hg =>
    have ht : t ∈ [t] := List.mem_singleton_self t
    obtain ⟨p, q, hpq, hq, hps, hqs⟩ := Track.exists_two_flat (hfound t ht) (fun s hs => (hw s (mem ht hs)).2)
      (fun s hs => (hw s (mem ht hs)).1) h2 hg
    refine ⟨_, mem ht (List.getElem_mem _), _, mem ht (List.getElem_mem hq), fun he => ?_, hps, hqs⟩
    rw [List.flatMap_singleton] at hnodup
    exact hpq.ne ((hnodup.getElem_inj_iff).1 he)
  | zipped hl =>
    match chain, hl with
    | t :: u :: rest, _ =>
      obtain ⟨s, hs, hsf⟩ := flat (by simp : t ∈ t :: u :: rest)
      obtain ⟨s', hs', hsf'⟩ := flat (by simp : u ∈ t :: u :: rest)
      refine ⟨s, mem (by simp) hs, s', mem (by simp) hs', ?_, hsf, hsf'⟩
      rintro rfl
      rw [List.flatMap_cons, List.flatMap_cons] at hnodup
      exact (List.nodup_append.1 hnodup).2.2 s hs s (List.mem_append_left _ hs') rfl

end FlexRecovery.Regroup
