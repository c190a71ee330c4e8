import FlexRecovery.Proofs.Enlisting
import FlexRecovery.Proofs.Flexbox.Wrapping

/-!
Where a wrapping list puts its items. It states the gap of the first line and the gap after it. A gap is compared with
the one before it, a line with the line above, each line from its own first item on, so the gaps may drift away from
the ones that are stated and a line may begin anywhere.
-/

namespace FlexRecovery.Regroup

open Tuning Flexbox

variable {axis : Axis} {chain : List Track} {t : Track} {c l : Nat} {b : Box} {g across along : Int}

namespace Track

/-- The boxes of the items of a line. -/
def row (t : Track) : List Box := t.parts.map Sibling.hull

/-- What the highest item leaves of the band of its line. -/
def spare (t : Track) : Int := t.line.crossStop - t.line.crossStart - tallest t.row

/-- Where a line begins, as high as its highest item. -/
def band (t : Track) : Box := ⟨0, t.line.crossStart, 0, tallest t.row⟩

/-- Begins at the left edge of its list, keeps its gaps close to the one that is stated, and its items fill its band. -/
structure Square (across : Int) (origin : Box) (t : Track) : Prop where
  begins : t.lead .row 0 = origin.left
  even : ∀ g ∈ Box.gaps .row t.row, |g - across| ≤ tolerance
  level : ∀ b ∈ t.row, b.top = t.line.crossStart
  filled : t.spare = 0

theorem getElem?_row (hb : t.row[c]? = some b) : c < t.run.groups ∧ b = Sibling.hull (t.group c) := by
  obtain ⟨hc, rfl⟩ := List.getElem?_eq_some_iff.1 hb
  simp only [row, parts, List.length_map, List.length_range] at hc
  refine ⟨hc, ?_⟩
  simp [row, parts]

theorem length_row (t : Track) : t.row.length = t.run.groups := by
  simp [row, parts]

theorem flatten_row (chain : List Track) :
    (chain.map row).flatten = (chain.flatMap parts).map Sibling.hull := by
  rw [List.map_flatMap]
  rfl

/-- The groups of all lines, one after another, are their items. -/
theorem flatten_parts (chain : List Track) : (chain.flatMap parts).flatten = chain.flatMap items := by
  rw [← List.flatMap_id, List.flatMap_assoc]
  refine List.flatMap_congr fun t _ => ?_
  rw [parts, List.flatMap_map, ← t.flatMap_group]
  rfl

namespace Found

variable (h : t.Found axis)

include h

theorem groupGap_eq : groupGap axis t = t.gap axis (t.run.period - 1) := by
  have hp := h.longest.period
  have hg := h.longest.groups
  have hlen := h.fits.length_items
  have htwo := Run.group_le t.run.period hg
  have hlast := List.getElem?_eq_getElem (l := t.items) (i := t.run.period - 1) (by omega)
  have hfirst := List.getElem?_eq_getElem (l := t.items) (i := t.run.period) (by omega)
  have hend : (t.group 0).getLast? = t.items[t.run.period - 1]? := by
    rw [List.getLast?_eq_getElem?, h.length_group (by omega), getElem?_group (by omega) (by omega), Nat.zero_mul,
      Nat.zero_add]
  have hbegin : (t.group 1).head? = t.items[t.run.period]? := by
    rw [List.head?_eq_getElem?, getElem?_group (by omega) (by omega), Nat.one_mul, Nat.add_zero]
  rw [groupGap, hend, hbegin, hlast, hfirst, gap, Nat.sub_add_cancel hp, (edges_of_getElem? hfirst axis).1,
    (edges_of_getElem? hlast axis).2]

/-- The gap between two groups. -/
theorem gap_row (hg : (Box.gaps axis t.row)[c]? = some g) : c + 1 < t.run.groups ∧
    g = t.lead axis (c + 1) - (Sibling.hull (t.group c)).stop axis := by
  have hlt := (List.getElem?_eq_some_iff.1 hg).1
  rw [length_gaps, length_row] at hlt
  have hb := List.getElem?_eq_getElem (by rw [length_row]; omega : c < t.row.length)
  have hb' := List.getElem?_eq_getElem (by rw [length_row]; omega : c + 1 < t.row.length)
  rw [Box.getElem?_gaps axis hb hb', (getElem?_row hb).2, (getElem?_row hb').2, h.start_group (by omega)] at hg
  exact ⟨by omega, (Option.some.inj hg).symm⟩

/-- The last member of a group ends at most two pixels before the group does. -/
theorem gap_row_near (hg : (Box.gaps axis t.row)[c]? = some g) :
    g ≤ t.gap axis ((c + 1) * t.run.period - 1) ∧ t.gap axis ((c + 1) * t.run.period - 1) ≤ g + 2 := by
  obtain ⟨hc, rfl⟩ := h.gap_row hg
  have hp := h.longest.period
  have hlt := Run.group_le t.run.period (by omega : c < t.run.groups)
  have hsucc : (c + 1) * t.run.period = c * t.run.period + t.run.period := Nat.succ_mul _ _
  have hlast : (c + 1) * t.run.period - 1 = c * t.run.period + (t.run.period - 1) := by omega
  rw [gap, Nat.sub_add_cancel (by omega), hlast, lead]
  have around := h.around_group (k := c) (by omega)
  constructor
  · obtain ⟨s, hs, -, hstop⟩ := h.exists_mem_group (k := c) (q := t.run.period - 1) (by omega) (by omega)
    have := around.stop_le (List.mem_map_of_mem hs) axis
    omega
  · obtain ⟨d, hd, hstop⟩ := around.exists_stop axis
    obtain ⟨s, hs, rfl⟩ := List.mem_map.1 hd
    obtain ⟨q, hq, -, hat⟩ := h.number_of_mem_group (by omega) hs
    rw [← hstop, ← hat]
    rcases Nat.lt_or_eq_of_le (Nat.le_sub_one_of_lt hq) with hbefore | rfl
    · have hle := h.stops_le_starts (p := c * t.run.period + q) (q := c * t.run.period + (t.run.period - 1)) (by omega)
        (by omega)
      have := t.start_le_stop axis (c * t.run.period + (t.run.period - 1))
      split_ifs at hle <;> omega
    · omega

/-- The gaps after the groups drift by a pixel with each group. -/
theorem gap_drift (hc : c + 1 < t.run.groups) :
    |t.gap axis ((c + 1) * t.run.period - 1) - t.gap axis (t.run.period - 1)| ≤ c := by
  have hp := h.longest.period
  induction c with
  | zero => simp
  | succ c ih =>
    have hprev := abs_le.1 (ih (by omega))
    have hlt := Run.group_le t.run.period hc
    have hsucc : (c + 1 + 1) * t.run.period = (c + 1) * t.run.period + t.run.period := Nat.succ_mul _ _
    have hle := Nat.le_mul_of_pos_left t.run.period (Nat.succ_pos c)
    rw [Nat.succ_eq_add_one] at hle
    have hstep := (h.gap_fits (q := (c + 1 + 1) * t.run.period - 1) (by omega) (by omega)).2 (by omega)
    rw [show (c + 1 + 1) * t.run.period - 1 - t.run.period = (c + 1) * t.run.period - 1 by omega] at hstep
    rw [abs_le]
    push_cast
    omega

end Found

end Track

/-- What is known of the lines of a grid: their items are as large as those of the first line, and the spaces between
the lines are close to the one that is stated. -/
theorem uniform_of_gridGap {first : Track} {rest : List Track} (h : gridGap (first :: rest) = some along) :
    (∀ t ∈ first :: rest, ∀ (q : Nat) (a b : Sibling), t.items[q]? = some a → first.items[q]? = some b →
      sameSize a.box b.box = true) ∧
      ∀ (m : Nat) (t u : Track), (first :: rest)[m]? = some t → (first :: rest)[m + 1]? = some u →
        close (u.line.crossStart - t.line.crossStop) along = true := by
  unfold gridGap at h
  dsimp only at h
  split at h
  · cases h
  · next g gs hspaces =>
    split at h
    · next hall =>
      obtain rfl := Option.some.inj h
      simp only [Bool.and_eq_true, List.all_eq_true] at hall
      obtain ⟨⟨huniform, -⟩, hclose⟩ := hall
      constructor
      · intro t ht q a b ha hb
        have hmem := List.mem_of_getElem? (List.getElem?_zip_eq_some (z := (a, b)).2 ⟨ha, hb⟩)
        exact (huniform t ht _ hmem).2
      · intro m t u ht hu
        have hmem := List.mem_of_getElem? (List.getElem?_zip_eq_some (z := (t, u)).2 ⟨ht, hu⟩)
        exact hclose _ (List.mem_map_of_mem hmem)
    · cases h

namespace Grid

variable {s : Tree} (h : Grid chain across along s)

include h

theorem exists_first : ∃ first rest, chain = first :: rest := by
  have := h.lines
  exact List.exists_cons_of_ne_nil (List.ne_nil_of_length_pos (by omega))

/-- A line lies along the first one, up to a pixel for each line between them, and each item may be a pixel wider. -/
theorem gap_near_first {first : Track} (hfirst : chain[0]? = some first) (ht : chain[l]? = some t) {q : Nat}
    (hq : q + 1 < t.run.period * t.run.groups) : |t.gap .row q - first.gap .row q| ≤ 2 * l + 1 := by
  obtain ⟨hpos, rfl⟩ := List.getElem?_eq_some_iff.1 hfirst
  obtain ⟨hl, rfl⟩ := List.getElem?_eq_some_iff.1 ht
  have hd := h.detected
  obtain ⟨hperiod, hgroups⟩ := hd.period_eq (List.getElem_mem hl) (List.getElem_mem hpos)
  rw [hperiod, hgroups] at hq
  have hstart := abs_le.1 (hd.drift (Nat.zero_le l) hl (q := q) (by omega))
  have hnext := abs_le.1 (hd.drift (Nat.zero_le l) hl hq)
  have hlen := (hd.found _ (List.getElem_mem hl)).fits.length_items
  have hlen' := (hd.found _ (List.getElem_mem hpos)).fits.length_items
  rw [hperiod, hgroups] at hlen
  have ha := List.getElem?_eq_getElem (l := chain[l].items) (i := q) (by omega)
  have hb := List.getElem?_eq_getElem (l := chain[0].items) (i := q) (by omega)
  have hsize : sameSize chain[l].items[q].box chain[0].items[q].box = true := by
    obtain ⟨first, rest, rfl⟩ := h.exists_first
    exact (uniform_of_gridGap h.rowGap).1 _ (List.getElem_mem hl) q _ _ ha hb
  have hwidth := close_iff.1 (Bool.and_eq_true_iff.1 hsize).1
  have hedges := Track.edges_of_getElem? ha .row
  have hedges' := Track.edges_of_getElem? hb .row
  simp only [Box.stop_eq, Box.extent] at hedges hedges'
  unfold Track.gap
  rw [abs_le]
  push_cast at *
  omega

/-- The gaps between the items of a line drift away from the one that is stated, which is the first of all: by a pixel
with each item, by two with each line, since both edges of an item may be off, and by what a group of several items
reaches over its last one. -/
theorem gap_near (ht : chain[l]? = some t) (hg : (Box.gaps .row t.row)[c]? = some g) : |g - across| ≤ c + 2 * l + 3 := by
  obtain ⟨first, rest, rfl⟩ := h.exists_first
  have hmem := List.mem_of_getElem? ht
  have hfound := h.detected.found t hmem
  have hperiod := (h.detected.period_eq hmem (List.mem_cons_self ..)).1
  have hacross : first.gap .row (t.run.period - 1) = across := by
    rw [hperiod, ← (h.detected.found first (List.mem_cons_self ..)).groupGap_eq]
    exact h.columnGap
  have hc := (hfound.gap_row hg).1
  have hreach := hfound.gap_row_near hg
  have hitems := abs_le.1 (hfound.gap_drift hc)
  have hp := hfound.longest.period
  have hone := Run.group_le t.run.period (by omega : 1 < t.run.groups)
  have hlines := abs_le.1 (h.gap_near_first rfl ht (q := t.run.period - 1) (by omega))
  rw [abs_le]
  omega

/-- An item is off by what its line begins off and by what the gaps before it are off. -/
theorem near_left (ht : chain[l]? = some t) (hb : t.row[c]? = some b) :
    ∃ x, (lefts across s.box t.row)[c]? = some x ∧ |x - b.left| ≤
      |s.box.left - t.lead .row 0| + (((Box.gaps .row t.row).take c).map fun g => |g - across|).sum := by
  have hfound := h.detected.found t (List.mem_of_getElem? ht)
  have hgroups := hfound.longest.groups
  have hpos : 0 < t.row.length := by
    rw [t.length_row]
    omega
  have hfirst := List.getElem?_eq_getElem hpos
  have hlead : t.row[0].left = t.lead .row 0 := by
    rw [(Track.getElem?_row hfirst).2]
    exact hfound.start_group (by omega)
  have hnear := exists_pack .row across s.box.left hfirst hb
  simp only [Box.start, hlead] at hnear
  exact hnear

/-- What follows a line is off by a pixel and by what the highest item leaves of the line. -/
theorem gap_bands_near {m : Nat} {u : Track} (hu : chain[m]? = some u)
    (hg : (Box.gaps .column (chain.map Track.band))[m]? = some g) : |g - along| ≤ |u.spare| + 1 := by
  have hlt := (List.getElem?_eq_some_iff.1 hg).1
  rw [length_gaps, List.length_map] at hlt
  have hv := List.getElem?_eq_getElem (l := chain) (i := m + 1) (by omega)
  have hspace : close (chain[m + 1].line.crossStart - u.line.crossStop) along = true := by
    obtain ⟨first, rest, rfl⟩ := h.exists_first
    exact (uniform_of_gridGap h.rowGap).2 m _ _ hu hv
  have hub : (chain.map Track.band)[m]? = some u.band := by rw [List.getElem?_map, hu, Option.map_some]
  have hvb : (chain.map Track.band)[m + 1]? = some chain[m + 1].band := by rw [List.getElem?_map, hv, Option.map_some]
  have heq : g = chain[m + 1].line.crossStart - (u.line.crossStart + tallest u.row) :=
    Option.some.inj (hg.symm.trans (Box.getElem?_gaps .column hub hvb))
  have hspare := abs_le.1 (le_refl |u.spare|)
  have hspace := close_iff.1 hspace
  rw [heq, abs_le]
  unfold Track.spare at *
  omega

/-- A line is off by what the first one begins off, and by the lines above it. -/
theorem near_top {first : Track} (hfirst : chain[0]? = some first) (ht : chain[l]? = some t) :
    ∃ y, (tops along s.box (chain.map Track.row))[l]? = some y ∧ |y - t.line.crossStart| ≤
      |s.box.top - first.line.crossStart| + ((chain.take l).map fun u => |u.spare| + 1).sum := by
  have hb : (chain.map Track.band)[l]? = some t.band := by rw [List.getElem?_map, ht, Option.map_some]
  have hb' : (chain.map Track.band)[0]? = some first.band := by rw [List.getElem?_map, hfirst, Option.map_some]
  have hl := (List.getElem?_eq_some_iff.1 ht).1
  obtain ⟨y, hy, hnear⟩ := exists_pack .column along s.box.top hb' hb
  refine ⟨y, ?_, hnear.trans (add_le_add_right (List.Forall₂.sum_le_sum ?_) _)⟩
  · rw [List.map_map] at hy
    rw [tops, List.map_map]
    exact hy
  · rw [List.forall₂_map_left_iff, List.forall₂_map_right_iff, List.forall₂_iff_get]
    constructor
    · rw [List.length_take, List.length_take, length_gaps, List.length_map]
      omega
    · intro m hm hm'
      rw [List.get_eq_getElem, List.get_eq_getElem, List.getElem_take, List.getElem_take]
      exact h.gap_bands_near (List.getElem?_eq_getElem _) (List.getElem?_eq_getElem _)

/-- The items of the lines are those of the list. -/
theorem flatten_rows : (chain.map Track.row).flatten = s.flow.map Tree.box := by
  rw [Track.flatten_row, ← List.forall₂_eq_eq_eq, List.forall₂_map_left_iff, List.forall₂_map_right_iff]
  exact h.items.imp fun _ _ hh => hh.1.symm

theorem around_rows : s.box.Around (chain.map Track.row).flatten := by
  have hd := h.detected
  have hparts : ∀ p ∈ (chain.flatMap Track.parts).map (·.map Sibling.box), p ≠ [] := by
    intro p hp
    obtain ⟨g, hg, rfl⟩ := List.mem_map.1 hp
    obtain ⟨t, ht, hg⟩ := List.mem_flatMap.1 hg
    obtain ⟨k, hk, rfl⟩ := List.mem_map.1 hg
    have hlen := (hd.found t ht).length_group (List.mem_range.1 hk)
    have hpos := (hd.found t ht).longest.period
    exact List.ne_nil_of_length_pos (by rw [List.length_map]; omega)
  have hne := items_ne_nil h.lines fun t ht => (hd.found t ht).fits
  have around : s.box.Around ((chain.flatMap Track.items).map Sibling.box) := by
    rw [h.box]
    exact Box.around_hull (by simpa using hne)
  rw [← Track.flatten_parts, List.map_flatten] at around
  have := around.parts hparts
  rw [List.map_map] at this
  rw [Track.flatten_row]
  exact this

/-- The list begins with the band of its first line if the items of all lines fill theirs. -/
theorem top_eq {first : Track} (hfirst : chain[0]? = some first)
    (hs : ∀ t ∈ chain, ∀ b ∈ t.row, b.top = t.line.crossStart) : s.box.top = first.line.crossStart := by
  have hmem := List.mem_of_getElem? hfirst
  have hgroups := (h.detected.found first hmem).longest.groups
  apply le_antisymm
  · have hpos : 0 < first.row.length := by
      rw [first.length_row]
      omega
    have hin : first.row[0] ∈ (chain.map Track.row).flatten :=
      List.mem_flatten.2 ⟨first.row, List.mem_map_of_mem hmem, List.getElem_mem hpos⟩
    exact (h.around_rows.start_le hin .column).trans_eq (hs first hmem _ (List.getElem_mem hpos))
  · obtain ⟨b, hb, htop⟩ := h.around_rows.exists_start .column
    obtain ⟨row, hrow, hb⟩ := List.mem_flatten.1 hb
    obtain ⟨t, ht, rfl⟩ := List.mem_map.1 hrow
    have hupper : first.line.crossStart ≤ t.line.crossStart := by
      obtain ⟨first, rest, rfl⟩ := h.exists_first
      obtain rfl := Option.some.inj hfirst
      rcases List.mem_cons.1 ht with rfl | ht
      · exact le_rfl
      · exact (List.pairwise_cons.1 h.detected.ordered).1 t ht
    exact hupper.trans ((hs t ht b hb).symm.trans htop).le

end Grid

/-- Where a wrapping list puts its items, and how far that is from where they were. -/
structure Laid (chain : List Track) (across along : Int) (origin : Box) : Prop where
  left : ∀ (l c : Nat) (t : Track) (b : Box), chain[l]? = some t → t.row[c]? = some b →
    ∃ x, (lefts across origin t.row)[c]? = some x ∧ |x - b.left| ≤
      |origin.left - t.lead .row 0| + (((Box.gaps .row t.row).take c).map fun g => |g - across|).sum
  gap : ∀ (l c : Nat) (t : Track) (g : Int), chain[l]? = some t → (Box.gaps .row t.row)[c]? = some g →
    |g - across| ≤ c + 2 * l + 3
  top : ∀ (l : Nat) (t first : Track), chain[0]? = some first → chain[l]? = some t →
    ∃ y, (tops along origin (chain.map Track.row))[l]? = some y ∧ ∀ b ∈ t.row, |y - b.top| ≤
      |t.line.crossStart - b.top| + |origin.top - first.line.crossStart| +
        ((chain.take l).map fun u => |u.spare| + 1).sum
  reproduces : (∀ t ∈ chain, t.Square across origin) → Reproduces across along origin (chain.map Track.row)

theorem sum_map_le {α : Type} (f : α → Int) (as : List α) (h : ∀ a ∈ as, f a ≤ 1) : (as.map f).sum ≤ as.length := by
  have := List.sum_le_card_nsmul (as.map f) 1 (by simpa using h)
  simpa using this

theorem Grid.laid {s : Tree} (h : Grid chain across along s) : Laid chain across along s.box where
  left := fun _ _ _ _ => h.near_left
  gap := fun _ _ _ _ => h.gap_near
  top := by
    intro l t first hfirst ht
    obtain ⟨y, hy, htop⟩ := h.near_top hfirst ht
    refine ⟨y, hy, fun b _ => ?_⟩
    rw [add_assoc, add_comm |t.line.crossStart - b.top|]
    exact (abs_sub_le y t.line.crossStart b.top).trans (add_le_add_left htop _)
  reproduces := by
    intro hs l c row b hrow hb
    obtain ⟨t, ht, rfl⟩ := Option.map_eq_some_iff.1 ((List.getElem?_map ..).symm.trans hrow)
    have hsquare := hs t (List.mem_of_getElem? ht)
    obtain ⟨first, rest, rfl⟩ := h.exists_first
    obtain ⟨x, hx, hleft⟩ := h.near_left ht hb
    obtain ⟨y, hy, htop⟩ := h.near_top rfl ht
    have hgaps := sum_map_le (fun g => |g - across|) ((Box.gaps .row t.row).take c) fun g hg =>
      hsquare.even g (List.mem_of_mem_take hg)
    have hlines := sum_map_le (fun u => |u.spare| + 1) ((first :: rest).take l) fun u hu => by
      rw [(hs u (List.mem_of_mem_take hu)).filled]
      rfl
    rw [hsquare.begins, sub_self, abs_zero, zero_add] at hleft
    rw [h.top_eq rfl fun t ht => (hs t ht).level, sub_self, abs_zero, zero_add,
      ← hsquare.level b (List.mem_of_getElem? hb)] at htop
    rw [List.length_take] at hgaps hlines
    unfold tolerance
    refine ⟨x, y, hx, hy, hleft.trans ?_, htop.trans ?_⟩ <;> omega

theorem Enlisted.grid_of_role {s : Tree} (h : Enlisted s) (hr : s.node.roles.toList = [.listWrap]) :
    ∃ chain across along, Grid chain across along s := by
  cases h with
  | part h =>
    rw [hr] at h
    simp at h
  | @strip axis chain s h =>
    have := h.role.symm.trans hr
    cases axis <;> cases this
  | @grid chain across along s h => exact ⟨chain, across, along, h⟩

/-- A new wrapping list leaves its items where they were, up to the tolerance for each item and each line before them,
if its lines begin at its left edge, keep their gaps and fill their bands. Otherwise it is off by what they do not. -/
theorem laid_makeLists (t : Tree) (j : Journal) (r : Tree) (hr : r ∈ (makeLists t j).1.flow) :
    Built (fun s => s.node.roles.toList = [.listWrap] → ∃ chain across along,
      Grid chain across along s ∧ Laid chain across along s.box) t.flow r := by
  apply (built_makeLists t j r hr).imp
  intro s hs hrole
  obtain ⟨chain, across, along, h⟩ := hs.grid_of_role hrole
  exact ⟨chain, across, along, h, h.laid⟩

/-- Two lines of boxes, of which the second begins that much further on. -/
def shelves (shift : Int) : Tree :=
  Tree.sheet [⟨0, 0, 40, 40⟩, ⟨100, 0, 40, 40⟩, ⟨200, 0, 40, 40⟩,
    ⟨shift, 60, 40, 40⟩, ⟨shift + 100, 60, 40, 40⟩, ⟨shift + 200, 60, 40, 40⟩]

/-- Lines that begin at one place. -/
theorem laid_makeLists_shelves : ∃ r ∈ (makeLists (shelves 0) {}).1.flow, ∃ chain across along,
    Grid chain across along r ∧ Laid chain across along r.box := by
  have hroles : ((makeLists (shelves 0) {}).1.flow.map fun t => t.node.roles.toList) = [[.listWrap]] := by
    decide +kernel
  obtain ⟨r, hr, hrole⟩ := List.mem_map.1 (hroles ▸ List.mem_singleton_self _)
  refine ⟨r, hr, (laid_makeLists (shelves 0) {} r hr).of_role ?_ hrole (by decide) hrole⟩
  decide

/-- No line but the first begins at the left edge, where the list puts it. -/
theorem shifted_shelves : ¬∀ (t : Tree) (j : Journal), ∀ r ∈ (makeLists t j).1.flow,
    Built (fun s => s.node.roles.toList = [.listWrap] → ∃ chain across along,
      Grid chain across along s ∧ Reproduces across along s.box (chain.map Track.row)) t.flow r := by
  intro h
  have hmade : ((makeLists (shelves 30) {}).1.flow.map fun t =>
      (t.node.roles.toList, t.box.left, t.flow.map fun u => u.box.left)) =
        [([.listWrap], 0, [0, 100, 200, 30, 130, 230])] := by decide +kernel
  obtain ⟨r, hr, he⟩ := List.mem_map.1 (hmade ▸ List.mem_singleton_self _)
  obtain ⟨hrole, hleft, hlefts⟩ : _ ∧ _ ∧ _ := by simpa using he
  obtain ⟨chain, across, along, hgrid, hrep⟩ := (h _ _ r hr).of_role (by decide) hrole (by decide) hrole
  obtain ⟨first, second, rest, rfl⟩ : ∃ first second rest, chain = first :: second :: rest := by
    match chain, hgrid.lines with
    | first :: second :: rest, _ => exact ⟨first, second, rest, rfl⟩
  have hfirst := (hgrid.detected.found first (by simp)).longest.groups
  have hsecond := (hgrid.detected.found second (by simp)).longest.groups
  rw [← Track.length_row] at hfirst hsecond
  -- the box that the second line begins with
  obtain ⟨b, row, hrow⟩ := List.exists_cons_of_ne_nil (List.ne_nil_of_length_pos (by omega : 0 < second.row.length))
  have hb : ([0, 100, 200, 30, 130, 230] : List Int)[first.row.length]? = some b.left := by
    have hrows := congrArg (List.map Box.left) hgrid.flatten_rows
    rw [List.map_map, show Box.left ∘ Tree.box = fun u : Tree => u.box.left from rfl, hlefts] at hrows
    rw [← hrows, List.getElem?_map, List.map_cons, List.map_cons, List.flatten_cons, List.flatten_cons, hrow,
      List.getElem?_append_right le_rfl, Nat.sub_self]
    rfl
  obtain ⟨x, -, hx, -, hnear, -⟩ := hrep 1 0 second.row b rfl (by rw [hrow]; rfl)
  rw [hrow] at hx
  obtain rfl : r.box.left = x := Option.some.inj hx
  have hzero : b.left = 0 := by
    rw [hleft, Nat.cast_zero, zero_mul, zero_sub, abs_neg] at hnear
    exact abs_nonpos_iff.1 hnear
  rw [hzero] at hb
  have hin := (List.getElem?_eq_some_iff.1 hb).1
  have hnone : ∀ n < 6, 2 ≤ n → ([0, 100, 200, 30, 130, 230] : List Int)[n]? ≠ some 0 := by decide
  exact hnone _ hin hfirst hb

end FlexRecovery.Regroup
