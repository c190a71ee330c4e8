import FlexRecovery.Proofs.Listing
import FlexRecovery.Proofs.Spans
import Mathlib.Algebra.Order.Group.Int
import Mathlib.Algebra.Order.Group.Abs

/-!
The edges of the items of a run. The items stand in order. From the last item of the first group on, each ends before
the next one begins, up to the tolerance, and the gap after it is close to the one a period earlier. The gaps within
the first group are compared with those of the second one only, and may be one pixel tighter.
-/

namespace FlexRecovery

theorem Box.getElem?_gaps (axis : Axis) {bs : List Box} {i : Nat} {a b : Box} (ha : bs[i]? = some a)
    (hb : bs[i + 1]? = some b) : (gaps axis bs)[i]? = some (b.start axis - a.stop axis) := by
  induction bs generalizing i with
  | nil => cases ha
  | cons c bs ih =>
    match bs, i with
    | [], _ => cases hb
    | d :: bs, 0 =>
      obtain rfl := Option.some.inj ha
      obtain rfl := Option.some.inj hb
      rfl
    | d :: bs, i + 1 => exact ih ha hb

namespace Regroup

variable {axis : Axis}

/-- Gap `i` is no overlap, and close to the one a period earlier if that lies in the run. -/
theorem Run.gapFits_iff {gaps : List Int} {start period i : Nat} : Run.gapFits gaps start period i = true ↔
    ∃ g, gaps[i]? = some g ∧ -1 ≤ g ∧
      (start + period ≤ i → ∃ h, gaps[i - period]? = some h ∧ g - h ≤ 1 ∧ h - g ≤ 1) := by
  unfold Run.gapFits
  cases gaps[i]? with
  | none => simp
  | some g =>
    simp only [Bool.and_eq_true, Bool.or_eq_true, decide_eq_true_eq, Option.any_eq_true, close_iff, Option.some.injEq,
      exists_eq_left', ← Nat.not_lt]
    rw [imp_iff_not_or, not_not, Tuning.tolerance]

/-- Each group lies in its run. -/
theorem Run.group_le (period : Nat) {groups k : Nat} (hk : k < groups) : k * period + period ≤ period * groups := by
  rw [← Nat.succ_mul, Nat.mul_comm]
  exact Nat.mul_le_mul_left _ hk

/-- From the one after the first group on, a gap of a run is right before or within one of the later groups: that of the
item after it. -/
theorem Run.exists_group {start period groups i : Nat} (hp : 1 ≤ period) (hfirst : start + period ≤ i + 1)
    (hlast : i + 1 < start + period * groups) :
    ∃ k j, 1 ≤ k ∧ k < groups ∧ j < period ∧ start + k * period - 1 + j = i := by
  have hdiv := Nat.div_add_mod (i + 1 - start) period
  have hmod := Nat.mod_lt (i + 1 - start) hp
  have hk : 1 ≤ (i + 1 - start) / period := (Nat.one_le_div_iff hp).2 (by omega)
  have hle := Nat.mul_le_mul_right period hk
  refine ⟨(i + 1 - start) / period, (i + 1 - start) % period, hk, Nat.div_lt_of_lt_mul (by omega), hmod, ?_⟩
  rw [Nat.mul_comm] at hdiv
  omega

namespace Track

/-- The leading edge of an item of the run. -/
def starts (axis : Axis) (t : Track) (q : Nat) : Int := (t.items[q]?).elim 0 fun s => s.box.start axis

/-- The trailing edge of an item of the run. -/
def stops (axis : Axis) (t : Track) (q : Nat) : Int := (t.items[q]?).elim 0 fun s => s.box.stop axis

/-- Where a group of a line begins. -/
def lead (axis : Axis) (t : Track) (k : Nat) : Int := t.starts axis (k * t.run.period)

/-- The space between an item and the next one. -/
def gap (axis : Axis) (t : Track) (q : Nat) : Int := t.starts axis (q + 1) - t.stops axis q

/-- Has the run of its line, which stands in order. -/
structure Found (axis : Axis) (t : Track) : Prop where
  longest : t.run.Longest axis t.line.items
  sorted : t.line.items.Pairwise fun a b => a.box.start axis ≤ b.box.start axis

theorem found_of_mem_chains {ss : List Sibling} {chain : List Track} (hc : chain ∈ chains axis (Line.collect axis ss)) :
    ∀ t ∈ chain, t.Found axis := by
  intro t ht
  obtain ⟨hline, hrun⟩ := (tracks_of_mem_chains hc).1 t ht
  exact ⟨Run.longest_of_find hrun, Line.sorted_of_mem_collect hline⟩

variable {t : Track} {k q : Nat}

theorem start_le_stop (axis : Axis) (t : Track) (q : Nat) : t.starts axis q ≤ t.stops axis q := by
  unfold starts stops
  cases t.items[q]? with
  | none => exact le_rfl
  | some s => exact s.box.start_le_stop axis

theorem edges_of_getElem? {s : Sibling} (h : t.items[q]? = some s) (axis : Axis) :
    t.starts axis q = s.box.start axis ∧ t.stops axis q = s.box.stop axis := by
  rw [starts, stops, h]
  exact ⟨rfl, rfl⟩

theorem Fits.length_items (h : t.Fits) : t.items.length = t.run.period * t.run.groups := by
  have := h.inside
  rw [items, Run.items, Run.length, List.length_take, List.length_drop]
  omega

theorem getElem?_items (hq : q < t.run.period * t.run.groups) :
    t.items[q]? = t.line.items[t.run.start + q]? := by
  rw [items, Run.items, Run.length, List.getElem?_take_of_lt hq, List.getElem?_drop]

/-- The members of a group, by their numbers. -/
theorem getElem?_group (hk : k < t.run.groups) (hq : q < t.run.period) :
    (t.group k)[q]? = t.items[k * t.run.period + q]? := by
  have hlt : k * t.run.period + q < t.run.period * t.run.groups := by
    have := Run.group_le t.run.period hk
    omega
  rw [getElem?_items hlt, group, Run.group, List.getElem?_take_of_lt hq, List.getElem?_drop, Nat.add_assoc]

namespace Found

variable (h : t.Found axis)

include h

theorem fits : t.Fits := h.longest.fits

theorem starts_le {p : Nat} (hpq : p ≤ q) (hq : q < t.run.period * t.run.groups) :
    t.starts axis p ≤ t.starts axis q := by
  rcases Nat.eq_or_lt_of_le hpq with rfl | hlt
  · exact le_rfl
  · have sorted := h.sorted.sublist (Run.items_sublist t.run t.line.items)
    change t.items.Pairwise _ at sorted
    have hlen := h.fits.length_items
    have := List.pairwise_iff_getElem.1 sorted p q (by omega) (by omega) hlt
    rwa [← (edges_of_getElem? (List.getElem?_eq_getElem (by omega : p < t.items.length)) axis).1,
      ← (edges_of_getElem? (List.getElem?_eq_getElem (by omega : q < t.items.length)) axis).1] at this

theorem getElem?_gaps (hq : q + 1 < t.run.period * t.run.groups) :
    (Box.gaps axis (t.line.items.map Sibling.box))[t.run.start + q]? = some (t.gap axis q) := by
  have hlen := h.fits.length_items
  have ha := List.getElem?_eq_getElem (by omega : q < t.items.length)
  have hb := List.getElem?_eq_getElem (by omega : q + 1 < t.items.length)
  have hgap : t.gap axis q = t.items[q + 1].box.start axis - t.items[q].box.stop axis := by
    rw [gap, (edges_of_getElem? hb axis).1, (edges_of_getElem? ha axis).2]
  rw [getElem?_items (by omega)] at ha hb
  rw [hgap]
  apply Box.getElem?_gaps
  · rw [List.getElem?_map, ha]
    rfl
  · rw [List.getElem?_map, Nat.add_assoc, hb]
    rfl

/-- What each gap after the first group and each gap before a later group was checked for. -/
theorem gap_fits (hp : t.run.period ≤ q + 1) (hq : q + 1 < t.run.period * t.run.groups) : -1 ≤ t.gap axis q ∧
    (t.run.period ≤ q → t.gap axis q - t.gap axis (q - t.run.period) ≤ 1 ∧
      t.gap axis (q - t.run.period) - t.gap axis q ≤ 1) := by
  obtain ⟨k, i, hk, hk', hi, hat⟩ := Run.exists_group h.longest.period
    (by omega : t.run.start + t.run.period ≤ t.run.start + q + 1)
    (by omega : t.run.start + q + 1 < t.run.start + t.run.period * t.run.groups)
  have hc := h.longest.continues hk hk'
  simp only [Run.continues, Run.repeatsGaps, Bool.and_eq_true, List.all_eq_true, List.mem_range] at hc
  have hfits := hc.2 _ hi
  rw [hat, Run.gapFits_iff, h.getElem?_gaps hq] at hfits
  obtain ⟨g, hg, hover, hclose⟩ := hfits
  obtain rfl := Option.some.inj hg
  refine ⟨hover, fun hle => ?_⟩
  obtain ⟨g, hg, hclose⟩ := hclose (by omega)
  rw [Nat.add_sub_assoc hle, h.getElem?_gaps (by omega)] at hg
  obtain rfl := Option.some.inj hg
  exact hclose

/-- An item ends before the next one begins. Within the first group that is known of the second one only. -/
theorem stops_le_next (hq : q + 1 < t.run.period * t.run.groups) :
    t.stops axis q ≤ t.starts axis (q + 1) + if q + 1 < t.run.period then 2 else 1 := by
  have hgroups := Nat.mul_le_mul_left t.run.period h.longest.groups
  split
  · next hlt =>
    obtain ⟨hover, hclose⟩ := h.gap_fits (q := q + t.run.period) (by omega) (by omega)
    have := hclose (by omega)
    rw [Nat.add_sub_cancel] at this
    unfold gap at *
    omega
  · have := (h.gap_fits (by omega) hq).1
    unfold gap at this
    omega

theorem stops_le_starts {p : Nat} (hpq : p < q) (hq : q < t.run.period * t.run.groups) :
    t.stops axis p ≤ t.starts axis q + if p + 1 < t.run.period then 2 else 1 := by
  have hnext := h.stops_le_next (q := p) (by omega)
  have hle := h.starts_le (p := p + 1) hpq hq
  omega

theorem length_group (hk : k < t.run.groups) : (t.group k).length = t.run.period :=
  Run.Fits.length_group h.fits hk

/-- The member of a group with a number of the run. -/
theorem exists_mem_group (hk : k < t.run.groups) (hq : q < t.run.period) : ∃ s ∈ t.group k,
    t.starts axis (k * t.run.period + q) = s.box.start axis ∧ t.stops axis (k * t.run.period + q) = s.box.stop axis := by
  have hlt : q < (t.group k).length := by rwa [h.length_group hk]
  have hs := List.getElem?_eq_getElem hlt
  refine ⟨_, List.getElem_mem hlt, edges_of_getElem? ?_ axis⟩
  rw [← getElem?_group hk hq, hs]

/-- The number that a member of a group has in the run. -/
theorem number_of_mem_group (hk : k < t.run.groups) {s : Sibling} (hs : s ∈ t.group k) : ∃ q < t.run.period,
    t.starts axis (k * t.run.period + q) = s.box.start axis ∧ t.stops axis (k * t.run.period + q) = s.box.stop axis := by
  obtain ⟨q, hq⟩ := List.getElem?_of_mem hs
  have hlt : q < t.run.period := by
    have := (List.getElem?_eq_some_iff.1 hq).1
    rwa [h.length_group hk] at this
  rw [getElem?_group hk hlt] at hq
  exact ⟨q, hlt, edges_of_getElem? hq axis⟩

theorem around_group (hk : k < t.run.groups) : (Sibling.hull (t.group k)).Around ((t.group k).map Sibling.box) := by
  have hlen := h.length_group hk
  have hperiod := h.longest.period
  exact Box.around_hull (List.ne_nil_of_length_pos (by rw [List.length_map]; omega))

/-- A group begins with its first member. -/
theorem start_group (hk : k < t.run.groups) :
    (Sibling.hull (t.group k)).start axis = t.lead axis k := by
  have hull := h.around_group hk
  obtain ⟨s, hs, hfirst, -⟩ := h.exists_mem_group hk h.longest.period
  unfold lead
  apply le_antisymm
  · rw [← Nat.add_zero (k * t.run.period), hfirst]
    exact hull.start_le (List.mem_map_of_mem hs) axis
  · obtain ⟨b, hb, hstart⟩ := hull.exists_start axis
    obtain ⟨u, hu, rfl⟩ := List.mem_map.1 hb
    obtain ⟨q, hq, hat, -⟩ := h.number_of_mem_group hk hu
    rw [← hstart, ← hat]
    have := Run.group_le t.run.period hk
    exact h.starts_le (by omega) (by omega)

/-- A group ends before a later item begins, up to the tolerance, or twice that for the first group. -/
theorem stop_group_le (hk : k < t.run.groups) (hlt : (k + 1) * t.run.period ≤ q) (hq : q < t.run.period * t.run.groups) :
    (Sibling.hull (t.group k)).stop axis ≤ t.starts axis q + if k = 0 ∧ t.run.period ≠ 1 then 2 else 1 := by
  obtain ⟨b, hb, hstop⟩ := (h.around_group hk).exists_stop axis
  obtain ⟨u, hu, rfl⟩ := List.mem_map.1 hb
  obtain ⟨p, hp, -, hat⟩ := h.number_of_mem_group hk hu
  rw [Nat.succ_mul] at hlt
  have hle := h.stops_le_starts (p := k * t.run.period + p) (by omega) hq
  rw [← hstop, ← hat]
  rcases Nat.eq_zero_or_pos k with rfl | hk
  · split_ifs at hle ⊢ <;> omega
  · have := Nat.mul_le_mul_right t.run.period hk
    split_ifs at hle ⊢ <;> omega

end Found

/-- Where an item of the run begins, measured from the first one. -/
theorem getElem?_offsets (axis : Axis) (t : Track) (q : Nat) :
    (t.offsets axis)[q]? = (t.items[q]?).map fun _ => t.starts axis q - t.starts axis 0 := by
  unfold offsets
  cases hi : t.items with
  | nil => rfl
  | cons s rest =>
    have hfirst := (edges_of_getElem? (by rw [hi]; rfl : t.items[0]? = some s) axis).1
    dsimp only
    rw [List.getElem?_map, ← hi, hfirst]
    cases hq : t.items[q]? with
    | none => rfl
    | some u => rw [Option.map_some, Option.map_some, (edges_of_getElem? hq axis).1]

theorem Found.offset (h : t.Found axis) (hq : q < t.run.period * t.run.groups) :
    (t.offsets axis)[q]? = some (t.starts axis q - t.starts axis 0) := by
  rw [getElem?_offsets, List.getElem?_eq_getElem (h.fits.length_items.symm ▸ hq)]
  rfl

theorem period_of_sameStructure {u : Track} (h : t.sameStructure axis u = true) :
    t.run.period = u.run.period ∧ t.run.groups = u.run.groups := by
  simp only [sameStructure, Bool.and_eq_true, beq_iff_eq] at h
  exact h.1

/-- Items of one number lie where the others do, up to the tolerance, seen from the first item of their line. -/
theorem near_of_sameStructure {u : Track} (ht : t.Found axis) (hu : u.Found axis) (h : t.sameStructure axis u = true)
    (hq : q < t.run.period * t.run.groups) :
    close (t.starts axis q - t.starts axis 0) (u.starts axis q - u.starts axis 0) = true := by
  obtain ⟨hp, hg⟩ := period_of_sameStructure h
  simp only [sameStructure, Bool.and_eq_true] at h
  have hoffsets := List.getElem?_zip_eq_some (z := (_, _)).2 ⟨ht.offset hq, hu.offset (by rwa [← hp, ← hg])⟩
  exact List.all_eq_true.1 h.2 _ (List.mem_of_getElem? hoffsets)

end Track

/-- The lines of some siblings in which neighbours repeat one structure. -/
def Detected (axis : Axis) (chain : List Track) : Prop :=
  ∃ ts, chain ∈ chains axis (Line.collect axis (Sibling.list ts))

namespace Detected

variable {chain : List Track} (h : Detected axis chain)

include h

theorem found : ∀ t ∈ chain, t.Found axis := by
  obtain ⟨_, hc⟩ := h
  exact Track.found_of_mem_chains hc

theorem isChain : chain.IsChain fun t u => t.sameStructure axis u = true := by
  obtain ⟨_, hc⟩ := h
  exact (tracks_of_mem_chains hc).2

theorem ordered : chain.Pairwise fun t u => t.line.crossStart ≤ u.line.crossStart := by
  obtain ⟨_, hc⟩ := h
  have hlines := (Line.pairwise_collect _ _).sublist (lines_sublist hc)
  rwa [List.pairwise_map] at hlines

/-- All lines repeat groups of one length equally often. -/
theorem period_eq {t u : Track} (ht : t ∈ chain) (hu : u ∈ chain) :
    t.run.period = u.run.period ∧ t.run.groups = u.run.groups := by
  let shape (t : Track) := (t.run.period, t.run.groups)
  have hchain : (chain.map shape).IsChain (· = ·) :=
    (List.isChain_map shape).2 (h.isChain.imp fun _ _ hs => Prod.ext_iff.2 (Track.period_of_sameStructure hs))
  have hall := (List.isChain_iff_pairwise.1 hchain).forall_of_forall fun _ _ => rfl
  exact Prod.ext_iff.1 (hall (List.mem_map_of_mem ht) (List.mem_map_of_mem hu))

/-- Lines are compared with their neighbours only, so where the items of one number lie drifts by a pixel a line. -/
theorem drift {l m : Nat} (hlm : l ≤ m) (hm : m < chain.length) {q : Nat}
    (hq : q < chain[l].run.period * chain[l].run.groups) :
    |(chain[m].starts axis q - chain[m].starts axis 0) - (chain[l].starts axis q - chain[l].starts axis 0)| ≤ m - l := by
  induction m, hlm using Nat.le_induction with
  | base => simp
  | succ m hlm ih =>
    have hsame := List.isChain_iff_getElem.1 h.isChain m hm
    have hp := h.period_eq (List.getElem_mem (by omega : l < chain.length)) (List.getElem_mem (by omega : m < chain.length))
    have hnear := close_iff.1 (Track.near_of_sameStructure (h.found _ (List.getElem_mem _)) (h.found _ (List.getElem_mem _))
      hsame (by rwa [← hp.1, ← hp.2]))
    have := ih (by omega)
    rw [abs_le] at this ⊢
    push_cast
    omega

end Detected

end Regroup

end FlexRecovery
