import FlexRecovery.Proofs.Siblings
import FlexRecovery.Regroup.Tables
import Mathlib.Data.List.SplitBy

/-!
Lines divide the siblings among themselves, and a run divides a part of its line into groups of one length.
-/

namespace FlexRecovery.Regroup

variable {axis : Axis}

namespace Run

/-- Lies in a line of that length and repeats something. -/
structure Fits (r : Run) (length : Nat) : Prop where
  period : 1 ≤ r.period
  groups : 2 ≤ r.groups
  inside : r.start + r.period * r.groups ≤ length

/-- Repeats something, and as often as it goes on. -/
structure Longest (axis : Axis) (items : List Sibling) (r : Run) : Prop where
  period : 1 ≤ r.period
  groups : 2 ≤ r.groups
  eq_longest : r = longest axis items (Box.gaps axis (items.map Sibling.box)) r.period r.start

/-- Every group after the first continues the run. -/
theorem Longest.continues {items : List Sibling} {r : Run} (h : r.Longest axis items) {k : Nat} (h1 : 1 ≤ k)
    (hk : k < r.groups) :
    continues axis items (Box.gaps axis (items.map Sibling.box)) r.start r.period k = true := by
  let next := (List.range' 1 items.length).takeWhile
    (Run.continues axis items (Box.gaps axis (items.map Sibling.box)) r.start r.period)
  have hgroups : r.groups = 1 + next.length := congrArg Run.groups h.eq_longest
  have hlt : k - 1 < next.length := by omega
  have hpre : next <+: List.range' 1 items.length := List.takeWhile_prefix _
  have hat : next[k - 1] = k := by
    rw [List.IsPrefix.getElem hpre hlt, List.getElem_range']
    omega
  have hc := List.all_eq_true.1 List.all_takeWhile _ (List.getElem_mem hlt)
  rwa [hat] at hc

theorem Longest.fits {items : List Sibling} {r : Run} (h : r.Longest axis items) : r.Fits items.length := by
  refine ⟨h.period, h.groups, ?_⟩
  have hgroups := h.groups
  have hc := h.continues (k := r.groups - 1) (by omega) (by omega)
  simp only [Run.continues, Bool.and_eq_true, decide_eq_true_eq] at hc
  rw [Nat.sub_add_cancel (by omega), Nat.mul_comm] at hc
  exact hc.1.1

theorem longest_of_find {items : List Sibling} {r : Run} (h : find axis items = some r) : r.Longest axis items := by
  let P (best : Option Run) : Prop := ∀ r, best = some r → r.Longest axis items
  refine List.foldlRecOn (motive := P) (candidates axis items) better (fun r hr => by cases hr) ?_ r h
  intro best hb c hc r hr
  unfold better at hr
  split at hr
  · exact hb r hr
  · next hg =>
    have hc : c.Longest axis items := by
      simp only [candidates, List.mem_flatMap, List.mem_map, List.mem_range'] at hc
      obtain ⟨period, ⟨i, -, rfl⟩, start, -, rfl⟩ := hc
      exact ⟨by simp only [longest]; omega, Nat.not_lt.1 hg, rfl⟩
    split at hr
    · obtain rfl := Option.some.inj hr
      exact hc
    · split at hr
      · obtain rfl := Option.some.inj hr
        exact hc
      · exact hb r hr

variable {α : Type} {r : Run} {l : List α}

/-- The groups, one after another, are the items. -/
theorem flatMap_group (r : Run) (l : List α) : (List.range r.groups).flatMap (r.group l) = r.items l := by
  have key (n : Nat) : (List.range n).flatMap (r.group l) = (l.drop r.start).take (r.period * n) := by
    induction n with
    | zero => simp
    | succ n ih =>
      rw [List.range_succ, List.flatMap_append, ih, List.flatMap_singleton, group, Nat.mul_succ, List.take_add,
        List.drop_drop, Nat.mul_comm r.period]
  exact key r.groups

theorem Fits.length_group (h : r.Fits l.length) {k : Nat} (hk : k < r.groups) : (r.group l k).length = r.period := by
  rw [group, List.length_take, List.length_drop]
  have hm : (k + 1) * r.period ≤ r.groups * r.period := Nat.mul_le_mul_right _ hk
  have hi := h.inside
  rw [Nat.succ_mul] at hm
  rw [Nat.mul_comm] at hi
  omega

theorem items_sublist (r : Run) (l : List α) : (r.items l).Sublist l :=
  (List.take_sublist _ _).trans (List.drop_sublist _ _)

end Run

namespace Line

/-- Gathering loses nobody. -/
theorem flatMap_gather (cross : Axis) (l : Line) (ss : List Sibling) :
    (gather cross l ss).flatMap (·.items) = l.items ++ ss := by
  induction ss generalizing l with
  | nil => simp [gather]
  | cons s ss ih =>
    unfold gather
    split
    · rw [ih]
      simp [add]
    · rw [List.flatMap_cons, ih]
      rfl

theorem items_ne_nil_of_mem_gather {cross : Axis} {l m : Line} {ss : List Sibling} (hl : l.items ≠ [])
    (h : m ∈ gather cross l ss) : m.items ≠ [] := by
  induction ss generalizing l with
  | nil =>
    rw [List.mem_singleton.1 h]
    exact hl
  | cons s ss ih =>
    unfold gather at h
    split at h
    · exact ih (by simp [add]) h
    · rcases List.mem_cons.1 h with rfl | h
      · exact hl
      · exact ih (by simp [single]) h

/-- No line is empty. -/
theorem items_ne_nil_of_mem_collect {axis : Axis} {l : Line} {ss : List Sibling} (h : l ∈ collect axis ss) :
    l.items ≠ [] := by
  unfold collect at h
  split at h
  · cases h
  · obtain ⟨m, hm, rfl⟩ := List.mem_map.1 h
    have hne := items_ne_nil_of_mem_gather (by simp [single]) hm
    exact fun he => hne (List.Perm.nil_eq (he ▸ (perm_sortByKey _ m.items))).symm

theorem perm_collect (axis : Axis) (ss : List Sibling) : ((collect axis ss).flatMap (·.items)).Perm ss := by
  have hs := perm_stableSort (before axis) ss
  have sorted (ls : List Line) : ((ls.map (sorted axis)).flatMap (·.items)).Perm (ls.flatMap (·.items)) := by
    induction ls with
    | nil => exact .refl _
    | cons l ls ih => exact (perm_sortByKey _ _).append ih
  unfold collect
  split
  · next h =>
    rw [h] at hs
    exact hs
  · next s rest h =>
    rw [h] at hs
    refine (sorted _).trans ?_
    rw [flatMap_gather]
    exact hs

theorem sorted_of_mem_collect {l : Line} {ss : List Sibling} (h : l ∈ collect axis ss) :
    l.items.Pairwise fun a b => a.box.start axis ≤ b.box.start axis := by
  unfold collect at h
  split at h
  · cases h
  · obtain ⟨m, -, rfl⟩ := List.mem_map.1 h
    exact pairwise_sortByKey _ _

theorem pairwise_gather {cross : Axis} {l : Line} {ss : List Sibling}
    (hs : ss.Pairwise fun a b => a.box.start cross ≤ b.box.start cross)
    (hl : ∀ s ∈ ss, l.crossStart ≤ s.box.start cross) :
    (gather cross l ss).Pairwise (fun m n => m.crossStart ≤ n.crossStart) ∧
      ∀ m ∈ gather cross l ss, l.crossStart ≤ m.crossStart := by
  induction ss generalizing l with
  | nil => simp [gather]
  | cons s ss ih =>
    obtain ⟨hfirst, hs⟩ := List.pairwise_cons.1 hs
    obtain ⟨hle, hl⟩ := List.forall_mem_cons.1 hl
    unfold gather
    split
    · exact ih hs hl
    · obtain ⟨hrest, hlater⟩ := ih (l := single cross s) hs hfirst
      have hlater : ∀ m ∈ gather cross (single cross s) ss, l.crossStart ≤ m.crossStart :=
        fun m hm => le_trans hle (hlater m hm)
      exact ⟨List.pairwise_cons.2 ⟨hlater, hrest⟩, List.forall_mem_cons.2 ⟨le_rfl, hlater⟩⟩

theorem before_total (axis : Axis) (a b : Sibling) : before axis a b = true ∨ before axis b a = true := by
  simp only [before, decide_eq_true_eq]
  omega

theorem before_trans (axis : Axis) (a b c : Sibling) (hab : before axis a b = true) (hbc : before axis b c = true) :
    before axis a c = true := by
  simp only [before, decide_eq_true_eq] at *
  omega

theorem sorted_before (axis : Axis) (ss : List Sibling) :
    (stableSort (before axis) ss).Pairwise fun a b => before axis a b = true :=
  pairwise_stableSort (before_total axis) (before_trans axis) ss

theorem start_le_of_before {a b : Sibling} (h : before axis a b = true) :
    a.box.start axis.cross ≤ b.box.start axis.cross := by
  simp only [before, decide_eq_true_eq] at h
  omega

/-- Siblings are gathered in the order of their leading edges across the axis. -/
theorem pairwise_before (axis : Axis) (ss : List Sibling) :
    (stableSort (before axis) ss).Pairwise fun a b => a.box.start axis.cross ≤ b.box.start axis.cross :=
  (sorted_before axis ss).imp start_le_of_before

/-- Lines stand in the order of their bands. -/
theorem pairwise_collect (axis : Axis) (ss : List Sibling) :
    (collect axis ss).Pairwise fun l m => l.crossStart ≤ m.crossStart := by
  have hs := pairwise_before axis ss
  unfold collect
  split
  · exact .nil
  · next s rest he =>
    rw [he] at hs
    obtain ⟨hfirst, hs⟩ := List.pairwise_cons.1 hs
    exact List.pairwise_map.2 (pairwise_gather hs hfirst).1

end Line

end FlexRecovery.Regroup
