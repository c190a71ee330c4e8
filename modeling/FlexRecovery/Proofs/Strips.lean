import FlexRecovery.Proofs.Enlisting

/-!
How the items of a list lie along its direction. Within a line each group ends before all later ones begin, up to the
tolerance. An item that was zipped from several lines ends where the last of them ends, and a later one begins where
the first of them begins, so lines that start at different places make items that overlap.
-/

namespace FlexRecovery.Regroup

open Tree Tuning

variable {axis : Axis} {chain : List Track} {t : Track} {i k : Nat}

namespace Track

/-- By how much a group may reach into the later ones. Within the first group gaps are not checked themselves. -/
def slack (t : Track) (k : Nat) : Int := if k = 0 ∧ t.run.period ≠ 1 then 2 * tolerance else tolerance

variable (h : t.Found axis)

include h

theorem Found.lead_le (hk : k < t.run.groups) {s : Sibling} (hs : s ∈ t.group k) :
    t.lead axis k ≤ s.box.start axis := by
  rw [← h.start_group hk]
  exact (h.around_group hk).start_le (List.mem_map_of_mem hs) axis

theorem Found.stop_le_lead (hik : i < k) (hk : k < t.run.groups) {s : Sibling} (hs : s ∈ t.group i) :
    s.box.stop axis ≤ t.lead axis k + t.slack i := by
  have hi : i < t.run.groups := by omega
  have hle := (h.around_group hi).stop_le (List.mem_map_of_mem hs) axis
  have hend := h.stop_group_le hi (Nat.mul_le_mul_right t.run.period hik)
    (by rw [Nat.mul_comm]; exact Nat.mul_lt_mul_of_pos_left hk h.longest.period)
  unfold lead slack tolerance
  omega

end Track

/-- The boxes of two items share no more than by how far apart the lines begin the later group, and the slack. -/
theorem overlap_hull_le (hd : Detected axis chain) (hik : i < k) (hk : ∀ t ∈ chain, k < t.run.groups)
    (hne : chain ≠ []) : ∃ t ∈ chain, ∃ u ∈ chain,
    (Sibling.hull (chain.flatMap (·.group i))).overlap (Sibling.hull (chain.flatMap (·.group k))) axis ≤
      t.lead axis k - u.lead axis k + t.slack i := by
  have around {k : Nat} (hk : ∀ t ∈ chain, k < t.run.groups) :
      (Sibling.hull (chain.flatMap (·.group k))).Around ((chain.flatMap (·.group k)).map Sibling.box) := by
    obtain ⟨t, ht⟩ := List.exists_mem_of_ne_nil _ hne
    obtain ⟨s, hs, -⟩ := (hd.found t ht).exists_mem_group (hk t ht) (hd.found t ht).longest.period
    exact Box.around_hull (List.ne_nil_of_mem (List.mem_map_of_mem (List.mem_flatMap.2 ⟨t, ht, hs⟩)))
  obtain ⟨b, hb, hstop⟩ := (around fun t ht => hik.trans (hk t ht)).exists_stop axis
  obtain ⟨c, hc, hstart⟩ := (around hk).exists_start axis
  obtain ⟨s, hs, rfl⟩ := List.mem_map.1 hb
  obtain ⟨v, hv, rfl⟩ := List.mem_map.1 hc
  obtain ⟨t, ht, hs⟩ := List.mem_flatMap.1 hs
  obtain ⟨u, hu, hv⟩ := List.mem_flatMap.1 hv
  have hend := (hd.found t ht).stop_le_lead hik (hk t ht) hs
  have hbegin := (hd.found u hu).lead_le (hk u hu) hv
  refine ⟨t, ht, u, hu, ?_⟩
  unfold Box.overlap
  omega

/-- The item with a number holds the groups with that number. -/
theorem Strip.item {s b : Tree} (h : Strip axis chain s) (hb : s.flow[k]? = some b) : chain ≠ [] ∧
    (∀ t ∈ chain, k < t.run.groups) ∧ b.box = Sibling.hull (chain.flatMap (·.group k)) := by
  obtain ⟨hk, rfl⟩ := List.getElem?_eq_some_iff.1 hb
  obtain ⟨hlen, hholds⟩ := List.forall₂_iff_get.1 h.items
  have hholds := (hholds k (hlen ▸ hk) hk).1
  rw [← hlen, zipped, List.length_map, List.length_range] at hk
  match chain, h, hlen, hholds, hk with
  | t :: chain, h, _, hholds, hk =>
    refine ⟨List.cons_ne_nil _ _, fun u hu => ?_, ?_⟩
    · rw [← (h.detected.period_eq (List.mem_cons_self ..) hu).2]
      exact hk
    · simpa [zipped] using hholds

/-- Not known to be apart: some items of the first group, which is longer than one, may reach into the next, or the
lines begin the later of the two groups at different places. -/
def Strained (axis : Axis) (chain : List Track) (i k : Nat) : Prop :=
  (i = 0 ∧ ∃ t ∈ chain, t.run.period ≠ 1) ∨ ∃ t ∈ chain, ∃ u ∈ chain, t.lead axis k ≠ u.lead axis k

/-- How the items of a list lie along its direction. -/
structure Strung (axis : Axis) (chain : List Track) (items : List Tree) : Prop where
  overlap_le : ∀ i k a b, i < k → items[i]? = some a → items[k]? = some b → ∃ t ∈ chain, ∃ u ∈ chain,
    a.box.overlap b.box axis ≤ t.lead axis k - u.lead axis k + t.slack i
  drift : ∀ t ∈ chain, ∀ u ∈ chain, ∀ k < t.run.groups,
    |(t.lead axis k - t.lead axis 0) - (u.lead axis k - u.lead axis 0)| ≤ chain.length - 1
  apart_iff : items.Pairwise (fun a b => a.box.overlap b.box axis ≤ tolerance) ↔
    ∀ i k a b, i < k → items[i]? = some a → items[k]? = some b → Strained axis chain i k →
      a.box.overlap b.box axis ≤ tolerance

theorem overlap_le_or_strained {s a b : Tree} (h : Strip axis chain s) (hik : i < k) (ha : s.flow[i]? = some a)
    (hb : s.flow[k]? = some b) : a.box.overlap b.box axis ≤ tolerance ∨ Strained axis chain i k := by
  obtain ⟨hne, hk, hbox⟩ := h.item hb
  obtain ⟨t, ht, u, hu, hle⟩ := overlap_hull_le h.detected hik hk hne
  rw [← (h.item ha).2.2, ← hbox] at hle
  by_cases hlead : t.lead axis k = u.lead axis k
  · by_cases hfirst : i = 0 ∧ t.run.period ≠ 1
    · exact .inr (.inl ⟨hfirst.1, t, ht, hfirst.2⟩)
    · rw [Track.slack, if_neg hfirst, hlead] at hle
      exact .inl (by omega)
  · exact .inr (.inr ⟨t, ht, u, hu, hlead⟩)

theorem drift_lead (hd : Detected axis chain) {u : Track} (ht : t ∈ chain) (hu : u ∈ chain) (hk : k < t.run.groups) :
    |(t.lead axis k - t.lead axis 0) - (u.lead axis k - u.lead axis 0)| ≤ chain.length - 1 := by
  have key {l m : Nat} (hlm : l ≤ m) (hm : m < chain.length) (hk : k < chain[l].run.groups) :
      |(chain[m].lead axis k - chain[m].lead axis 0) - (chain[l].lead axis k - chain[l].lead axis 0)| ≤
        chain.length - 1 := by
    have hp := hd.period_eq (List.getElem_mem (by omega : l < chain.length)) (List.getElem_mem hm)
    have hpos := (hd.found _ (List.getElem_mem (by omega : l < chain.length))).longest.period
    have hq : k * chain[l].run.period < chain[l].run.period * chain[l].run.groups := by
      rw [Nat.mul_comm]
      exact Nat.mul_lt_mul_of_pos_left hk hpos
    have := hd.drift hlm hm hq
    unfold Track.lead
    rw [← hp.1, Nat.zero_mul]
    omega
  obtain ⟨l, hl, rfl⟩ := List.getElem_of_mem ht
  obtain ⟨m, hm, rfl⟩ := List.getElem_of_mem hu
  have hgroups := (hd.period_eq ht hu).2
  rcases Nat.le_total l m with hlm | hlm
  · rw [abs_sub_comm]
    exact key hlm hm hk
  · exact key hlm hl (hgroups ▸ hk)

theorem Strip.strung {s : Tree} (h : Strip axis chain s) : Strung axis chain s.flow where
  overlap_le := by
    intro i k a b hik ha hb
    obtain ⟨hne, hk, hbox⟩ := h.item hb
    rw [(h.item ha).2.2, hbox]
    exact overlap_hull_le h.detected hik hk hne
  drift := fun _ ht _ hu _ hk => drift_lead h.detected ht hu hk
  apart_iff := by
    rw [List.pairwise_iff_getElem]
    constructor
    · intro hall i k a b hik ha hb _
      obtain ⟨hi, rfl⟩ := List.getElem?_eq_some_iff.1 ha
      obtain ⟨hk, rfl⟩ := List.getElem?_eq_some_iff.1 hb
      exact hall i k hi hk hik
    · intro hstrained i k hi hk hik
      have ha := List.getElem?_eq_getElem hi
      have hb := List.getElem?_eq_getElem hk
      exact (overlap_le_or_strained h hik ha hb).elim id (hstrained i k _ _ hik ha hb)

theorem listRole_injective : Function.Injective listRole := by
  intro a b h
  cases a <;> cases b <;> simp_all [listRole]

theorem Enlisted.strip_of_role {s : Tree} (h : Enlisted s) (hr : s.node.roles.toList = [listRole axis]) :
    ∃ chain, Strip axis chain s := by
  cases h with
  | part h =>
    rw [hr] at h
    cases axis <;> simp [listRole] at h
  | @strip axis' chain s h =>
    have hrole : listRole axis' = listRole axis := List.singleton_inj.1 (h.role.symm.trans hr)
    obtain rfl := listRole_injective hrole
    exact ⟨chain, h⟩
  | grid h =>
    have := h.role.symm.trans hr
    cases axis <;> cases this

/-- In every new list all pairs of items share no more than the tolerance along its direction, unless the first item
of several members or lines that begin a group at different places are among them. -/
theorem strung_makeLists (t : Tree) (j : Journal) (r : Tree) (hr : r ∈ (makeLists t j).1.flow) :
    Built (fun s => ∀ axis, s.node.roles.toList = [listRole axis] →
      ∃ chain, Strip axis chain s ∧ Strung axis chain s.flow) t.flow r := by
  apply (built_makeLists t j r hr).imp
  intro s hs axis hrole
  obtain ⟨chain, h⟩ := hs.strip_of_role hrole
  exact ⟨chain, h, h.strung⟩

/-- Two icons over two labels, which begin that much further on. -/
def icons (shift : Int) : Tree :=
  sheet [⟨0, 0, 40, 40⟩, ⟨100, 0, 40, 40⟩, ⟨shift, 60, 30, 30⟩, ⟨shift + 100, 60, 30, 30⟩]

/-- Labels that begin five pixels further on. -/
theorem strung_makeLists_icons : ∃ r ∈ (makeLists (icons 5) {}).1.flow,
    ∃ chain, Strip .row chain r ∧ Strung .row chain r.flow := by
  have hroles : ((makeLists (icons 5) {}).1.flow.map fun t => t.node.roles.toList) = [[.listX]] := by decide +kernel
  obtain ⟨r, hr, hrole⟩ := List.mem_map.1 (hroles ▸ List.mem_singleton_self _)
  refine ⟨r, hr, (strung_makeLists (icons 5) {} r hr).of_role ?_ hrole (by decide) .row hrole⟩
  decide

/-- Labels that begin behind the second icon. Each item reaches over more than half of the other one. -/
theorem shifted_icons : ¬∀ (t : Tree) (j : Journal), ∀ r ∈ (makeLists t j).1.flow,
    Built (fun s => ∀ axis, s.node.roles.toList = [listRole axis] →
      s.flow.Pairwise fun a b => a.box.overlap b.box axis ≤ tolerance) t.flow r := by
  intro h
  have hmade : ((makeLists (icons 190) {}).1.flow.map fun t => (t.node.roles.toList, t.flow.map box)) =
      [([.listX], [⟨0, 0, 220, 90⟩, ⟨100, 0, 220, 90⟩])] := by decide +kernel
  obtain ⟨r, hr, he⟩ := List.mem_map.1 (hmade ▸ List.mem_singleton_self _)
  obtain ⟨hrole, hboxes⟩ := Prod.mk.inj he
  have hall : r.flow.Pairwise fun a b => a.box.overlap b.box .row ≤ tolerance :=
    (h _ _ r hr).of_role (by decide) hrole (by decide) .row hrole
  have hall : (r.flow.map box).Pairwise fun b c => b.overlap c .row ≤ tolerance := List.pairwise_map.2 hall
  rw [hboxes] at hall
  exact absurd hall (by decide)

end FlexRecovery.Regroup
