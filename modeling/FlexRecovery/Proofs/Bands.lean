import FlexRecovery.Proofs.Listing
import FlexRecovery.Regroup.Bands

/-!
The flex axis of an owner. The bands divide its flow children, a band of several becomes a container, and two
children that are bands of their own lie clear of each other.
-/

namespace FlexRecovery.Regroup

open Tree

variable {k : Nat}

/-- Of two drafted siblings neither is nested in the other or intrudes into it. -/
def ClearIfOld (k : Nat) (a b : Tree) : Prop := a.node.index < k → b.node.index < k → Box.Clear a.box b.box

theorem extent_le_pivot (axis : Axis) (t : Tree) (ts : List Tree) :
    ∀ n ∈ t :: ts, n.box.extent axis ≤ (pivot axis t ts).box.extent axis := by
  unfold pivot
  induction ts generalizing t with
  | nil => simp
  | cons a ts ih =>
    rw [List.foldl_cons]
    intro n hn
    rcases List.mem_cons.1 hn with rfl | hn
    · split
      · next h => exact h.le.trans (ih a a (by simp))
      · exact ih n n (by simp)
    · rcases List.mem_cons.1 hn with rfl | hn
      · split
        · exact ih n n (by simp)
        · next h => exact (Nat.le_of_not_lt h).trans (ih t t (by simp))
      · exact ih _ n (List.mem_cons_of_mem _ hn)

theorem perm_flatten_pivotBands (axis : Axis) (ts : List Tree) : (pivotBands axis ts).flatten.Perm ts := by
  fun_induction pivotBands axis ts with
  | case1 => exact .refl _
  | case2 t ts inside ih =>
    rw [List.flatten_cons]
    exact (ih.append_left _).trans (List.filter_append_perm inside (t :: ts))

theorem ne_nil_of_mem_pivotBands {axis : Axis} {ts b : List Tree} (hb : b ∈ pivotBands axis ts) : b ≠ [] := by
  fun_induction pivotBands axis ts with
  | case1 => cases hb
  | case2 t ts inside ih =>
    rcases List.mem_cons.1 hb with rfl | hb
    · exact List.ne_nil_of_mem (List.mem_filter.2 ⟨pivot_mem axis t ts, inBand_self axis _⟩)
    · exact ih hb

/-- Whatever comes after a band is no longer than the pivot of the band, and the pivot does not cover it. -/
def Led (axis : Axis) (a b : List Tree) : Prop :=
  ∃ p ∈ a, ∀ y ∈ b, y.box.extent axis ≤ p.box.extent axis ∧ inBand axis p y = false

theorem led_pivotBands (axis : Axis) (ts : List Tree) : (pivotBands axis ts).Pairwise (Led axis) := by
  fun_induction pivotBands axis ts with
  | case1 => exact .nil
  | case2 t ts inside ih =>
    have hp := pivot_mem axis t ts
    refine List.pairwise_cons.2 ⟨fun b hb => ⟨_, List.mem_filter.2 ⟨hp, inBand_self axis _⟩, fun y hy => ?_⟩, ih⟩
    have hmem := (perm_flatten_pivotBands axis _).subset (List.mem_flatten.2 ⟨b, hb, hy⟩)
    obtain ⟨hmem, hout⟩ := List.mem_filter.1 hmem
    exact ⟨extent_le_pivot axis t ts y hmem, by simpa using hout⟩

/-- Two single trees that are bands of their own lie clear of each other: the first is the pivot, and the
second is shorter and not in its band. -/
theorem clear_of_led {axis : Axis} {x y : Tree} (h : Led axis [x] [y]) : Box.Clear x.box y.box := by
  obtain ⟨p, hp, hy⟩ := h
  obtain ⟨hle, hout⟩ := hy y (List.mem_singleton_self y)
  rw [List.mem_singleton.1 hp] at hle hout
  simp only [inBand, Bool.or_eq_false_iff, decide_eq_false_iff_not] at hout
  apply Box.clear_of_span hle hout.1
  omega

/-- The bands divide the trees among themselves. -/
theorem perm_flatten_bands (axis : Axis) (ts : List Tree) : (bands axis ts).flatten.Perm ts :=
  (List.Perm.flatten (perm_sortByKey _ _)).trans (perm_flatten_pivotBands axis ts)

theorem led_bands (axis : Axis) (ts : List Tree) : (bands axis ts).Pairwise fun a b => Led axis a b ∨ Led axis b a :=
  ((perm_sortByKey _ _).pairwise_iff fun h => h.symm).2 ((led_pivotBands axis ts).imp .inl)

theorem clear_bands (axis : Axis) (ts : List Tree) :
    (bands axis ts).Pairwise fun a b => ∀ x y, a = [x] → b = [y] → Box.Clear x.box y.box := by
  refine (led_bands axis ts).imp ?_
  rintro a b h x y rfl rfl
  rcases h with h | h
  · exact clear_of_led h
  · exact (clear_of_led h).symm

theorem ne_nil_of_mem_bands {axis : Axis} {ts b : List Tree} (hb : b ∈ bands axis ts) : b ≠ [] :=
  ne_nil_of_mem_pivotBands ((perm_sortByKey _ _).mem_iff.1 hb)

/-- The bands, each of them sorted across the axis, hold the flow children. -/
theorem perm_flatMap_bands {axis : Axis} {ts : List Tree} {bs : List (List Tree)} (h : bs = bands axis ts) :
    ts.Perm (bs.flatMap (sortByKey fun t => t.box.start axis.cross)) := by
  have hsorted (bs : List (List Tree)) :
      (bs.flatMap (sortByKey fun t => t.box.start axis.cross)).Perm bs.flatten := by
    induction bs with
    | nil => exact .refl _
    | cons b bs ih => exact (perm_sortByKey _ _).append ih
  refine ((hsorted bs).trans ?_).symm
  rw [h]
  exact perm_flatten_bands axis ts

theorem partition?_eq_some {axis : Axis} {ts : List Tree} {bs : List (List Tree)} (h : partition? axis ts = some bs) :
    bs = bands axis ts ∧ areDisjoint axis bs = true := by
  unfold partition? at h
  dsimp only at h
  split at h
  · next hp =>
    obtain rfl := Option.some.inj h
    exact ⟨rfl, (Bool.and_eq_true_iff.1 hp).1⟩
  · cases h

theorem partition?_of_chooseAxis {preferred axis : Axis} {ts : List Tree} {bs : List (List Tree)}
    (h : chooseAxis preferred ts = some (axis, bs)) : partition? axis ts = some bs ∧ 1 < bs.length := by
  obtain ⟨a, -, ha⟩ := List.exists_of_findSome?_eq_some h
  split at ha
  · next bs' hp =>
    split at ha
    · next hlen =>
      obtain ⟨rfl, rfl⟩ := Prod.mk.inj (Option.some.inj ha)
      exact ⟨hp, hlen⟩
    · cases ha
  · cases ha

theorem eq_bands_of_chooseAxis {preferred axis : Axis} {ts : List Tree} {bs : List (List Tree)}
    (h : chooseAxis preferred ts = some (axis, bs)) : bs = bands axis ts ∧ 1 < bs.length := by
  obtain ⟨hp, hlen⟩ := partition?_of_chooseAxis h
  exact ⟨(partition?_eq_some hp).1, hlen⟩

theorem grouped_bandTree {axis : Axis} {b : List Tree} (hb : b ≠ []) (j : Journal) :
    Grouped [] (sortByKey (fun t => t.box.start axis.cross) b) j.created [(bandTree axis b j).1]
      (bandTree axis b j).2.created := by
  match b with
  | [⟨n, f, a⟩] => exact .own (t := ⟨n, f, a⟩) (.refl n) (.nil _)
  | t :: u :: rest =>
    have hp := perm_sortByKey (fun t : Tree => t.box.start axis.cross) (t :: u :: rest)
    refine grouped_wrapped rfl (by decide) ?_ ?_ j
    · rw [hp.length_eq]
      simp
    · exact (Box.around_hull (by simp)).perm (hp.symm.map box)

theorem created_le_bandTree (axis : Axis) (b : List Tree) (j : Journal) :
    j.created ≤ (bandTree axis b j).2.created := by
  match b with
  | [] => exact Nat.le_succ _
  | [t] => exact le_rfl
  | t :: u :: rest => exact Nat.le_succ _

/-- A band that is no new container is a single tree. -/
theorem single_of_bandTree {axis : Axis} {b : List Tree} {j : Journal}
    (h : (bandTree axis b j).1.node.index < j.created) : b = [(bandTree axis b j).1] := by
  match b with
  | [] => exact absurd h (lt_irrefl _)
  | [t] => rfl
  | t :: u :: rest => exact absurd h (lt_irrefl _)

theorem clear_mapM_bandTree {axis : Axis} {bs : List (List Tree)}
    (h : bs.Pairwise fun a b => ∀ x y, a = [x] → b = [y] → Box.Clear x.box y.box) {j : Journal} (hk : k ≤ j.created) :
    (bs.mapM (bandTree axis) j).1.Pairwise (ClearIfOld k) := by
  induction bs generalizing j with
  | nil => exact .nil
  | cons b bs ih =>
    obtain ⟨hb, hbs⟩ := List.pairwise_cons.1 h
    have hj := hk.trans (created_le_bandTree axis b j)
    rw [Journaled.run_mapM_cons]
    refine List.pairwise_cons.2 ⟨fun u hu hi hi' => ?_, ih hbs hj⟩
    obtain ⟨b', hb', j', hj', rfl⟩ := Journaled.exists_of_mem_mapM (created_le_bandTree axis) hu
    exact hb b' hb' _ _ (single_of_bandTree (hi.trans_le hk)) (single_of_bandTree (hi'.trans_le (hj.trans hj')))

theorem collapseWrapper_eq {t : Tree} (h : ∀ m ∈ t.flow, Fit k m ∨ 1 < t.flow.length) : collapseWrapper t = t := by
  unfold collapseWrapper
  split
  · next only hf =>
    have hfit : Fit k only := by
      have ho := h only (by rw [hf]; exact List.mem_singleton_self only)
      rw [hf] at ho
      exact ho.resolve_right (by simp)
    have hn : (only.node.isGenerated && only.node.roles.isEmpty) = false := by
      rcases hfit.1.kind with hi | hl
      · have hid := (every_iff.1 hfit.2).1.layer hi
        rw [Node.isGenerated, ← Option.not_isSome, hid]
        rfl
      · obtain ⟨r, hr, -⟩ := Node.isList_iff.1 hl
        have he : only.node.roles.isEmpty = false := by
          rw [Distinct.isEmpty, Bool.eq_false_iff, ne_eq, List.isEmpty_iff]
          exact List.ne_nil_of_mem hr
        rw [he, Bool.and_false]
    rw [if_neg]
    simp only [Bool.and_eq_true]
    rintro ⟨⟨⟨⟨hg, -⟩, -⟩, he⟩, -⟩
    rw [hg, he] at hn
    cases hn
  · rfl

/-- What an owner is like once its axis is chosen. -/
structure Flexed (k : Nat) (t : Tree) (c : Nat) (r : Tree) (c' : Nat) : Prop where
  node : ∃ d, r.node = { t.node with direction := d }
  slides : Slides t c r c'
  directed : r.node.direction.isSome = true ↔ r.flow ≠ []
  clear : r.flow.Pairwise (ClearIfOld k)
  members : ∀ m ∈ r.members, m.Every (Sound k) ∧ (Tame k m ∨ 2 ≤ r.flow.length ∧ m ∈ r.flow)

theorem offender?_eq_some {ts : List Tree} (h : ts ≠ []) :
    ∃ i o, offender? ts = some (i, o) ∧ ts.Perm (o :: ts.eraseIdx i) := by
  unfold offender?
  extract_lets all overlapping pool
  have hsub : ∀ q ∈ pool, q ∈ all := by
    intro q hq
    simp only [pool] at hq
    split at hq
    · exact hq
    · exact (List.mem_filter.1 hq).1
  have hne : pool ≠ [] := by
    simp only [pool]
    split
    · simpa [all] using h
    · next hn => simpa using hn
  obtain ⟨p, rest, hp⟩ := List.exists_cons_of_ne_nil hne
  let least := rest.foldl (fun best q => if q.1.box.area ≤ best.1.box.area then q else best) p
  have hleast : least ∈ p :: rest := by
    apply List.foldlRecOn (motive := (· ∈ p :: rest)) rest _ (List.mem_cons_self ..)
    intro best hbest q hq
    split
    · exact List.mem_cons_of_mem _ hq
    · exact hbest
  rw [hp]
  refine ⟨least.2, least.1, rfl, ?_⟩
  obtain ⟨hi, he⟩ := List.getElem?_eq_some_iff.1 (List.mem_zipIdx_iff_getElem?.1 (hsub _ (hp ▸ hleast)))
  rw [← he]
  exact (List.getElem_cons_eraseIdx_perm hi).symm

theorem offender?_of_not_length_le_one {ts : List Tree} (h : ¬ ts.length ≤ 1) :
    ∃ i o, offender? ts = some (i, o) ∧ ts.Perm (o :: ts.eraseIdx i) := by
  apply offender?_eq_some
  rintro rfl
  exact h (Nat.zero_le _)

theorem flexed_of_node {t : Tree} (ht : Ready k t) (hl : t.flow.length ≤ 1) (d : Option Axis)
    (hd : d.isSome = true ↔ t.flow ≠ []) (c : Nat) :
    Flexed k t c ⟨{ t.node with direction := d }, t.flow, t.attached⟩ c where
  node := ⟨d, rfl⟩
  slides := slides_node (.of_layout rfl) c
  directed := hd
  clear := by
    match h : t.flow with
    | [] => exact .nil
    | [x] => exact List.pairwise_singleton _ _
    | x :: y :: rest =>
      rw [h] at hl
      simp at hl
  members := fun m hm => ⟨(ht.members m hm).2, .inl (ht.members m hm).1⟩

theorem Flexed.of_shifts {t t' r : Tree} {c c' : Nat} (ht : t.node.isContent = false) (hs : Shifts (t, c) (t', c))
    (hn : t'.node = t.node) (h : Flexed k t' c r c') : Flexed k t c r c' where
  node := hn ▸ h.node
  slides := (Shifts.slides ht hs).2.trans h.slides
  directed := h.directed
  clear := h.clear
  members := h.members

theorem flexed_bands {axis : Axis} {bs : List (List Tree)} {t : Tree} {j : Journal} (hk : k ≤ j.created)
    (ht : Ready k t) (hbs : bs = bands axis t.flow) (hlen : 1 < bs.length) :
    Flexed k t j.created ⟨{ t.node with direction := some axis }, (bs.mapM (bandTree axis) j).1, t.attached⟩
      (bs.mapM (bandTree axis) j).2.created := by
  have hl := Journaled.length_mapM (bandTree axis) bs j
  have hne : ∀ b ∈ bs, b ≠ [] := by
    rw [hbs]
    exact fun b => ne_nil_of_mem_bands
  have hg := grouped_mapM (bandTree axis) (sortByKey fun t => t.box.start axis.cross) bs
    (fun b hb j => grouped_bandTree (hne b hb) j) j
  have hperm := perm_flatMap_bands hbs
  constructor
  · exact ⟨_, rfl⟩
  · refine (slides_node (n := { t.node with direction := some axis }) (.of_layout rfl) j.created).trans ?_
    refine slides_of_sheds ?_ fun l hl => ?_
    · have h := (hg.sheds.frame (censusAll t.attached)).below { t.node with direction := some axis }
      rw [← censusAll_perm hperm] at h
      rw [census_mk, census_mk]
      exact h
    · obtain ⟨hf, ha⟩ := every_flowing_mk.1 hl
      exact every_flowing_mk.2 ⟨hg.placed fun t ht => hf t (hperm.mem_iff.2 ht), ha⟩
  · have hne : (bs.mapM (bandTree axis) j).1 ≠ [] := by
      rw [← List.length_pos_iff]
      omega
    simp [hne]
  · exact clear_mapM_bandTree (hbs ▸ clear_bands axis t.flow) hk
  · intro m hm
    rcases List.mem_append.1 hm with hm | hm
    · refine ⟨hg.sound hk (fun u hu => ?_) m hm, .inr ⟨by dsimp only; omega, hm⟩⟩
      exact ht.members u (List.mem_append_left _ (hperm.mem_iff.2 hu))
    · have hf := ht.members m (List.mem_append_right _ hm)
      exact ⟨hf.2, .inl hf.1⟩

theorem flexed_layOut (preferred : Axis) {budget : Nat} {t : Tree} {j : Journal} (hk : k ≤ j.created)
    (ht : Ready k t) (hne : t.flow ≠ []) (hb : t.flow.length ≤ budget) :
    Flexed k t j.created (layOut preferred budget t j).1 (layOut preferred budget t j).2.created := by
  induction budget generalizing t j with
  | zero => exact absurd (List.length_eq_zero_iff.1 (Nat.le_zero.1 hb)) hne
  | succ budget ih =>
    have hfit : ∀ m ∈ t.flow, Fit k m := fun m hm => ht.members m (List.mem_append_left _ hm)
    unfold layOut
    split
    · next hl =>
      have hw := collapseWrapper_eq (t := ⟨{ t.node with direction := some preferred }, t.flow, t.attached⟩)
        fun m hm => .inl (hfit m hm)
      rw [hw]
      exact flexed_of_node ht hl (some preferred) (by simp [hne]) _
    · next hl =>
      cases hc : chooseAxis preferred t.flow with
      | some p =>
        obtain ⟨axis, bs⟩ := p
        obtain ⟨hbs, hlen⟩ := eq_bands_of_chooseAxis hc
        have hw := collapseWrapper_eq (k := k)
          (t := ⟨{ t.node with direction := some axis }, (bs.mapM (bandTree axis) j).1, t.attached⟩)
          fun m _ => .inr (by rw [Journaled.length_mapM]; exact hlen)
        have hr := flexed_bands hk ht hbs hlen
        rw [← hw] at hr
        exact hr
      | none =>
        obtain ⟨i, o, ho, hperm⟩ := offender?_eq_some hne
        dsimp only
        rw [ho]
        obtain ⟨n, flow, attached⟩ := t
        have hs : Shifts (⟨n, flow, attached⟩, j.created) (⟨n, flow.eraseIdx i, attached ++ [o]⟩, j.created) :=
          .reorder hperm (.single (.detach _ _ _ _ _))
        have hlen : flow.length = (flow.eraseIdx i).length + 1 := hperm.length_eq
        dsimp only at hl hb
        have hne : flow.eraseIdx i ≠ [] := by
          rw [ne_eq, ← List.length_eq_zero_iff]
          omega
        dsimp only
        rw [Journaled.run_bind]
        exact .of_shifts ht.content hs rfl
          (ih (j := (Journal.warn _ _ _ j).2) hk (hs.ready hk ht) hne (by dsimp only; omega))

theorem flexed_makeFlex {t : Tree} {j : Journal} (hk : k ≤ j.created) (ht : Ready k t) :
    Flexed k t j.created (makeFlex t j).1 (makeFlex t j).2.created := by
  unfold makeFlex
  split
  · next he =>
    have he := List.isEmpty_iff.1 he
    exact flexed_of_node ht (by simp [he]) none (by simp [he]) _
  · next he => exact flexed_layOut _ hk ht (by simpa using he) le_rfl

end FlexRecovery.Regroup
