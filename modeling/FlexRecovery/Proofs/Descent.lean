import FlexRecovery.Proofs.Bands
import FlexRecovery.Proofs.Nesting

/-!
Regrouping walks down from the page. Below each node lie fewer drafted nodes than below its owner, or as many
under a node of a lower kind, so the budget is never used up and every node is regrouped.
-/

namespace FlexRecovery.Regroup

open Tree Ledger

variable {k : Nat}

/-- What holds at a node that is regrouped. -/
structure Good (k : Nat) (t : Tree) : Prop where
  layer : t.node.index < k → t.node.id.isSome = true
  directed : t.node.direction.isSome = true ↔ t.flow ≠ []
  clear : isPreset t.node = false → t.flow.Pairwise (ClearIfOld k)

/-- What holds at every node, whether regrouping has come to it or not. -/
structure Modest (k : Nat) (t : Tree) : Prop where
  layer : t.node.index < k → t.node.id.isSome = true
  shared : t.node.direction.isSome = true → t.flow ≠ []
  content : t.node.isContent = true → t.flow = [] ∧ t.node.direction.isSome = false
  text : t.node.isText = true → t.attached = []
  span : t.node.tag ≠ .span

theorem Sound.modest {t : Tree} (h : Sound k t) : Modest k t := ⟨h.layer, h.shared, h.content, h.text, h.span⟩

/-- Regrouped down to content, whose members regrouping does not come to. -/
inductive Arranged (k : Nat) : Tree → Prop where
  | content {t : Tree} (hc : t.node.isContent = true) (hs : t.Every (Modest k)) : Arranged k t
  | view {t : Tree} (hc : t.node.isContent = false) (hg : Good k t) (hm : ∀ m ∈ t.members, Arranged k m) :
      Arranged k t

theorem Arranged.layer {t : Tree} (h : Arranged k t) : t.node.index < k → t.node.id.isSome = true := by
  cases h with
  | content _ hs => exact (every_iff.1 hs).1.layer
  | view _ hg _ => exact hg.layer

theorem Arranged.modest {t : Tree} (h : Arranged k t) : t.Every (Modest k) := by
  induction h with
  | content hc hs => exact hs
  | @view t hc hg hm ih =>
    have htag : t.node.tag = .view := by simpa [Node.isContent] using hc
    refine every_iff.2 ⟨⟨hg.layer, hg.directed.1, fun h => ?_, fun h => ?_, ?_⟩, ih⟩
    · rw [hc] at h
      cases h
    · simp [Node.isText, htag] at h
    · simp [htag]

/-- Drafted nodes first; a list lies above bands of its members, and both above what was drafted. -/
def weight (k : Nat) (t : Tree) : Nat :=
  3 * older k t.census + if t.node.index < k then 0 else if isPreset t.node then 1 else 2

theorem older_census (k : Nat) (t : Tree) : older k t.census =
    older k (censusAll t.flow) + older k (censusAll t.attached) + if t.node.index < k then 1 else 0 := by
  rw [census_eq, older_cons, older_add]

theorem older_le_of_mem {m : Tree} {ts : List Tree} (h : m ∈ ts) : older k m.census ≤ older k (censusAll ts) := by
  obtain ⟨a, b, rfl⟩ := List.append_of_mem h
  simp only [censusAll_append, censusAll_cons, older_add]
  omega

/-- Drafted, or around several members. -/
def Parted (k : Nat) (t : Tree) : Prop := k ≤ t.node.index → 2 ≤ t.flow.length

theorem parted_of_sound {t : Tree} (h : t.Every (Sound k)) : t.Every (Parted k) := h.mono fun _ hs => hs.parts

/-- A container that was made holds drafted nodes. -/
theorem one_le_older {t : Tree} (h : t.Every (Parted k)) : 1 ≤ older k t.census := by
  induction t using induction_members with
  | _ t ih =>
    obtain ⟨hs, hm⟩ := every_iff.1 h
    rw [older_census]
    by_cases hi : t.node.index < k
    · rw [if_pos hi]
      omega
    · have hl := hs (by omega)
      obtain ⟨m, hmem⟩ := List.exists_mem_of_length_pos (l := t.flow) (by omega)
      have hmm : m ∈ t.members := List.mem_append_left _ hmem
      have h1 := ih m hmm (hm m hmm)
      have h2 := older_le_of_mem (k := k) hmem
      omega

/-- Of several siblings each leaves drafted nodes to the others. -/
theorem older_lt_of_mem {m : Tree} {ts : List Tree} (h : m ∈ ts) (hl : 2 ≤ ts.length)
    (hs : ∀ u ∈ ts, u.Every (Parted k)) : older k m.census < older k (censusAll ts) := by
  obtain ⟨a, b, rfl⟩ := List.append_of_mem h
  rw [List.length_append, List.length_cons] at hl
  obtain ⟨u, hu⟩ := List.exists_mem_of_length_pos (l := a ++ b) (by rw [List.length_append]; omega)
  have hu' : u ∈ a ++ m :: b := (List.mem_append.1 hu).elim (List.mem_append_left _) fun h =>
    List.mem_append_right _ (List.mem_cons_of_mem _ h)
  have h1 := one_le_older (hs u hu')
  have h2 := older_le_of_mem (k := k) hu
  simp only [censusAll_append, censusAll_cons, older_add] at h2 ⊢
  omega

/-- What a weight adds for the kind of a node is small where the node was drafted or is a list. -/
theorem kind_le_one {m : Tree} (h : m.node.index < k ∨ m.node.roles.isList = true) :
    (if m.node.index < k then 0 else if isPreset m.node = true then 1 else 2) ≤ 1 := by
  rcases h with h | h
  · rw [if_pos h]
    omega
  · have hp : isPreset m.node = true := by simp [isPreset, h]
    rw [hp, if_pos rfl]
    split_ifs <;> omega

/-- The members of an owner weigh less than the owner did before it was regrouped. -/
theorem weight_lt {t r m : Tree} (hi : r.node.index = t.node.index)
    (ho : older k r.census ≤ older k t.census) (hm : m ∈ r.members) (hs : ∀ u ∈ r.members, u.Every (Parted k))
    (hp : k ≤ t.node.index → isPreset t.node = true → 2 ≤ r.flow.length)
    (ht : k ≤ t.node.index → isPreset t.node = false →
      (m.node.index < k ∨ m.node.roles.isList = true) ∨ 2 ≤ r.flow.length ∧ m ∈ r.flow) :
    weight k m < weight k t := by
  have hflow : ∀ u ∈ r.flow, u.Every (Parted k) := fun u hu => hs u (List.mem_append_left _ hu)
  have hr := older_census k r
  rw [hi] at hr
  have hle : m ∈ r.flow ∧ older k m.census ≤ older k (censusAll r.flow) ∨
      m ∈ r.attached ∧ older k m.census ≤ older k (censusAll r.attached) :=
    (List.mem_append.1 hm).imp (fun h => ⟨h, older_le_of_mem h⟩) fun h => ⟨h, older_le_of_mem h⟩
  have hkind : (if m.node.index < k then 0 else if isPreset m.node = true then 1 else 2) ≤ 2 := by
    split_ifs <;> omega
  unfold weight
  by_cases hk : t.node.index < k
  · rw [if_pos hk] at hr ⊢
    omega
  · rw [if_neg hk] at hr ⊢
    have hk : k ≤ t.node.index := by omega
    cases hpre : isPreset t.node with
    | true =>
      have hl := hp hk hpre
      rw [if_pos rfl]
      rcases hle with ⟨hmf, hle⟩ | ⟨-, hle⟩
      · have := older_lt_of_mem hmf hl hflow
        omega
      · obtain ⟨u, hu⟩ := List.exists_mem_of_length_pos (l := r.flow) (by omega)
        have h1 := one_le_older (hflow u hu)
        have h2 := older_lt_of_mem hu hl hflow
        omega
    | false =>
      rw [if_neg Bool.false_ne_true]
      rcases ht hk hpre with hkind | ⟨hl, hmf⟩
      · have := kind_le_one hkind
        omega
      · have := older_lt_of_mem hmf hl hflow
        omega

theorem shifting_rebuildNesting : Shifting rebuildNesting := by
  intro t j
  have h := ((shifting_collapseEqual.bind shifting_nestContained).bind shifting_attachOverlapping) t j
  beta_reduce at h
  exact h

theorem Shift.root {s s' : Tree × Nat} (h : Shift s s') :
    s'.1.node.index = s.1.node.index ∧ s'.1.box = s.1.box ∧ (s.1.node.IsSized → s'.1.node.IsSized) := by
  cases h with
  | foldUp h f a k => exact ⟨Node.index_absorb _ _, Node.box_absorb _ _, fun hs => Node.isSized_absorb (.inl hs)⟩
  | _ => exact ⟨rfl, rfl, fun hs => hs⟩

theorem Shifts.root {s s' : Tree × Nat} (h : Shifts s s') :
    s'.1.node.index = s.1.node.index ∧ s'.1.box = s.1.box ∧ (s.1.node.IsSized → s'.1.node.IsSized) := by
  induction h with
  | refl => exact ⟨rfl, rfl, fun hs => hs⟩
  | tail _ hs ih =>
    obtain ⟨hi, hb, hz⟩ := hs.root
    exact ⟨hi.trans ih.1, hb.trans ih.2.1, hz ∘ ih.2.2⟩

/-- One node after it is regrouped: its members are still to come, and weigh less. -/
structure Leveled (k : Nat) (t : Tree) (c : Nat) (r : Tree) (c' : Nat) : Prop where
  index : r.node.index = t.node.index
  box : r.box = t.box
  content : r.node.isContent = false
  sized : t.node.IsSized → r.node.IsSized
  pending : r.node.Pending
  slides : Slides t c r c'
  good : Good k r
  members : ∀ m ∈ r.members, m.Every (Sound k) ∧ weight k m < weight k t

theorem level_of_preset {t : Tree} (h : isPreset t.node = true) (j : Journal) : level t j = (t, j) := by
  unfold level
  rw [h]
  rfl

theorem level_eq {t : Tree} (h : isPreset t.node = false) :
    level t = mergeRedundant t >>= fun r => rebuildNesting r.1 >>= makeLists >>= makeFlex := by
  unfold level
  rw [h, if_neg Bool.false_ne_true]

/-- An owner before its axis is chosen. -/
theorem shifts_level {t : Tree} (h : isPreset t.node = false) (j : Journal) :
    ∃ u j', Shifts (t, j.created) (u, j'.created) ∧ level t j = makeFlex u j' := by
  have h1 := shifting_mergeRedundant t j
  have h2 := shifting_rebuildNesting (mergeRedundant t j).1.1 (mergeRedundant t j).2
  have h3 := shifting_makeLists (rebuildNesting (mergeRedundant t j).1.1 (mergeRedundant t j).2).1
    (rebuildNesting (mergeRedundant t j).1.1 (mergeRedundant t j).2).2
  refine ⟨_, _, (h1.trans h2).trans h3, ?_⟩
  rw [level_eq h, Journaled.run_bind, Journaled.run_bind, Journaled.run_bind]

/-- A list or a table row is laid out already, and stays as it is. -/
theorem leveled_preset {t : Tree} (ht : t.Every (Sound k)) (hc : t.node.isContent = false)
    (hp : isPreset t.node = true) (c : Nat) : Leveled k t c t c := by
  obtain ⟨hs, hm⟩ := every_iff.1 ht
  refine ⟨rfl, rfl, hc, fun h => h, hs.pending, .refl _ _,
    ⟨hs.layer, ⟨hs.shared, fun _ => hs.directed hp⟩, fun h => ?_⟩, fun m h => ?_⟩
  · rw [hp] at h
    cases h
  · refine ⟨hm m h, weight_lt rfl le_rfl h (fun u hu => parted_of_sound (hm u hu)) (fun hi _ => hs.parts hi) fun _ hn => ?_⟩
    rw [hp] at hn
    cases hn

theorem leveled_level {t : Tree} {j : Journal} (hk : k ≤ j.created) (ht : t.Every (Sound k))
    (hc : t.node.isContent = false) : Leveled k t j.created (level t j).1 (level t j).2.created := by
  cases hp : isPreset t.node with
  | true =>
    rw [level_of_preset hp]
    exact leveled_preset ht hc hp _
  | false =>
    obtain ⟨hs, hm⟩ := every_iff.1 ht
    obtain ⟨u, j', hshift, hr⟩ := shifts_level hp j
    rw [hr]
    have hj : k ≤ j'.created := hk.trans hshift.created_le
    have ready : Ready k t := ⟨hc, hs.layer, hs.pending, fun m h => ⟨hs.tame hp m h, hm m h⟩⟩
    have hu := hshift.ready hk ready
    obtain ⟨hi, hb, hz⟩ := hshift.root
    have hflex := flexed_makeFlex hj hu
    obtain ⟨d, hn⟩ := hflex.node
    have hri : (makeFlex u j').1.node.index = t.node.index := by
      rw [hn]
      exact hi
    have hslides := (Shifts.slides hc hshift).2.trans hflex.slides
    refine ⟨hri, ?_, ?_, ?_, ?_, hslides, ⟨?_, hflex.directed, fun _ => hflex.clear⟩, fun m h => ?_⟩
    · rw [Tree.box, hn]
      exact hb
    · rw [hn]
      exact hu.content
    · rw [hn]
      exact hz
    · rw [hn]
      exact hu.pending.of_roles rfl fun h => h
    · rw [hn]
      exact hu.layer
    · refine ⟨(hflex.members m h).1, weight_lt hri ?_ h
        (fun v hv => parted_of_sound (hflex.members v hv).1) ?_ fun _ _ => (hflex.members m h).2.imp_left Tame.kind⟩
      · exact hslides.turns.older_le (fun _ _ h => h.1) hk
      · intro _ h
        rw [hp] at h
        cases h

/-- What becomes of a tree. -/
structure Within (k : Nat) (t : Tree) (c : Nat) (r : Tree) (c' : Nat) : Prop where
  index : r.node.index = t.node.index
  box : r.box = t.box
  sized : t.node.IsSized → r.node.IsSized
  slides : Slides t c r c'
  arranged : Arranged k r
  pending : r.Every fun s => s.node.Pending

theorem Within.turns {t r : Tree} {c c' : Nat} (h : Within k t c r c') : Turns Node.Kept t.census c r.census c' :=
  h.slides.turns

/-- Trees side by side. -/
inductive WithinAll (k : Nat) : List Tree → Nat → List Tree → Nat → Prop where
  | nil (c) : WithinAll k [] c [] c
  | cons {t c r c' ts rs c''} (h : Within k t c r c') (hs : WithinAll k ts c' rs c'') :
      WithinAll k (t :: ts) c (r :: rs) c''

theorem withinAll_mapM {f : Tree → Journaled Tree} {ts : List Tree}
    (h : ∀ t ∈ ts, ∀ j : Journal, k ≤ j.created → Within k t j.created (f t j).1 (f t j).2.created) {j : Journal}
    (hk : k ≤ j.created) : WithinAll k ts j.created (ts.mapM f j).1 (ts.mapM f j).2.created := by
  induction ts generalizing j with
  | nil => exact .nil _
  | cons t ts ih =>
    have ht := h t (by simp) j hk
    rw [Journaled.run_mapM_cons]
    exact .cons ht (ih (fun u hu => h u (List.mem_cons_of_mem _ hu)) (hk.trans ht.turns.created_le))

theorem WithinAll.created_le {ts rs : List Tree} {c c' : Nat} (h : WithinAll k ts c rs c') : c ≤ c' := by
  induction h with
  | nil => exact le_rfl
  | cons h _ ih => exact h.turns.created_le.trans ih

theorem WithinAll.slides {ts rs : List Tree} {c c' : Nat} (h : WithinAll k ts c rs c') :
    ∃ g, Sheds Node.Kept (censusAll ts) c g (censusAll rs) c' ∧
      ∀ l, (∀ t ∈ ts, t.Holds l) → ∀ r ∈ rs, r.Holds (l + g.map Node.box) := by
  induction h with
  | nil => exact ⟨0, .refl _ _, by simp⟩
  | cons h _ ih =>
    obtain ⟨g, hs, hh⟩ := h.slides
    obtain ⟨g', hs', hh'⟩ := ih
    refine ⟨g + g', ?_, fun l hl => ?_⟩
    · rw [censusAll_cons, censusAll_cons]
      exact hs.add hs'
    · obtain ⟨ht, hts⟩ := List.forall_mem_cons.1 hl
      rw [Multiset.map_add, ← add_assoc]
      refine List.forall_mem_cons.2 ⟨holds_add (hh l ht) _, ?_⟩
      rw [add_right_comm]
      exact fun r hr => holds_add (hh' l hts r hr) _

theorem WithinAll.map_box {ts rs : List Tree} {c c' : Nat} (h : WithinAll k ts c rs c') : rs.map box = ts.map box := by
  induction h with
  | nil => rfl
  | cons h _ ih => rw [List.map_cons, List.map_cons, h.box, ih]

/-- The members of one owner, each with all below it. -/
theorem slides_members {t : Tree} {f a : List Tree} {c c' c'' : Nat} (hf : WithinAll k t.flow c f c')
    (ha : WithinAll k t.attached c' a c'') : Slides t c ⟨t.node, f, a⟩ c'' := by
  obtain ⟨n, flow, attached⟩ := t
  obtain ⟨g, hs, hh⟩ := hf.slides
  obtain ⟨g', hs', hh'⟩ := ha.slides
  refine ⟨g + g', ?_, fun l hl => ?_⟩
  · rw [census_mk, census_mk]
    exact (hs.add hs').below n
  · obtain ⟨hf', ha'⟩ := every_flowing_mk.1 hl
    rw [Multiset.map_add, ← add_assoc]
    refine every_flowing_mk.2 ⟨fun r hr => ⟨?_, holds_add (hh l (fun t ht => (hf' t ht).below) r hr) _⟩, ?_⟩
    · have hr : r.box ∈ flow.map box := hf.map_box ▸ List.mem_map_of_mem hr
      obtain ⟨t, ht, hb⟩ := List.mem_map.1 hr
      rw [← hb, add_assoc]
      exact (hf' t ht).self.add _
    · rw [add_right_comm]
      exact fun r hr => holds_add (hh' l ha' r hr) _

/-- What holds of each tree that came out of a walk holds of all of them. -/
theorem WithinAll.forall {P : Tree → Prop} (hP : ∀ {t c r c'}, Within k t c r c' → P r) {ts rs : List Tree}
    {c c' : Nat} (h : WithinAll k ts c rs c') : ∀ r ∈ rs, P r := by
  induction h with
  | nil => simp
  | cons h _ ih => exact List.forall_mem_cons.2 ⟨hP h, ih⟩

theorem WithinAll.nil_iff {ts rs : List Tree} {c c' : Nat} (h : WithinAll k ts c rs c') : rs = [] ↔ ts = [] := by
  cases h <;> simp

theorem WithinAll.clear_of {t : Tree} {ts rs : List Tree} {c c' : Nat} (h : WithinAll k ts c rs c')
    (ht : ∀ u ∈ ts, ClearIfOld k t u) : ∀ u ∈ rs, ClearIfOld k t u := by
  induction h with
  | nil => simp
  | cons h _ ih =>
    obtain ⟨hu, hus⟩ := List.forall_mem_cons.1 ht
    refine List.forall_mem_cons.2 ⟨fun hi hi' => ?_, ih hus⟩
    rw [h.box]
    exact hu hi (h.index ▸ hi')

theorem WithinAll.clear {ts rs : List Tree} {c c' : Nat} (h : WithinAll k ts c rs c')
    (ht : ts.Pairwise (ClearIfOld k)) : rs.Pairwise (ClearIfOld k) := by
  induction h with
  | nil => exact .nil
  | cons h hs ih =>
    obtain ⟨ht, hts⟩ := List.pairwise_cons.1 ht
    refine List.pairwise_cons.2 ⟨fun u hu hi hi' => ?_, ih hts⟩
    rw [h.box]
    exact hs.clear_of ht u hu (h.index ▸ hi) hi'

theorem run_within {t : Tree} (h : t.node.isContent = false) (budget : Nat) (j : Journal) :
    within (budget + 1) t j =
      let u := level t j
      let flow := u.1.flow.mapM (within budget) u.2
      let attached := u.1.attached.mapM (within budget) flow.2
      (⟨u.1.node, flow.1, attached.1⟩, attached.2) := by
  rw [within, h]
  rfl

theorem within_within {budget : Nat} {t : Tree} {j : Journal} (hk : k ≤ j.created) (ht : t.Every (Sound k))
    (hb : weight k t ≤ budget) : Within k t j.created (within budget t j).1 (within budget t j).2.created := by
  induction budget generalizing t j with
  | zero =>
    have := one_le_older (parted_of_sound ht)
    unfold weight at hb
    omega
  | succ budget ih =>
    cases hc : t.node.isContent with
    | true =>
      have hr : within (budget + 1) t j = (t, j) := by
        rw [within, hc]
        rfl
      rw [hr]
      exact ⟨rfl, rfl, fun h => h, .refl _ _, .content hc (ht.mono fun _ h => h.modest), ht.mono fun _ h => h.pending⟩
    | false =>
      have hl := leveled_level hk ht hc
      have hk1 := hk.trans hl.slides.turns.created_le
      have step : ∀ m ∈ (level t j).1.members, ∀ j' : Journal, k ≤ j'.created →
          Within k m j'.created (within budget m j').1 (within budget m j').2.created := by
        intro m hm j' hj
        obtain ⟨hs, hw⟩ := hl.members m hm
        exact ih hj hs (by omega)
      have hflow := withinAll_mapM (fun m hm => step m (List.mem_append_left _ hm)) hk1
      have hattached := withinAll_mapM (fun m hm => step m (List.mem_append_right _ hm))
        (hk1.trans hflow.created_le)
      rw [run_within hc]
      refine ⟨hl.index, hl.box, hl.sized, hl.slides.trans (slides_members hflow hattached),
        .view hl.content ⟨hl.good.layer, ?_, fun hp => ?_⟩ fun m hm => ?_, every_iff.2 ⟨hl.pending, fun m hm => ?_⟩⟩
      · rw [ne_eq, hflow.nil_iff]
        exact hl.good.directed
      · exact hflow.clear (hl.good.clear hp)
      · exact (List.mem_append.1 hm).elim (hflow.forall Within.arranged m) (hattached.forall Within.arranged m)
      · exact (List.mem_append.1 hm).elim (hflow.forall Within.pending m) (hattached.forall Within.pending m)

/-- The whole tree is regrouped: the budget of the walk suffices. -/
theorem within_tree {t : Tree} {j : Journal} (hk : k ≤ j.created) (ht : t.Every (Sound k)) :
    Within k t j.created (Regroup.tree t j).1 (Regroup.tree t j).2.created := by
  apply within_within hk ht
  have h : older k t.census ≤ t.size := by
    rw [← card_census]
    exact Multiset.countP_le_card _ _
  unfold weight depth
  split_ifs <;> omega

end FlexRecovery.Regroup
