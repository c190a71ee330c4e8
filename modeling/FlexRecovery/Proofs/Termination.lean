import FlexRecovery.Proofs.Composed
import FlexRecovery.Proofs.Loops

/-!
Regrouping ends for every tree. The walk of `Regroup.within` is stated here without its budget, as the visits it
pays and the calls it makes; the calls are well founded, and the visits lead to what `Regroup.tree` gives.
-/

namespace FlexRecovery.Regroup

open Tree Ledger

/-- Siblings are visited in turn: each is regrouped, then its flow children are visited, then what is attached. -/
inductive Visits : List Tree → Journal → List Tree → Journal → Prop where
  | nil (j) : Visits [] j [] j
  | content {t : Tree} {ts j rs j'} (h : t.node.isContent = true) (hs : Visits ts j rs j') : Visits (t :: ts) j (t :: rs) j'
  | view {t : Tree} {ts j f jf a ja rs j'} (h : t.node.isContent = false)
      (hf : Visits (level t j).1.flow (level t j).2 f jf) (ha : Visits (level t j).1.attached jf a ja)
      (hs : Visits ts ja rs j') : Visits (t :: ts) j (⟨(level t j).1.node, f, a⟩ :: rs) j'

/-- While it is visited, a tree calls for the visit of a member, after the visits to the members before it. -/
inductive Calls : Tree × Journal → Tree × Journal → Prop where
  | flow {t : Tree} {j before m after rs j'} (h : t.node.isContent = false) (hm : (level t j).1.flow = before ++ m :: after)
      (hv : Visits before (level t j).2 rs j') : Calls (t, j) (m, j')
  | attached {t : Tree} {j f jf before m after rs j'} (h : t.node.isContent = false)
      (hf : Visits (level t j).1.flow (level t j).2 f jf) (hm : (level t j).1.attached = before ++ m :: after)
      (hv : Visits before jf rs j') : Calls (t, j) (m, j')

variable {k : Nat} {j j' : Journal}

/-- A visit leads to one result only. -/
theorem Visits.unique {ts rs rs' : List Tree} {i : Journal} (h : Visits ts j rs j') (h' : Visits ts j rs' i) :
    rs = rs' ∧ j' = i := by
  induction h generalizing rs' i with
  | nil j =>
    cases h'
    exact ⟨rfl, rfl⟩
  | content h hs ih =>
    cases h' with
    | content h' hs' =>
      obtain ⟨rfl, rfl⟩ := ih hs'
      exact ⟨rfl, rfl⟩
    | view h' => exact absurd (h.symm.trans h') (by decide)
  | view h hf ha hs ihf iha ihs =>
    cases h' with
    | content h' => exact absurd (h.symm.trans h') (by decide)
    | view h' hf' ha' hs' =>
      obtain ⟨rfl, rfl⟩ := ihf hf'
      obtain ⟨rfl, rfl⟩ := iha ha'
      obtain ⟨rfl, rfl⟩ := ihs hs'
      exact ⟨rfl, rfl⟩

section created

theorem created_le_layOut (preferred : Axis) (budget : Nat) (t : Tree) (j : Journal) :
    j.created ≤ (layOut preferred budget t j).2.created := by
  induction budget generalizing t j with
  | zero => exact le_rfl
  | succ budget ih =>
    unfold layOut
    split
    · exact le_rfl
    · cases chooseAxis preferred t.flow with
      | some p => exact Journaled.created_le_mapM (created_le_bandTree p.1) p.2 j
      | none =>
        cases offender? t.flow with
        | none => exact le_rfl
        | some q => exact ih _ (Journal.warn _ _ _ j).2

theorem created_le_level (t : Tree) (j : Journal) : j.created ≤ (level t j).2.created := by
  cases hp : isPreset t.node with
  | true => rw [level_of_preset hp]
  | false =>
    obtain ⟨u, j', hs, hr⟩ := shifts_level hp j
    rw [hr]
    refine hs.created_le.trans ?_
    unfold makeFlex
    split
    · exact le_rfl
    · exact created_le_layOut _ _ _ _

theorem Visits.created_le {ts rs : List Tree} (h : Visits ts j rs j') : j.created ≤ j'.created := by
  induction h with
  | nil => exact le_rfl
  | content _ _ ih => exact ih
  | view _ _ _ _ ihf iha ihs => exact ((created_le_level _ _).trans ihf).trans (iha.trans ihs)

end created

/-- Regrouping a tree leaves it with members that weigh less. -/
theorem weight_lt_level {t : Tree} (hk : k ≤ j.created) (hc : t.node.isContent = false) (ht : t.Every (Composed k)) :
    ∀ m ∈ (level t j).1.members, m.Every (Composed k) ∧ weight k m < weight k t := by
  have h := axed_level hk hc ht
  intro m hm
  refine ⟨h.composed m hm, weight_lt h.index ?_ hm (fun u hu => parted_of_composed (h.composed u hu)) (fun hi hp => ?_)
    fun _ _ => h.members m hm⟩
  · have ho := h.older
    simp only [Tree.members, censusAll_append, older_add] at ho
    rw [older_census, older_census, h.index]
    omega
  · rw [level_of_preset hp]
    exact (every_iff.1 ht).1.parted hi

theorem Calls.member {t m : Tree} (h : Calls (t, j) (m, j')) :
    t.node.isContent = false ∧ m ∈ (level t j).1.members ∧ j.created ≤ j'.created := by
  cases h with
  | flow h hm hv =>
    refine ⟨h, List.mem_append_left _ ?_, (created_le_level t j).trans hv.created_le⟩
    rw [hm]
    exact List.mem_append_right _ (List.mem_cons_self ..)
  | attached h hf hm hv =>
    refine ⟨h, List.mem_append_right _ ?_, (created_le_level t j).trans (hf.created_le.trans hv.created_le)⟩
    rw [hm]
    exact List.mem_append_right _ (List.mem_cons_self ..)

/-- The calls below a tree are well founded, since each of them is for a lighter tree. -/
theorem acc_calls {t : Tree} (hk : k ≤ j.created) (ht : t.Every (Composed k)) : Acc (fun d c => Calls c d) (t, j) := by
  induction h : weight k t using Nat.strong_induction_on generalizing t j with
  | _ w ih =>
    refine .intro _ fun ⟨m, i⟩ hcall => ?_
    obtain ⟨hc, hm, hi⟩ := hcall.member
    obtain ⟨hmc, hw⟩ := weight_lt_level hk hc ht m hm
    exact ih _ (h ▸ hw) (hk.trans hi) hmc rfl

/-- A budget above the weights is not used up: what the walk does is the visits. -/
theorem visits_within {budget : Nat} {ts : List Tree} (hk : k ≤ j.created)
    (ht : ∀ t ∈ ts, t.Every (Composed k) ∧ weight k t < budget) :
    Visits ts j (ts.mapM (within budget) j).1 (ts.mapM (within budget) j).2 := by
  induction budget generalizing ts j with
  | zero =>
    cases ts with
    | nil => exact .nil j
    | cons t ts => exact absurd (ht t (List.mem_cons_self ..)).2 (Nat.not_lt_zero _)
  | succ budget ih =>
    induction ts generalizing j with
    | nil => exact .nil j
    | cons t ts ihs =>
      obtain ⟨⟨hs, hw⟩, hts⟩ := List.forall_mem_cons.1 ht
      rw [Journaled.run_mapM_cons]
      cases hc : t.node.isContent with
      | true =>
        have hr : within (budget + 1) t j = (t, j) := by
          rw [within, hc]
          rfl
        rw [hr]
        exact .content hc (ihs hk hts)
      | false =>
        have hm := weight_lt_level hk hc hs
        have hk' := hk.trans (created_le_level t j)
        have hf := ih hk' fun m hmem => ⟨(hm m (List.mem_append_left _ hmem)).1,
          (hm m (List.mem_append_left _ hmem)).2.trans_le (Nat.le_of_lt_succ hw)⟩
        have ha := ih (hk'.trans hf.created_le) fun m hmem => ⟨(hm m (List.mem_append_right _ hmem)).1,
          (hm m (List.mem_append_right _ hmem)).2.trans_le (Nat.le_of_lt_succ hw)⟩
        rw [run_within hc]
        exact .view hc hf ha (ihs (hk'.trans (hf.created_le.trans ha.created_le)) hts)

theorem visits_tree {t : Tree} (hk : k ≤ j.created) (ht : t.Every (Composed k)) :
    Visits [t] j [(Regroup.tree t j).1] (Regroup.tree t j).2 := by
  have hw : weight k t < depth t := by
    have h : older k t.census ≤ t.size := by
      rw [← card_census]
      exact Multiset.countP_le_card _ _
    unfold weight depth
    split_ifs <;> omega
  exact visits_within hk (List.forall_mem_singleton.2 ⟨ht, hw⟩)

theorem older_le_of_mem_subtrees {s t : Tree} (h : s ∈ t.subtrees) : older k s.census ≤ older k t.census := by
  induction t using induction_members with
  | _ t ih =>
    rcases mem_subtrees.1 h with rfl | ⟨m, hm, hs⟩
    · exact le_rfl
    · refine (ih m hm hs).trans ?_
      rw [older_census k t]
      rcases List.mem_append.1 hm with hm | hm
      · have := older_le_of_mem (k := k) hm
        omega
      · have := older_le_of_mem (k := k) hm
        omega

/-- Of the nodes that were there before, a container that was made holds fewer than the owner it was made for, if
it is no list. -/
theorem older_lt_of_axed {t r m s : Tree} (h : Axed k t r) (hm : m ∈ r.members) (hs : s ∈ m.subtrees)
    (hi : k ≤ s.node.index) : s.node.roles.isList = true ∨ older k s.census < older k (censusAll t.members) := by
  have among {u : Tree} {ts : List Tree} (hu : u ∈ ts) (hl : 2 ≤ ts.length) (hts : ∀ v ∈ ts, v.Every (Composed k)) :
      older k u.census < older k (censusAll ts) := older_lt_of_mem hu hl fun v hv => parted_of_composed (hts v hv)
  have hle := (older_le_of_mem (k := k) hm).trans h.older
  rcases exists_owner hs with rfl | ⟨u, hu, hsu⟩
  · rcases h.members s hm with hb | ⟨hl, hf⟩
    · exact .inl (hb.resolve_left (Nat.not_lt.2 hi))
    refine .inr ?_
    have hlt := among hf hl fun v hv => h.composed v (List.mem_append_left _ hv)
    have ho := h.older
    simp only [Tree.members, censusAll_append, older_add] at ho ⊢
    omega
  · have hmu := h.composed m hm u hu
    rcases hmu.members s hsu with hb | ⟨-, hl, hf⟩
    · exact .inl (hb.resolve_left (Nat.not_lt.2 hi))
    refine .inr ?_
    have hlt := among hf hl fun v hv =>
      fun w hw => h.composed m hm w (mem_subtrees_trans hw (mem_subtrees_of_mem_members (List.mem_append_left _ hv) hu))
    have hsub := older_le_of_mem_subtrees (k := k) hu
    rw [older_census k u] at hsub
    omega

/-- What is called on the way is composed like the tree at the root. -/
theorem composed_of_calls {c d : Tree × Journal} (h : Relation.ReflTransGen Calls c d) (hk : k ≤ c.2.created)
    (hc : c.1.Every (Composed k)) : k ≤ d.2.created ∧ d.1.Every (Composed k) := by
  induction h with
  | refl => exact ⟨hk, hc⟩
  | tail _ hcall ih =>
    obtain ⟨hcontent, hm, hle⟩ := hcall.member
    exact ⟨ih.1.trans hle, (weight_lt_level ih.1 hcontent ih.2 _ hm).1⟩

theorem composed_of_index_lt {t : Tree} (h : ∀ s ∈ t.subtrees, s.node.index < k) : t.Every (Composed k) := fun s hs =>
  ⟨fun hi => absurd (h s hs) (Nat.not_lt.2 hi), fun m hm => .inl (.inl (h m (mem_subtrees_of_mem_members hm hs)))⟩

/-- Regrouping ends for every tree whose nodes have been counted: its calls are well founded, its visits lead to
the one result, and so do the loops at each node. A container that is made for a node and is no list, which would
not be regrouped, holds fewer of the nodes than the members of that node did, whether one counts the nodes that
were there before the tree was regrouped, or before that node was, or at any time between. -/
theorem regrouping_ends {t : Tree} {j : Journal} (h : ∀ s ∈ t.subtrees, s.node.index < j.created) :
    Acc (fun d c => Calls c d) (t, j) ∧
    (∀ rs i, Visits [t] j rs i ↔ rs = [(Regroup.tree t j).1] ∧ i = (Regroup.tree t j).2) ∧
    (∀ u i, Relation.ReflTransGen Calls (t, j) (u, i) → u.node.isContent = false →
      ∀ m ∈ (level u i).1.members, ∀ s ∈ m.subtrees, ∀ k, j.created ≤ k → k ≤ i.created → k ≤ s.node.index →
        (s.node.roles.isList = true ∧ ∀ i', level s i' = (s, i')) ∨
          older k s.census < older k (censusAll u.members)) ∧
    (∀ u count, Ends foldStep (u, count) (foldRedundant u count)) ∧
    (∀ u i, Ends settleStep (u, i) (collapseEqual u i)) ∧
    (∀ axis ts, Ends (bandStep axis) ([], ts) (pivotBands axis ts, [])) ∧
    ∀ axis u i, ∃ s, Ends (demoteStep axis) (u, i) s ∧
      ∀ budget, u.flow.length ≤ budget → layOut axis budget u i = layOut axis 1 s.1 s.2 := by
  have ht := composed_of_index_lt h
  have hv := visits_tree le_rfl ht
  refine ⟨acc_calls le_rfl ht, fun rs i => ⟨fun hr => hr.unique hv, ?_⟩, ?_, ends_foldRedundant, ends_collapseEqual,
    fun axis ts => ends_pivotBands axis [] ts, ends_layOut⟩
  · rintro ⟨rfl, rfl⟩
    exact hv
  · intro u i hcalls hc m hm s hs k hjk hki hsk
    have hu := (composed_of_calls hcalls le_rfl ht).2
    have hlevel := axed_level hki hc (hu.mono fun _ hs => hs.mono hjk)
    refine (older_lt_of_axed hlevel hm hs hsk).imp_left fun hl => ⟨hl, fun i' => level_of_preset ?_ i'⟩
    rw [isPreset, hl, Bool.true_or]

/-- Four equal boxes in a row, which become a list, and a strip across them, which does not fit in. -/
def railing : Tree :=
  let post (index : Nat) (left : Int) : Tree := ⟨{ index, box := ⟨left, 0, 10, 40⟩ }, [], []⟩
  ⟨{ box := ⟨0, 0, 100, 50⟩ }, [post 1 0, post 2 20, post 3 40, post 4 60, ⟨{ index := 5, box := ⟨0, 20, 70, 10⟩ }, [], []⟩], []⟩

theorem regrouping_ends_railing : (∀ s ∈ railing.subtrees, s.node.index < 6) ∧
    Acc (fun d c => Calls c d) (railing, ⟨6, []⟩) ∧
    Visits [railing] ⟨6, []⟩ [(Regroup.tree railing ⟨6, []⟩).1] (Regroup.tree railing ⟨6, []⟩).2 := by
  have h : ∀ s ∈ railing.subtrees, s.node.index < 6 := by decide
  have hr := regrouping_ends (j := ⟨6, []⟩) h
  exact ⟨h, hr.1, (hr.2.1 _ _).2 ⟨rfl, rfl⟩⟩

end FlexRecovery.Regroup
