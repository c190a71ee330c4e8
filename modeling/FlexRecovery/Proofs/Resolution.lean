import FlexRecovery.Proofs.Walking

/-!
Resolving keeps what regrouping made: no node is dropped, each node of the regrouped tree is found again with
its direction, and drafted siblings stay where they are.
-/

namespace FlexRecovery.Resolve

open Node Tree Regroup

variable {k : Nat} {d : Option Axis}

/-- Stands where that tree stood, unless it is new. -/
def Covers (k : Nat) (t r : Tree) : Prop :=
  r.node.index < k → r.node.index = t.node.index ∧ (t.node.id.isSome = true → r.box = t.box)

theorem covers_of_later {t r : Tree} (h : t.node.Later r.node) : Covers k t r :=
  fun _ => ⟨h.index, h.box⟩

theorem Restyled.covers {t r : Tree} (h : Restyled t r) : Covers k t r := by
  obtain ⟨n, hn, rfl⟩ := h
  exact covers_of_later hn.later

/-- Siblings stay clear of each other. -/
theorem clear_of_covers {ts rs : List Tree} (h : List.Forall₂ (Covers k) ts rs)
    (hl : ∀ t ∈ ts, t.node.index < k → t.node.id.isSome = true) (hc : ts.Pairwise (ClearIfOld k)) :
    rs.Pairwise (ClearIfOld k) := by
  induction h with
  | nil => exact .nil
  | @cons t r ts rs ht hts ih =>
    obtain ⟨htc, hc⟩ := List.pairwise_cons.1 hc
    refine List.pairwise_cons.2 ⟨fun v hv hi hi' => ?_, ih (fun u hu => hl u (List.mem_cons_of_mem _ hu)) hc⟩
    obtain ⟨u, hu, hcov⟩ := exists_of_mem_right hts hv
    obtain ⟨he, hb⟩ := ht hi
    obtain ⟨he', hb'⟩ := hcov hi'
    have hti : t.node.index < k := he ▸ hi
    have hui : u.node.index < k := he' ▸ hi'
    rw [hb (hl t (by simp) hti), hb' (hl u (List.mem_cons_of_mem _ hu) hui)]
    exact htc u hu hti hui

/-- Whatever the members have become. -/
theorem modest_remade {t r : Tree} (h : Modest k t) (hn : t.node.Akin r.node) (hf : r.flow = [] ↔ t.flow = [])
    (ha : t.attached = [] → r.attached = []) : Modest k r where
  layer := by
    rw [hn.later.index, hn.later.id]
    exact h.layer
  shared := by
    rw [hn.direction, ne_eq, hf]
    exact h.shared
  content := by
    rw [hn.content, hn.direction, hf]
    exact h.content
  text := by
    rw [hn.later.isText]
    exact fun ht => ha (h.text ht)
  span := by
    rw [hn.tag]
    exact h.span

theorem good_remade {t r : Tree} (h : Good k t) (hn : t.node.Akin r.node) (hf : r.flow = [] ↔ t.flow = [])
    (hc : t.flow.Pairwise (ClearIfOld k) → r.flow.Pairwise (ClearIfOld k)) : Good k r where
  layer := by
    rw [hn.later.index, hn.later.id]
    exact h.layer
  directed := by
    rw [hn.direction, ne_eq, hf]
    exact h.directed
  clear := by
    rw [hn.preset]
    exact fun hp => hc (h.clear hp)

theorem modest_restyled {t u : Tree} (h : Restyled t u) (ht : t.Every (Modest k)) : u.Every (Modest k) := by
  obtain ⟨n, hn, rfl⟩ := h
  obtain ⟨hm, hms⟩ := every_iff.1 ht
  exact every_iff.2 ⟨modest_remade hm hn.akin .rfl id, hms⟩

theorem arranged_restyled {t u : Tree} (h : Restyled t u) (ht : Arranged k t) : Arranged k u := by
  cases ht with
  | content hc hs =>
    refine .content ?_ (modest_restyled h hs)
    obtain ⟨n, hn, rfl⟩ := h
    exact hn.akin.content.trans hc
  | view hc hg hm =>
    obtain ⟨n, hn, rfl⟩ := h
    exact .view (hn.akin.content.trans hc) (good_remade hg hn.akin .rfl id) hm

theorem grows_restyled {ts us : List Tree} (h : List.Forall₂ Restyled ts us) (c : Nat) :
    Grows (censusAll ts) c (censusAll us) c := by
  induction h with
  | nil => exact .refl _ _
  | cons h _ ih =>
    obtain ⟨n, hn, rfl⟩ := h
    rw [censusAll_cons, censusAll_cons]
    exact (Grows.node hn.later c).add ih

theorem Dressed.grows {ts us : List Tree} {c c' : Nat} (h : Dressed ts c us c') :
    Grows (censusAll ts) c (censusAll us) c' := by
  cases h with
  | plain h => exact grows_restyled h c
  | @spaced us vs h hu hv s c hs =>
    refine (grows_restyled h c).trans ?_
    have hm := Grows.make hs.made (censusAll us + censusAll vs)
    simp only [censusAll_append, censusAll_cons, census_mk, censusAll_nil, add_zero]
    rw [← Multiset.singleton_add] at hm
    rw [Multiset.cons_zero, add_left_comm]
    exact hm

theorem Dressed.nil_iff {ts us : List Tree} {c c' : Nat} (h : Dressed ts c us c') : us = [] ↔ ts = [] := by
  cases h with
  | plain h => rw [← List.length_eq_zero_iff, ← List.length_eq_zero_iff, h.length_eq]
  | spaced h hu =>
    have hl := h.length_eq
    simp only [List.append_eq_nil_iff, List.cons_ne_nil, and_false, false_iff]
    rintro rfl
    simp_all

/-- What holds of the children holds of them in their new dress, if it holds of a spacer. -/
theorem Dressed.forall {P : Tree → Prop} (hr : ∀ t u, Restyled t u → P t → P u)
    (hs : ∀ (s : Node) c, k ≤ c → Spacer s c → P ⟨s, [], []⟩) {ts us : List Tree} {c c' : Nat}
    (h : Dressed ts c us c') (hk : k ≤ c) (ht : ∀ t ∈ ts, P t) : ∀ u ∈ us, P u := by
  have all {us : List Tree} (h : List.Forall₂ Restyled ts us) : ∀ u ∈ us, P u := by
    intro u hu
    obtain ⟨t, hmem, hres⟩ := exists_of_mem_right h hu
    exact hr t u hres (ht t hmem)
  cases h with
  | plain h => exact all h
  | spaced h hu hv hspacer =>
    intro u hu'
    rcases List.mem_append.1 hu' with hu' | hu'
    · exact all h u (List.mem_append_left _ hu')
    · rcases List.mem_cons.1 hu' with rfl | hu'
      · exact hs _ _ hk hspacer
      · exact all h u (List.mem_append_right _ hu')

theorem spacer_modest (s : Node) (c : Nat) (hk : k ≤ c) (hs : Spacer s c) : Every (Modest k) ⟨s, [], []⟩ := by
  refine every_iff.2 ⟨⟨fun hi => ?_, fun h => ?_, fun _ => ⟨rfl, ?_⟩, fun _ => rfl, ?_⟩, by simp [Tree.members]⟩
  · have := hs.made.index
    dsimp only at hi
    omega
  · simp [hs.direction] at h
  · simp [hs.direction]
  · simp [hs.made.tag]

theorem spacer_arranged (s : Node) (c : Nat) (hk : k ≤ c) (hs : Spacer s c) : Arranged k ⟨s, [], []⟩ := by
  refine .view (by simp [isContent, hs.made.tag]) ⟨fun hi => ?_, by simp [hs.direction], fun _ => .nil⟩
    (by simp [Tree.members])
  have := hs.made.index
  dsimp only at hi
  omega

theorem Dressed.clear {ts us : List Tree} {c c' : Nat} (h : Dressed ts c us c') (hk : k ≤ c)
    (hl : ∀ t ∈ ts, t.node.index < k → t.node.id.isSome = true) (hc : ts.Pairwise (ClearIfOld k)) :
    us.Pairwise (ClearIfOld k) := by
  have covers {us : List Tree} (h : List.Forall₂ Restyled ts us) : us.Pairwise (ClearIfOld k) :=
    clear_of_covers (h.imp fun _ _ => Restyled.covers) hl hc
  cases h with
  | plain h => exact covers h
  | @spaced us vs h hu hv s c hs =>
    have hp := List.pairwise_append.1 (covers h)
    have hi : k ≤ s.index := by
      rw [hs.made.index]
      exact hk
    refine List.pairwise_append.2 ⟨hp.1, List.pairwise_cons.2 ⟨fun v _ hlt => ?_, hp.2.1⟩, fun u hu v hv => ?_⟩
    · dsimp only at hlt
      omega
    · rcases List.mem_cons.1 hv with rfl | hv
      · intro _ hlt
        dsimp only at hlt
        omega
      · exact hp.2.2 u hu v hv

/-- The children in their slots, before they are resolved. -/
def seated (ss : List Slot) (ts : List Tree) : List Tree := List.zipWith Slot.seat ss ts

theorem Slotted.grows {ts : List Tree} {c c' : Nat} {ss : List Slot} (h : Slotted d (ts.map node) c ss c') :
    Grows (censusAll ts) c (censusAll (seated ss ts)) c' := by
  induction ts generalizing c ss with
  | nil =>
    cases h
    exact .refl _ _
  | cons t ts ih =>
    cases h with
    | bare hn hz h =>
      rw [seated, List.zipWith_cons_cons, censusAll_cons, censusAll_cons]
      exact (Grows.node hn.later c).add (ih h)
    | @wrapped _ n' hn _ w _ hw _ ss _ h =>
      rw [seated, List.zipWith_cons_cons, censusAll_cons, censusAll_cons]
      have hwrap : Grows t.census c (Slot.seat ⟨n', some w⟩ t).census (c + 1) := by
        simp only [Slot.seat, census_mk w, censusAll_cons, censusAll_nil, add_zero]
        exact (Grows.node hn.later c).trans (.make hw.made _)
      exact hwrap.add (ih h)

theorem Slotted.created_le {ns : List Node} {c c' : Nat} {ss : List Slot} (h : Slotted d ns c ss c') : c ≤ c' := by
  induction h with
  | nil => exact le_rfl
  | bare _ _ _ ih => exact ih
  | wrapped _ _ _ _ ih => omega

/-- What a tree with that node in place of its own is resolved to. -/
structure Resolved (k : Nat) (t : Tree) (n : Node) (c : Nat) (r : Tree) (c' : Nat) : Prop where
  styled : Styled none n r.node
  grows : Grows (census ⟨n, t.flow, t.attached⟩) c r.census c'
  modest : t.Every (Modest k) → r.Every (Modest k)
  arranged : Arranged k t → Arranged k r

/-- What the children in their slots are resolved to. -/
structure FlowResolved (k : Nat) (ts : List Tree) (ss : List Slot) (c : Nat) (rs : List Tree) (c' : Nat) :
    Prop where
  grows : Grows (censusAll (seated ss ts)) c (censusAll rs) c'
  modest : (∀ t ∈ ts, t.Every (Modest k)) → ∀ r ∈ rs, r.Every (Modest k)
  arranged : (∀ t ∈ ts, Arranged k t) → ∀ r ∈ rs, Arranged k r
  covers : List.Forall₂ (Covers k) ts rs

theorem FlowResolved.cons {t r : Tree} {s : Slot} {ts rs : List Tree} {ss : List Slot} {c c' c'' : Nat}
    (hg : Grows (s.seat t).census c r.census c') (hm : t.Every (Modest k) → r.Every (Modest k))
    (ha : Arranged k t → Arranged k r) (hc : Covers k t r) (h : FlowResolved k ts ss c' rs c'') :
    FlowResolved k (t :: ts) (s :: ss) c (r :: rs) c'' where
  grows := by
    rw [seated, List.zipWith_cons_cons, censusAll_cons, censusAll_cons]
    exact hg.add h.grows
  modest := by
    intro ht u hu
    rcases List.mem_cons.1 hu with rfl | hu
    · exact hm (ht t (by simp))
    · exact h.modest (fun v hv => ht v (List.mem_cons_of_mem _ hv)) u hu
  arranged := by
    intro ht u hu
    rcases List.mem_cons.1 hu with rfl | hu
    · exact ha (ht t (by simp))
    · exact h.arranged (fun v hv => ht v (List.mem_cons_of_mem _ hv)) u hu
  covers := .cons hc h.covers

/-- A text in its wrapper, finished. -/
theorem wrapper_resolved {t r : Tree} {n n' w : Node} {c c' cw : Nat} (hw : Wrapper w cw) (hk : k ≤ cw)
    (hn : Later n n') (hr : Resolved k t n' c r c') (hkc : k ≤ c') {w' : Node} {us : List Tree} {c'' : Nat}
    (hw' : Styled none w w') (hd : Dressed [r] c' us c'') :
    Grows (Slot.seat ⟨n, some w⟩ t).census c (census ⟨w', us, []⟩) c'' ∧
      (t.Every (Modest k) → Every (Modest k) ⟨w', us, []⟩) ∧ (Arranged k t → Arranged k ⟨w', us, []⟩) := by
  have hne : us ≠ [] := by
    rw [ne_eq, hd.nil_iff]
    simp
  have hdir : w'.direction.isSome = true := by
    rw [hw'.direction, hw.directed]
    rfl
  have hview : w'.isContent = false := by simp [isContent, hw'.tag, hw.made.tag]
  have hnew : ¬w'.index < k := by
    rw [hw'.later.index, hw.made.index]
    omega
  refine ⟨?_, fun hm => ?_, fun ha => ?_⟩
  · simp only [Slot.seat, census_mk w, census_mk w', censusAll_cons, censusAll_nil, add_zero]
    have hg : Grows (census ⟨n, t.flow, t.attached⟩) c (censusAll us) c'' :=
      ((Grows.node (t := ⟨n, t.flow, t.attached⟩) hn c).trans hr.grows).trans (by simpa using hd.grows)
    exact (hg.below w).trans (.change hw'.later _ _)
  · refine every_iff.2 ⟨⟨fun h => absurd h hnew, fun _ => hne, fun h => ?_, fun _ => rfl, ?_⟩, fun u hu => ?_⟩
    · rw [hview] at h
      cases h
    · simp [hw'.tag, hw.made.tag]
    · have hu : u ∈ us := by simpa [Tree.members] using hu
      exact hd.forall (fun _ _ => modest_restyled) spacer_modest hkc (by simpa using hr.modest hm) u hu
  · refine .view hview ⟨fun h => absurd h hnew, ⟨fun _ => hne, fun _ => hdir⟩, fun _ => ?_⟩ fun u hu => ?_
    · exact hd.clear hkc (by simpa using (hr.arranged ha).layer) (List.pairwise_singleton _ _)
    · have hu : u ∈ us := by simpa [Tree.members] using hu
      exact hd.forall (fun _ _ => arranged_restyled) spacer_arranged hkc (by simpa using hr.arranged ha) u hu

/-- What `resolved` says of a tree that gets a settled node. -/
def Settles (k : Nat) : Becoming := fun t n c r c' => t.node.Akin n → k ≤ c → Resolved k t n c r c'

theorem FlowBy.resolved {ts : List Tree} {ss : List Slot} {b b' : Nat} {rs : List Tree}
    (h : FlowBy (Settles k) ts ss b rs b') {c c' : Nat} (hs : Slotted d (ts.map node) c ss c') (hc : k ≤ c)
    (hk : k ≤ b) : FlowResolved k ts ss b rs b' := by
  induction h generalizing c with
  | nil => exact ⟨.refl _ _, by simp, by simp, .nil⟩
  | bare h _ ih =>
    cases hs with
    | bare hn _ hs =>
      have hr := h hn.akin hk
      exact .cons hr.grows hr.modest hr.arranged (covers_of_later (hn.later.trans hr.styled.later))
        (ih hs hc (hk.trans hr.grows.created_le))
  | wrapped hn' hz h hw' hd _ ih =>
    cases hs with
    | wrapped hn ht hw hs =>
      have hr := h (hn.akin.trans hn'.akin) hk
      obtain ⟨hg, hm, ha⟩ := wrapper_resolved hw hc hn'.later hr (hk.trans hr.grows.created_le) hw' hd
      refine .cons hg hm ha (fun hi => ?_) (ih hs (by omega) (hk.trans hg.created_le))
      rw [hw'.later.index, hw.made.index] at hi
      omega

/-- What the nodes placed on an owner are resolved to. -/
structure AttachedResolved (k : Nat) (ts : List Tree) (c : Nat) (rs : List Tree) (c' : Nat) : Prop where
  grows : Grows (censusAll ts) c (censusAll rs) c'
  modest : (∀ t ∈ ts, t.Every (Modest k)) → ∀ r ∈ rs, r.Every (Modest k)
  arranged : (∀ t ∈ ts, Arranged k t) → ∀ r ∈ rs, Arranged k r
  length : rs.length = ts.length

theorem AttachedResolved.nil_iff {ts rs : List Tree} {c c' : Nat} (h : AttachedResolved k ts c rs c') :
    rs = [] ↔ ts = [] := by
  rw [← List.length_eq_zero_iff, ← List.length_eq_zero_iff, h.length]

theorem AttachedResolved.cons {t r : Tree} {n : Node} {ts rs : List Tree} {c c' c'' : Nat}
    (hn : t.node.Styled none n) (hr : Resolved k t n c r c') {u : Tree} (hu : Restyled r u)
    (h : AttachedResolved k ts c' rs c'') : AttachedResolved k (t :: ts) c (u :: rs) c'' where
  grows := by
    rw [censusAll_cons, censusAll_cons]
    have hg := (Grows.node hn.later c).trans hr.grows
    obtain ⟨n', hn', rfl⟩ := hu
    exact (hg.trans (Grows.node hn'.later c')).add h.grows
  modest := by
    intro ht v hv
    rcases List.mem_cons.1 hv with rfl | hv
    · exact modest_restyled hu (hr.modest (ht t (by simp)))
    · exact h.modest (fun m hm => ht m (List.mem_cons_of_mem _ hm)) v hv
  arranged := by
    intro ht v hv
    rcases List.mem_cons.1 hv with rfl | hv
    · exact arranged_restyled hu (hr.arranged (ht t (by simp)))
    · exact h.arranged (fun m hm => ht m (List.mem_cons_of_mem _ hm)) v hv
  length := by rw [List.length_cons, List.length_cons, h.length]

theorem AttachedBy.resolved {ts rs : List Tree} {c c' : Nat} (h : AttachedBy (Settles k) ts c rs c') (hk : k ≤ c) :
    AttachedResolved k ts c rs c' := by
  induction h with
  | nil => exact ⟨.refl _ _, by simp, by simp, rfl⟩
  | member hn _ h hu _ ih =>
    have hr := h hn.akin hk
    exact .cons hn hr hu (ih (hk.trans hr.grows.created_le))

theorem FlowResolved.nil_iff {ts rs : List Tree} {ss : List Slot} {c c' : Nat} (h : FlowResolved k ts ss c rs c') :
    rs = [] ↔ ts = [] := by
  rw [← List.length_eq_zero_iff, ← List.length_eq_zero_iff, h.covers.length_eq]

/-- A node, its flow children and what is placed on it, resolved one after the other. -/
theorem Resolved.assemble {t : Tree} {n n' : Node} {ss : List Slot} {fs us rs : List Tree} {c c1 c2 c3 c4 : Nat}
    (hn : t.node.Akin n) (hs : Slotted d (t.flow.map node) c ss c1) (hf : FlowResolved k t.flow ss c1 fs c2)
    (hk : k ≤ c2) (hn' : Styled none n n') (hd : Dressed fs c2 us c3) (ha : AttachedResolved k t.attached c3 rs c4) :
    Resolved k t n c ⟨n', us, rs⟩ c4 := by
  have hnn := hn.trans hn'.akin
  have hnil : us = [] ↔ t.flow = [] := hd.nil_iff.trans hf.nil_iff
  have hgrows : Grows (census ⟨n, t.flow, t.attached⟩) c (census ⟨n', us, rs⟩) c4 := by
    rw [census_mk, census_mk]
    have hg := ((hs.grows.trans hf.grows).trans hd.grows).add ha.grows
    exact (hg.below n).trans (.change hn'.later _ _)
  have hmodest (h : t.Every (Modest k)) : Every (Modest k) ⟨n', us, rs⟩ := by
    obtain ⟨hm, hms⟩ := every_iff.1 h
    have hus : ∀ u ∈ us, u.Every (Modest k) := hd.forall (fun _ _ => modest_restyled) spacer_modest hk
      (hf.modest fun u hu => hms u (List.mem_append_left _ hu))
    have hrs : ∀ r ∈ rs, r.Every (Modest k) := ha.modest fun u hu => hms u (List.mem_append_right _ hu)
    refine every_iff.2 ⟨modest_remade hm hnn hnil ha.nil_iff.2, fun u hu => ?_⟩
    exact (List.mem_append.1 hu).elim (hus u) (hrs u)
  refine ⟨hn', hgrows, hmodest, fun h => ?_⟩
  cases h with
  | content hc h => exact .content (hnn.content.trans hc) (hmodest h)
  | view hc hg hm =>
    have hflow : ∀ u ∈ t.flow, Arranged k u := fun u hu => hm u (List.mem_append_left _ hu)
    have hfs := hf.arranged hflow
    have hus : ∀ u ∈ us, Arranged k u := hd.forall (fun _ _ => arranged_restyled) spacer_arranged hk hfs
    have hrs := ha.arranged fun u hu => hm u (List.mem_append_right _ hu)
    have hclear (h : t.flow.Pairwise (ClearIfOld k)) : us.Pairwise (ClearIfOld k) :=
      hd.clear hk (fun u hu => (hfs u hu).layer) (clear_of_covers hf.covers (fun u hu => (hflow u hu).layer) h)
    refine .view (hnn.content.trans hc) (good_remade hg hnn hnil hclear) fun u hu => ?_
    exact (List.mem_append.1 hu).elim (hus u) (hrs u)

theorem OwnerBy.resolved {t r : Tree} {n : Node} {c c' : Nat} (h : OwnerBy (Settles k) t n c r c')
    (hn : t.node.Akin n) (hk : k ≤ c) : Resolved k t n c r c' := by
  obtain ⟨hs, hf, hn', hd, ha⟩ := h
  have hk1 := hk.trans hs.created_le
  have hf := hf.resolved hs hk hk1
  have hk2 := hk1.trans hf.grows.created_le
  exact .assemble hn hs hf hk2 hn' hd (ha.resolved (hk2.trans hd.grows.created_le))

theorem resolved (o : Options) (t : Tree) (n : Node) (hn : t.node.Akin n) (j : Journal) (hk : k ≤ j.created) :
    Resolved k t n j.created (resolve o n t j).1 (resolve o n t j).2.created :=
  resolve_induction (P := Settles k) o OwnerBy.resolved t n j hn hk

/-- What the whole tree is resolved to. -/
theorem resolved_tree (o : Options) {t : Tree} {j : Journal} (hk : k ≤ j.created) :
    Resolved k t t.node j.created (tree o t j).1 (tree o t j).2.created :=
  resolved o t t.node (.refl _) j hk

end FlexRecovery.Resolve
