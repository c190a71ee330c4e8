import FlexRecovery.Proofs.Clipping
import FlexRecovery.Proofs.Ready
import FlexRecovery.Recovery

/-!
Ghosts are unwrapped and nodes are numbered before they are regrouped. The one drops idle containers and
nothing else, the other drops nothing.
-/

namespace FlexRecovery

open Node Tree Draft

variable {k : Nat}

namespace Ghosts

/-- A tree without the ghosts below it. -/
abbrev purged (o : Options) (t : Tree) : Tree := (remove o t).1

theorem unwrap_ghost {o : Options} {t : Tree} (h : isGhost o t = true) :
    (unwrap o t).flow = (purged o t).flow ∧ (unwrap o t).raised = (purged o t).attached := by
  obtain ⟨n, flow, attached⟩ := t
  unfold unwrap
  rw [if_pos h]
  exact ⟨rfl, rfl⟩

theorem unwrap_other {o : Options} {t : Tree} (h : isGhost o t = false) :
    (unwrap o t).flow = [purged o t] ∧ (unwrap o t).raised = [] := by
  obtain ⟨n, flow, attached⟩ := t
  unfold unwrap
  rw [if_neg (by simp [h])]
  exact ⟨rfl, rfl⟩

theorem unwrapAttached_flow (o : Options) (ts : List Tree) : (unwrapAttached o ts).flow = ts.map (purged o) := by
  induction ts with
  | nil => rfl
  | cons t ts ih =>
    obtain ⟨n, flow, attached⟩ := t
    unfold unwrapAttached
    rw [List.map_cons, ← ih]
    rfl

/-- Whatever takes the place of some flow children comes from one of them. -/
theorem mem_unwrapAll {o : Options} {ts : List Tree} {u : Tree}
    (h : u ∈ (unwrapAll o ts).flow ++ (unwrapAll o ts).raised) :
    ∃ t ∈ ts, u ∈ (unwrap o t).flow ++ (unwrap o t).raised := by
  induction ts with
  | nil => cases h
  | cons t ts ih =>
    simp only [unwrapAll, List.mem_append] at h ih
    have hor : (u ∈ (unwrap o t).flow ∨ u ∈ (unwrap o t).raised) ∨
        u ∈ (unwrapAll o ts).flow ∨ u ∈ (unwrapAll o ts).raised := by tauto
    rcases hor with h | h
    · exact ⟨t, List.mem_cons_self .., List.mem_append.2 h⟩
    · obtain ⟨t', ht, hu⟩ := ih h
      exact ⟨t', List.mem_cons_of_mem _ ht, List.mem_append.2 hu⟩

theorem idle_of_ghost {o : Options} {t : Tree} (h : isGhost o t = true) : t.node.IsIdle := by
  simp only [isGhost, Bool.and_eq_true, beq_iff_eq, Bool.not_eq_true'] at h
  exact ⟨by simp [isContent, h.1.1.1.1], h.1.1.1.2, .inr h.1.1.2⟩

theorem turns_unwrap {o : Options} {t : Tree} (h : Turns Kept t.census k (purged o t).census k) :
    Turns Kept t.census k (censusAll (unwrap o t).flow + censusAll (unwrap o t).raised) k := by
  cases hg : isGhost o t with
  | true =>
    rw [(unwrap_ghost hg).1, (unwrap_ghost hg).2]
    apply h.trans
    rw [census_eq]
    exact .lift (idle_of_ghost hg) _ k
  | false =>
    rw [(unwrap_other hg).1, (unwrap_other hg).2, censusAll_cons, censusAll_nil, add_zero, add_zero]
    exact h

theorem turns_unwrapAll {o : Options} {ts : List Tree}
    (h : ∀ t ∈ ts, Turns Kept t.census k (purged o t).census k) :
    Turns Kept (censusAll ts) k (censusAll (unwrapAll o ts).flow + censusAll (unwrapAll o ts).raised) k := by
  induction ts with
  | nil => exact .refl _ _
  | cons t ts ih =>
    have ht := (turns_unwrap (h t (by simp))).add (ih fun u hu => h u (List.mem_cons_of_mem _ hu))
    rw [censusAll_cons]
    convert ht using 1
    simp only [unwrapAll, censusAll_append]
    abel

theorem turns_unwrapAttached {o : Options} {ts : List Tree}
    (h : ∀ t ∈ ts, Turns Kept t.census k (purged o t).census k) :
    Turns Kept (censusAll ts) k (censusAll (unwrapAttached o ts).flow) k := by
  rw [unwrapAttached_flow]
  induction ts with
  | nil => exact .refl _ _
  | cons t ts ih =>
    rw [List.map_cons, censusAll_cons, censusAll_cons]
    exact (h t (by simp)).add (ih fun u hu => h u (List.mem_cons_of_mem _ hu))

theorem purged_eq (o : Options) (t : Tree) :
    purged o t =
      ⟨t.node, (unwrapAll o t.flow).flow, (unwrapAttached o t.attached).flow ++ (unwrapAll o t.flow).raised⟩ :=
  rfl

theorem turns_purged (o : Options) (t : Tree) : Turns Kept t.census k (purged o t).census k := by
  induction t using induction_members with
  | _ t ih =>
    have hf := turns_unwrapAll fun u hu => ih u (List.mem_append_left _ hu)
    have ha := turns_unwrapAttached fun u hu => ih u (List.mem_append_right _ hu)
    rw [census_eq, purged_eq, census_mk, censusAll_append, add_comm (censusAll (unwrapAttached o t.attached).flow),
      ← add_assoc]
    exact (hf.add ha).below t.node

theorem unwrapAll_flow (o : Options) (ts : List Tree) :
    (unwrapAll o ts).flow = ts.flatMap fun t => (unwrap o t).flow := by
  induction ts with
  | nil => rfl
  | cons t ts ih =>
    rw [List.flatMap_cons, ← ih]
    rfl

/-- A flow child stood there before, or a ghost stood in its place. -/
theorem mem_flow_purged {o : Options} {t u : Tree} (h : u ∈ (purged o t).flow) :
    ∃ v ∈ t.flow, u = purged o v ∨ u ∈ (purged o v).flow := by
  rw [purged_eq, unwrapAll_flow] at h
  obtain ⟨v, hv, hu⟩ := List.mem_flatMap.1 h
  refine ⟨v, hv, ?_⟩
  cases hg : isGhost o v with
  | true =>
    rw [(unwrap_ghost hg).1] at hu
    exact .inr hu
  | false =>
    rw [(unwrap_other hg).1] at hu
    exact .inl (List.mem_singleton.1 hu)

theorem mem_members_purged {o : Options} {t u : Tree} (h : u ∈ (purged o t).members) :
    ∃ v ∈ t.members, u = purged o v ∨ u ∈ (purged o v).members := by
  rw [purged_eq, Tree.members, unwrapAttached_flow] at h
  simp only [List.mem_append, List.mem_map] at h
  have hor : u ∈ (unwrapAll o t.flow).flow ++ (unwrapAll o t.flow).raised ∨ ∃ v ∈ t.attached, purged o v = u := by
    rw [List.mem_append]
    tauto
  rcases hor with h | ⟨v, hv, rfl⟩
  · obtain ⟨v, hv, hu⟩ := mem_unwrapAll h
    refine ⟨v, List.mem_append_left _ hv, ?_⟩
    cases hg : isGhost o v with
    | true =>
      rw [(unwrap_ghost hg).1, (unwrap_ghost hg).2] at hu
      exact .inr hu
    | false =>
      rw [(unwrap_other hg).1, (unwrap_other hg).2, List.append_nil] at hu
      exact .inl (List.mem_singleton.1 hu)
  · exact ⟨v, List.mem_append_right _ hv, .inl rfl⟩

/-- What holds of the members of a tree without their ghosts holds of its members when it has none. -/
theorem every_members_purged {o : Options} {P : Tree → Prop} {t : Tree}
    (h : ∀ v ∈ t.members, (purged o v).Every P) : ∀ u ∈ (purged o t).members, u.Every P := by
  intro u hu
  obtain ⟨v, hv, hu⟩ := mem_members_purged hu
  rcases hu with rfl | hu
  · exact h v hv
  · exact (every_iff.1 (h v hv)).2 u hu

theorem raw_purged (o : Options) {t : Tree} (h : t.Every (Raw k)) : (purged o t).Every (Raw k) := by
  induction t using induction_members with
  | _ t ih =>
    obtain ⟨ht, hm⟩ := every_iff.1 h
    refine every_iff.2 ⟨ht.alike (.refl _) fun hnil => ?_, every_members_purged fun v hv => ih v hv (hm v hv)⟩
    obtain ⟨hf, ha⟩ := List.append_eq_nil_iff.1 hnil
    rw [purged_eq, hf, ha]
    rfl

/-- A ghost lies in its owner, and its members lie in the ghost. -/
theorem frames_purged (o : Options) {t : Tree} (h : t.Every (Flowing Box.Frames)) :
    (purged o t).Every (Flowing Box.Frames) := by
  induction t using induction_members with
  | _ t ih =>
    obtain ⟨ht, hm⟩ := every_iff.1 h
    refine every_iff.2 ⟨fun u hu => ?_, every_members_purged fun v hv => ih v hv (hm v hv)⟩
    obtain ⟨v, hv, hu⟩ := mem_flow_purged hu
    rcases hu with rfl | hu
    · exact ht v hv
    · have hmem : v ∈ t.members := List.mem_append_left _ hv
      exact (ht v hv).trans ((every_iff.1 (ih v hmem (hm v hmem))).1 u hu)

end Ghosts

namespace Stacking

theorem alike_push (n : Node) (token : String) : n.Alike (n.push token) :=
  .of_roles ⟨⟨rfl, rfl, rfl, rfl, rfl, Classes.prefix_pushAll _ [token], .inl rfl, fun _ => rfl, fun _ => rfl⟩, rfl⟩
    rfl rfl rfl fun h => h

theorem alike_numbered (n : Node) (l : Nat) : n.Alike (numbered n l) := by
  unfold numbered
  split
  · exact .refl n
  · exact (alike_push n _).trans (alike_push _ _)

theorem alike_owning (n : Node) (flow : List Tree) : n.Alike (owning n flow) := by
  unfold owning
  split
  · exact .refl n
  · exact alike_push n _

/-- What a tree has become, when each of its nodes is alike. -/
structure Restacked (k : Nat) (t u : Tree) : Prop where
  turns : Turns Kept t.census k u.census k
  raw : t.Every (Raw k) → u.Every (Raw k)
  box : u.box = t.box
  frames : t.Every (Flowing Box.Frames) → u.Every (Flowing Box.Frames)

theorem restacked_all {ts us : List Tree} (h : List.Forall₂ (Restacked k) ts us) :
    Turns Kept (censusAll ts) k (censusAll us) k ∧
      ((∀ t ∈ ts, t.Every (Raw k)) → ∀ u ∈ us, u.Every (Raw k)) ∧
      (∀ b, (∀ t ∈ ts, Placed Box.Frames b t) → ∀ u ∈ us, Placed Box.Frames b u) ∧
      ((∀ t ∈ ts, t.Every (Flowing Box.Frames)) → ∀ u ∈ us, u.Every (Flowing Box.Frames)) := by
  induction h with
  | nil => exact ⟨.refl _ _, by simp, by simp, by simp⟩
  | cons h _ ih =>
    obtain ⟨hturns, hraw, hplaced, hframes⟩ := ih
    rw [censusAll_cons, censusAll_cons]
    refine ⟨h.turns.add hturns, fun ht => ?_, fun b ht => ?_, fun ht => ?_⟩ <;>
      obtain ⟨ht, hts⟩ := List.forall_mem_cons.1 ht
    · exact List.forall_mem_cons.2 ⟨h.raw ht, hraw hts⟩
    · exact List.forall_mem_cons.2 ⟨⟨h.box ▸ ht.self, h.frames ht.below⟩, hplaced b hts⟩
    · exact List.forall_mem_cons.2 ⟨h.frames ht, hframes hts⟩

theorem restacked_assignFlow {ts : List Tree}
    (h : ∀ t ∈ ts, ∀ n, t.node.Alike n → Restacked k t (assign n t)) (below : Nat) :
    List.Forall₂ (Restacked k) ts (assignFlow below ts) := by
  induction ts generalizing below with
  | nil => exact .nil
  | cons t ts ih =>
    have ih := ih fun u hu => h u (List.mem_cons_of_mem _ hu)
    unfold assignFlow
    split
    · exact .cons (h t (by simp) _ (alike_numbered _ _)) (ih below)
    · exact .cons (h t (by simp) _ (alike_numbered _ _)) (ih (below + 1))

theorem restacked_assignAttached {ts : List Tree}
    (h : ∀ t ∈ ts, ∀ n, t.node.Alike n → Restacked k t (assign n t)) :
    List.Forall₂ (Restacked k) ts (assignAttached ts) := by
  induction ts with
  | nil => exact .nil
  | cons t ts ih =>
    exact .cons (h t (by simp) _ (.refl _)) (ih fun u hu => h u (List.mem_cons_of_mem _ hu))

theorem restacked_assign (t : Tree) : ∀ n, t.node.Alike n → Restacked k t (assign n t) := by
  induction t using induction_members with
  | _ t ih =>
    intro n hn
    obtain ⟨m, flow, attached⟩ := t
    have hflow := restacked_assignFlow (fun u hu => ih u (List.mem_append_left _ hu)) 0
    have hattached := restacked_assignAttached fun u hu => ih u (List.mem_append_right _ hu)
    obtain ⟨hft, hfr, hfp, -⟩ := restacked_all hflow
    obtain ⟨hat, har, -, hae⟩ := restacked_all hattached
    have hn' : m.Alike (owning n flow) := hn.trans (alike_owning n flow)
    unfold assign
    refine ⟨?_, fun h => ?_, hn'.kept.2, fun h => ?_⟩
    · rw [census_mk, census_mk]
      exact ((hft.add hat).below m).trans (.change hn'.kept _ _)
    · obtain ⟨hr, hm⟩ := every_iff.1 h
      refine every_iff.2 ⟨hr.alike hn' fun hnil => ?_, fun u hu => ?_⟩
      · obtain ⟨rfl, rfl⟩ := List.append_eq_nil_iff.1 hnil
        rfl
      · exact (List.mem_append.1 hu).elim (hfr (fun v hv => hm v (List.mem_append_left _ hv)) u)
          (har (fun v hv => hm v (List.mem_append_right _ hv)) u)
    · obtain ⟨hf, ha⟩ := every_flowing_mk.1 h
      refine every_flowing_mk.2 ⟨?_, hae ha⟩
      rw [hn'.kept.2]
      exact hfp m.box hf

end Stacking

theorem turns_cleaned (o : Options) (t : Tree) : Turns Kept t.census k (Recovery.cleaned o t).census k := by
  have hnumber (t : Tree) : Turns Kept t.census k (Stacking.number t).census k :=
    (Stacking.restacked_assign t t.node (.refl _)).turns
  unfold Recovery.cleaned
  dsimp only
  split <;> split
  · exact (Ghosts.turns_purged o t).trans (hnumber _)
  · exact hnumber t
  · exact Ghosts.turns_purged o t
  · exact .refl _ _

/-- The root stays. -/
theorem alike_cleaned (o : Options) (t : Tree) : t.node.Alike (Recovery.cleaned o t).node := by
  have hnumber (t : Tree) : t.node.Alike (Stacking.number t).node := by
    cases t
    exact Stacking.alike_owning _ _
  unfold Recovery.cleaned
  dsimp only
  split <;> split
  · exact hnumber (Ghosts.purged o t)
  · exact hnumber t
  · exact .refl _
  · exact .refl _

theorem raw_cleaned (o : Options) {t : Tree} (h : t.Every (Raw k)) : (Recovery.cleaned o t).Every (Raw k) := by
  have hnumber (t : Tree) : t.Every (Raw k) → (Stacking.number t).Every (Raw k) :=
    (Stacking.restacked_assign t t.node (.refl _)).raw
  unfold Recovery.cleaned
  dsimp only
  split <;> split
  · exact hnumber _ (Ghosts.raw_purged o h)
  · exact hnumber t h
  · exact Ghosts.raw_purged o h
  · exact h

theorem frames_cleaned (o : Options) {t : Tree} (h : t.Every (Flowing Box.Frames)) :
    (Recovery.cleaned o t).Every (Flowing Box.Frames) := by
  have hnumber (t : Tree) : t.Every (Flowing Box.Frames) → (Stacking.number t).Every (Flowing Box.Frames) :=
    (Stacking.restacked_assign (k := 0) t t.node (.refl _)).frames
  unfold Recovery.cleaned
  dsimp only
  split <;> split
  · exact hnumber _ (Ghosts.frames_purged o h)
  · exact hnumber t h
  · exact Ghosts.frames_purged o h
  · exact h

/-- A draft is ready to be regrouped. -/
theorem every_sound {t : Tree} (h : t.Every (Raw k)) : t.Every (Regroup.Sound k) := by
  intro s hs
  have hr := h s hs
  refine ⟨fun _ => hr.layer, fun hi => absurd hr.old (by omega), fun hp => ?_, fun hd => ?_, fun hc => ?_,
    fun ht => ?_, hr.span, hr.pending, fun _ m hm => ?_⟩
  · rw [hr.preset] at hp
    cases hp
  · rw [hr.direction] at hd
    cases hd
  · rw [hr.direction]
    exact ⟨(List.append_eq_nil_iff.1 (hr.content hc)).1, rfl⟩
  · have hc : s.node.isContent = true := by
      simp only [isText, beq_iff_eq] at ht
      simp [isContent, ht]
    exact (List.append_eq_nil_iff.1 (hr.content hc)).2
  · have hm := h m (mem_subtrees_of_mem_members hm hs)
    exact ⟨.inl hm.old, (Regroup.isPreset_iff.1 hm.preset).2⟩

end FlexRecovery
