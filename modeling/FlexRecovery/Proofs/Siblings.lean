import FlexRecovery.Proofs.Passes

/-!
Flow children told apart by position. As long as no position occurs twice, one of them can be taken out of
the list, and changing it is changing one tree.
-/

namespace FlexRecovery.Regroup

namespace Sibling

variable {l : List Sibling} {s h : Sibling}

/-- No position occurs twice. -/
def Apart (l : List Sibling) : Prop := (l.map position).Nodup

theorem map_tree_list (ts : List Tree) : (list ts).map tree = ts := by
  simp [list, List.zipIdx_map_fst, Function.comp_def]

theorem apart_list (ts : List Tree) : Apart (list ts) := by
  have h : (list ts).map position = List.range' 0 ts.length := by
    simp [list, Function.comp_def, List.zipIdx_map_snd]
  rw [Apart, h]
  exact List.nodup_range'

theorem Apart.eq_of_position (hl : Apart l) (hs : s ∈ l) (hh : h ∈ l) (he : s.position = h.position) : s = h :=
  List.inj_on_of_nodup_map hl hs hh he

theorem Apart.filter (hl : Apart l) (p : Sibling → Bool) : Apart (l.filter p) :=
  hl.sublist (List.filter_sublist.map _)

/-- One of them at the front. -/
theorem Apart.perm_cons (hl : Apart l) (hs : s ∈ l) : l.Perm (s :: l.filter (·.position != s.position)) := by
  induction l with
  | nil => cases hs
  | cons a as ih =>
    have hne : ∀ b ∈ as, b.position ≠ a.position := by
      intro b hb he
      refine (List.nodup_cons.1 hl).1 ?_
      rw [← he]
      exact List.mem_map_of_mem hb
    rcases List.mem_cons.1 hs with rfl | hs
    · rw [List.filter_cons_of_neg (by simp), List.filter_eq_self.2 fun b hb => by simpa using hne b hb]
    · have has : a.position ≠ s.position := fun he => hne s hs he.symm
      rw [List.filter_cons_of_pos (by simpa using has)]
      exact ((ih (List.nodup_cons.1 hl).2 hs).cons a).trans (.swap _ _ _)

/-- Changing the tree at one position changes one of the trees. -/
theorem Apart.perm_map (hl : Apart l) (hs : s ∈ l) (g : Tree → Tree) :
    (l.map fun m => if m.position = s.position then { m with tree := g m.tree } else m).Perm
      ({ s with tree := g s.tree } :: l.filter (·.position != s.position)) := by
  refine ((hl.perm_cons hs).map _).trans ?_
  rw [List.map_cons, if_pos rfl]
  refine List.Perm.cons _ (List.Perm.of_eq ?_)
  conv_rhs => rw [← List.map_id (l.filter (·.position != s.position))]
  apply List.map_congr_left
  intro m hm
  have hm : m.position ≠ s.position := by simpa using (List.mem_filter.1 hm).2
  rw [if_neg hm]
  rfl

end Sibling

theorem mem_smallest {l : List Sibling} {s : Sibling} (h : smallest l = some s) : s ∈ l := by
  cases l with
  | nil => cases h
  | cons a as =>
    obtain rfl := Option.some.inj h
    apply List.foldlRecOn (motive := (· ∈ a :: as)) as _ (List.mem_cons_self ..)
    intro best hbest b hb
    split
    · exact List.mem_cons_of_mem _ hb
    · exact hbest

/-- What is moved onto another sibling is moved onto one that can host it. -/
theorem mem_host {l : List Sibling} {s : Sibling} {p : Nat} (h : moveOf l s = .onto p ∨ moveOf l s = .asBorder p) :
    ∃ host ∈ l, host.position = p ∧ host.position ≠ s.position ∧ canHost host.node = true := by
  unfold moveOf at h
  dsimp only at h
  split at h
  · next host hh =>
    have hm := mem_smallest hh
    simp only [List.mem_filter, Bool.and_eq_true] at hm
    rcases h with h | h
    · injection h with hp
      exact ⟨host, hm.1.1.1, hp, by simpa using hm.1.1.2.1, hm.2⟩
    · cases h
  · split at h
    · rcases h with h | h <;> cases h
    · split at h
      · next host hh =>
        have hm := List.mem_of_find?_eq_some hh
        have hc := List.find?_some hh
        simp only [List.mem_filter, Bool.and_eq_true] at hm hc
        rcases h with h | h
        · cases h
        · injection h with hp
          exact ⟨host, hm.1, hp, by simpa using hm.2.1, hc.1⟩
      · rcases h with h | h <;> cases h

/-- The trees after one is attached to another. -/
theorem trees_attachTo {a : Attaching} {s host : Sibling} (ha : Sibling.Apart a.siblings) (hs : s ∈ a.siblings)
    (hh : host ∈ a.siblings) (hne : host.position ≠ s.position) (prepare : Tree → Tree) (t : Tree) :
    ∃ rest : List Tree, (a.siblings.map (·.tree)).Perm (host.tree :: s.tree :: rest) ∧
      ((attachTo a s host.position prepare t).siblings.map (·.tree)).Perm
        ((prepare host.tree).addAttached [t] :: rest) := by
  have hmem : host ∈ a.siblings.filter (·.position != s.position) := List.mem_filter.2 ⟨hh, by simpa using hne⟩
  refine ⟨((a.siblings.filter (·.position != s.position)).filter (·.position != host.position)).map (·.tree), ?_, ?_⟩
  · refine ((ha.perm_cons hs).map _).trans ?_
    refine ((((ha.filter _).perm_cons hmem).cons s).map _).trans ?_
    exact .swap _ _ _
  · exact ((ha.filter _).perm_map hmem fun m => (prepare m).addAttached [t]).map (·.tree)

theorem apart_attachTo {a : Attaching} (ha : Sibling.Apart a.siblings) (s : Sibling) (host : Nat)
    (prepare : Tree → Tree) (t : Tree) : Sibling.Apart (attachTo a s host prepare t).siblings := by
  have h : (attachTo a s host prepare t).siblings.map Sibling.position =
      (a.siblings.filter (·.position != s.position)).map Sibling.position := by
    simp only [attachTo, List.map_map]
    apply List.map_congr_left
    intro m _
    simp only [Function.comp]
    split <;> rfl
  rw [Sibling.Apart, h]
  exact ha.filter _

theorem shifts_attachOne (n : Node) (att : List Tree) (a : Attaching) (p : Nat) (j : Journal)
    (ha : Sibling.Apart a.siblings) :
    Sibling.Apart (attachOne a p j).1.siblings ∧
      Shifts (⟨n, a.siblings.map (·.tree), att ++ a.out⟩, j.created)
        (⟨n, (attachOne a p j).1.siblings.map (·.tree), att ++ (attachOne a p j).1.out⟩,
          (attachOne a p j).2.created) := by
  unfold attachOne
  cases hs : a.siblings.find? (·.position == p) with
  | none => exact ⟨ha, .refl⟩
  | some s =>
    have hmem := List.mem_of_find?_eq_some hs
    dsimp only
    cases hm : moveOf a.siblings s with
    | stays => exact ⟨ha, .refl⟩
    | onto p' =>
      obtain ⟨host, hh, rfl, hne, hc⟩ := mem_host (.inl hm)
      obtain ⟨rest, hf, hf'⟩ := trees_attachTo ha hmem hh hne hosting s.tree
      exact ⟨apart_attachTo ha _ _ _ _, .between hf (.single (.attach hc _ _ _ _ _)) hf'.symm⟩
    | asBorder p' =>
      obtain ⟨host, hh, rfl, hne, hc⟩ := mem_host (.inr hm)
      obtain ⟨rest, hf, hf'⟩ := trees_attachTo ha hmem hh hne id (s.tree.mapNode (·.addRole .border))
      exact ⟨apart_attachTo ha _ _ _ _, .between hf (.single (.border hc _ _ _ _ _)) hf'.symm⟩
    | offLeaf =>
      refine ⟨ha.filter _, Shifts.reorder ((ha.perm_cons hmem).map _) (.single ?_)⟩
      have h := Shift.detach s.tree n ((a.siblings.filter (·.position != s.position)).map (·.tree)) (att ++ a.out)
        j.created
      rw [List.append_assoc] at h
      exact h

theorem shifting_attachOverlapping : Shifting attachOverlapping := by
  intro t j
  obtain ⟨n, flow, attached⟩ := t
  let P (a : Attaching) (j' : Journal) : Prop := Sibling.Apart a.siblings ∧
    Shifts (⟨n, flow, attached⟩, j.created) (⟨n, a.siblings.map (·.tree), attached ++ a.out⟩, j'.created)
  have step : ∀ a j', ∀ p ∈ ((stableSort movesBefore (Sibling.list flow)).map (·.position)), P a j' →
      P (attachOne a p j').1 (attachOne a p j').2 := by
    rintro a j' p - ⟨ha, hs⟩
    obtain ⟨ha', hs'⟩ := shifts_attachOne n attached a p j' ha
    exact ⟨ha', hs.trans hs'⟩
  have start : P { siblings := Sibling.list flow } j := by
    refine ⟨Sibling.apart_list flow, ?_⟩
    rw [Sibling.map_tree_list, List.append_nil]
  exact (Journaled.foldlM_keeps step start).2

end FlexRecovery.Regroup
