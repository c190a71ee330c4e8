import FlexRecovery.Proofs.Bands
import FlexRecovery.Proofs.Passes

/-!
The loops of regrouping over the members of one owner, turn by turn: redundant children fold, siblings with one
box are settled, pivots take their bands, offenders leave the flow. Each comes to a state where no turn is left,
and that state is the result of the pass.
-/

namespace FlexRecovery.Regroup

open Tree

section ends

variable {σ : Type} {step : σ → Option σ} {s s' u : σ}

/-- Turn after turn from `s`, a loop stops in `s'`. -/
structure Ends (step : σ → Option σ) (s s' : σ) : Prop where
  run : Relation.ReflTransGen (fun a b => step a = some b) s s'
  last : step s' = none

theorem Ends.here (h : step s = none) : Ends step s s := ⟨.refl, h⟩

theorem Ends.head (h : step s = some u) (hs : Ends step u s') : Ends step s s' := ⟨.head h hs.run, hs.last⟩

/-- A loop stops in one state only. -/
theorem Ends.unique (h : Ends step s s') (h' : Ends step s u) : s' = u := by
  have stuck {a b : σ} (ha : step a = none) (hab : Relation.ReflTransGen (fun a b => step a = some b) a b) : a = b := by
    rcases hab.cases_head with rfl | ⟨c, hc, -⟩
    · rfl
    · exact absurd (ha.symm.trans hc) nofun
  have functional : Relator.RightUnique fun a b => step a = some b := fun a b c hb hc =>
    Option.some.inj (hb.symm.trans hc)
  rcases Relation.ReflTransGen.total_of_right_unique functional h.run h'.run with hr | hr
  · exact stuck h.last hr
  · exact (stuck h'.last hr).symm

end ends

/-- The first redundant child folds into its owner. -/
def foldStep (s : Tree × Nat) : Option (Tree × Nat) :=
  (splitFirst (isRedundant s.1.box) s.1.flow).map fun (before, c, after) =>
    (⟨s.1.node.absorb c.node, before ++ c.flow ++ after, s.1.attached ++ c.attached⟩, s.2 + 1)

/-- The first pair of siblings with one box is settled. -/
def settleStep (s : Tree × Journal) : Option (Tree × Journal) :=
  (splitPair (fun a b : Tree => a.box.same b.box) s.1.flow).map fun p =>
    ({ s.1 with flow := (settle p).flow, attached := s.1.attached ++ (settle p).out.toList },
      if (settle p).out.isSome then
        (Journal.inform p.upper.node.id "stacked-content"
          ("stacked on " ++ p.lower.node.label ++ ", positioned absolutely") s.2).2
      else s.2)

/-- The pivot of the siblings that are left takes its band. -/
def bandStep (axis : Axis) (s : List (List Tree) × List Tree) : Option (List (List Tree) × List Tree) :=
  match s.2 with
  | [] => none
  | t :: ts =>
    let inside := inBand axis (pivot axis t ts)
    some (s.1 ++ [(t :: ts).filter inside], (t :: ts).filter fun n => !inside n)

/-- While no axis works for several children, the smallest offender leaves the flow. -/
def demoteStep (preferred : Axis) (s : Tree × Journal) : Option (Tree × Journal) :=
  if s.1.flow.length ≤ 1 ∨ (chooseAxis preferred s.1.flow).isSome then none
  else
    (offender? s.1.flow).map fun (i, o) =>
      ({ s.1 with flow := s.1.flow.eraseIdx i, attached := s.1.attached ++ [o] },
        (Journal.warn o.node.id "flex-demote"
          ("no flex axis separates " ++ o.node.label ++ ", positioned absolutely") s.2).2)

/-- Every fold takes one node out of the tree. -/
theorem ends_foldRedundant (t : Tree) (count : Nat) : Ends foldStep (t, count) (foldRedundant t count) := by
  induction h : sizeAll t.flow using Nat.strong_induction_on generalizing t count with
  | _ m ih =>
    unfold foldRedundant
    split
    · next hs => exact .here (by simp only [foldStep, hs, Option.map_none])
    · next before c after hs =>
      obtain ⟨hf, -⟩ := eq_of_splitFirst hs
      have hlt : sizeAll (before ++ c.flow ++ after) < m := by
        rw [← h, hf]
        simp only [sizeAll_append, sizeAll, size_eq c]
        omega
      exact .head (by simp only [foldStep, hs, Option.map_some]) (ih _ hlt _ _ rfl)

/-- Every settled pair leaves one sibling less. -/
theorem ends_collapseEqual (t : Tree) (j : Journal) : Ends settleStep (t, j) (collapseEqual t j) := by
  induction h : t.flow.length using Nat.strong_induction_on generalizing t j with
  | _ m ih =>
    have key (x : Journaled Tree) (hx : collapseEqual t = x) : Ends settleStep (t, j) (x j) := by
      unfold collapseEqual at hx
      split at hx
      · next hp =>
        subst hx
        exact .here (by simp only [settleStep, hp, Option.map_none])
      · next p hp =>
        have hlt : (settle p).flow.length < m := by
          have hl := length_settle p
          rw [← (eq_of_splitPair hp).1, h] at hl
          omega
        subst hx
        by_cases ho : (settle p).out.isSome = true
        · simp only [ho, if_true]
          exact .head (by simp only [settleStep, hp, Option.map_some, ho, if_true]; rfl) (ih _ hlt _ _ rfl)
        · simp only [ho]
          exact .head (by simp only [settleStep, hp, Option.map_some, ho]; rfl) (ih _ hlt _ _ rfl)
    exact key _ rfl

/-- Every pivot lies in its own band, so each band leaves fewer siblings. -/
theorem ends_pivotBands (axis : Axis) (made : List (List Tree)) (ts : List Tree) :
    Ends (bandStep axis) (made, ts) (made ++ pivotBands axis ts, []) := by
  fun_induction pivotBands axis ts generalizing made with
  | case1 =>
    rw [List.append_nil]
    exact .here rfl
  | case2 t ts inside ih =>
    refine .head (u := (made ++ [(t :: ts).filter inside], _)) rfl ?_
    have h := ih (made ++ [(t :: ts).filter inside])
    rw [List.append_assoc, List.singleton_append] at h
    exact h

/-- A turn of the loop that chooses the axis, if one child is left or an axis works: it is the last. -/
theorem layOut_last {preferred : Axis} {t : Tree} (h : t.flow.length ≤ 1 ∨ (chooseAxis preferred t.flow).isSome)
    {budget : Nat} (hb : t.flow.length ≤ budget) (j : Journal) :
    layOut preferred budget t j = layOut preferred 1 t j := by
  match budget with
  | 0 =>
    unfold layOut
    rw [if_pos (by omega)]
  | budget + 1 =>
    unfold layOut
    split
    · rfl
    · next hl =>
      obtain ⟨p, hp⟩ := Option.isSome_iff_exists.1 (h.resolve_left hl)
      rw [hp]

/-- Every demotion leaves one child less in the flow, and with one child left the loop is over. So as many turns
as there are children suffice. -/
theorem ends_layOut (preferred : Axis) (t : Tree) (j : Journal) : ∃ s, Ends (demoteStep preferred) (t, j) s ∧
    ∀ budget, t.flow.length ≤ budget → layOut preferred budget t j = layOut preferred 1 s.1 s.2 := by
  induction h : t.flow.length using Nat.strong_induction_on generalizing t j with
  | _ m ih =>
    by_cases hd : t.flow.length ≤ 1 ∨ (chooseAxis preferred t.flow).isSome
    · refine ⟨(t, j), .here (by rw [demoteStep, if_pos hd]), fun budget hb => ?_⟩
      exact layOut_last hd (h ▸ hb) j
    · obtain ⟨hl, hc⟩ := not_or.1 hd
      obtain ⟨i, o, ho, hperm⟩ := offender?_of_not_length_le_one hl
      have hlen : t.flow.length = (t.flow.eraseIdx i).length + 1 := hperm.length_eq
      obtain ⟨s, hs, hb⟩ := ih (t.flow.eraseIdx i).length (by omega)
        { t with flow := t.flow.eraseIdx i, attached := t.attached ++ [o] }
        (Journal.warn o.node.id "flex-demote"
          ("no flex axis separates " ++ o.node.label ++ ", positioned absolutely") j).2 rfl
      refine ⟨s, .head (by rw [demoteStep, if_neg hd, ho]; rfl) hs, fun budget hbudget => ?_⟩
      obtain ⟨budget, rfl⟩ : ∃ b, budget = b + 1 := ⟨budget - 1, by omega⟩
      rw [← hb budget (by omega), layOut, if_neg hl, Option.not_isSome_iff_eq_none.1 hc, ho]
      rfl

/-- What the loop comes to is laid out in its last turn. -/
theorem makeFlex_of_ends {t : Tree} {j : Journal} {s : Tree × Journal} (hne : t.flow ≠ [])
    (hs : Ends (demoteStep (t.node.direction.getD .column)) (t, j) s) :
    makeFlex t j = layOut (t.node.direction.getD .column) 1 s.1 s.2 := by
  obtain ⟨u, hu, hrun⟩ := ends_layOut (t.node.direction.getD .column) t j
  obtain rfl := hs.unique hu
  rw [makeFlex, List.isEmpty_eq_false_iff.2 hne, ← hrun _ le_rfl]
  rfl

end FlexRecovery.Regroup
