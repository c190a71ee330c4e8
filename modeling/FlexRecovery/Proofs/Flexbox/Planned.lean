import FlexRecovery.Proofs.Flexbox.Stated

/-!
How the line of an owner stands to the design behind its plan: what it leaves at both ends, and how far each gap is
off.
-/

namespace FlexRecovery.Resolve

open Flexbox

/-! ### What a plan says about the gaps -/

/-- The gaps behind a plan. -/
inductive Planned (g : Gaps) : Plan → Prop where
  | start : Planned g .start
  | stop : Planned g .stop
  | center (h : close g.start g.stop = true) : Planned g .center
  | between {gap} (hg : g.uniform? = some gap) (h0 : 0 < gap) : Planned g .between
  | around {gap} (hg : g.uniform? = some gap) (h0 : 0 < gap) (hs : close (g.start * 2) gap = true)
      (he : close (g.stop * 2) gap = true) : Planned g .around
  | evenly {gap} (hg : g.uniform? = some gap) (h0 : 0 < gap) (hs : close g.start gap = true)
      (he : close g.stop gap = true) : Planned g .evenly
  | spacer {k w} (hk : g.widest? = some (k, w)) (h0 : 0 < w) : Planned g (.spacer k)

theorem planned_distribution? {g : Gaps} {p : Plan} (h : distribution? g = some p) : Planned g p := by
  unfold distribution? at h
  cases hg : g.uniform? with
  | none =>
    rw [hg] at h
    cases h
  | some gap =>
    rw [hg] at h
    dsimp only at h
    split at h
    · cases h
    · next h0 =>
      split at h
      · next hc =>
        obtain ⟨hs, he⟩ := Bool.and_eq_true_iff.1 hc
        cases h
        exact .around hg (by omega) hs he
      · split at h
        · cases h
          exact .between hg (by omega)
        · split at h
          · next hc =>
            obtain ⟨hs, he⟩ := Bool.and_eq_true_iff.1 hc
            cases h
            exact .evenly hg (by omega) hs he
          · cases h

theorem planned_spacer? {g : Gaps} {sizing : Option Sizing} {p : Plan} (h : spacer? g sizing = some p) :
    Planned g p := by
  unfold spacer? at h
  split at h
  · cases hw : g.widest? with
    | none =>
      rw [hw] at h
      cases h
    | some q =>
      obtain ⟨k, w⟩ := q
      rw [hw] at h
      dsimp only at h
      split at h
      · next h0 =>
        cases h
        exact .spacer hw h0
      · cases h
  · cases h

theorem planned_classify (g : Gaps) (sizing : Option Sizing) (isOpenEnd : Bool) :
    Planned g (classify g sizing isOpenEnd) := by
  unfold classify
  split
  · exact .start
  · cases hd : distribution? g with
    | some p => exact planned_distribution? hd
    | none =>
      dsimp only
      split
      · next hc => exact .center (Bool.and_eq_true_iff.1 hc).1
      · cases hs : spacer? g sizing with
        | some p => exact planned_spacer? hs
        | none =>
          dsimp only
          split
          · exact .start
          · exact .stop

/-- All gaps are close to a uniform one, which is the first. -/
theorem uniform?_eq_some {g : Gaps} {gap : Int} (h : g.uniform? = some gap) :
    ∃ rest, g.interior = gap :: rest ∧ ∀ v ∈ rest, close v gap = true := by
  unfold Gaps.uniform? at h
  split at h
  · cases h
  · next first rest heq =>
    split at h
    · next hall =>
      cases h
      exact ⟨rest, heq, fun v hv => List.all_eq_true.1 hall v (List.mem_cons_of_mem _ hv)⟩
    · cases h

variable (owner : Node) (axis : Axis) (children : List Node)

theorem planned_mainPlan : Planned (gapsOf owner axis children) (mainPlan owner axis children).plan := by
  unfold mainPlan
  dsimp only
  split
  · exact .start
  · exact planned_classify _ _ _

/-! ### The line and the gaps -/

/-- The line of an owner leaves at both ends what its padding does not cover. -/
theorem fit_lineOf : (lineOf owner axis children).Fit axis (children.map (·.box))
    ((gapsOf owner axis children).start - max (mainPlan owner axis children).padStart 0 -
      (mainPlan owner axis children).marginStart (gapsOf owner axis children) 0)
    ((gapsOf owner axis children).stop - max (mainPlan owner axis children).padStop 0) := by
  generalize hg : gapsOf owner axis children = g
  generalize hl : lineOf owner axis children = l
  rw [lineOf, hg] at hl
  generalize mainPlan owner axis children = p at hl ⊢
  subst hl
  cases hb : (children.map (·.box)).head? with
  | none =>
    rw [List.head?_eq_none_iff] at hb
    rw [hb]
    exact ⟨.nil, fun _ h => (by cases h), fun _ h => (by cases h)⟩
  | some b =>
    obtain ⟨c, hc⟩ : ∃ c, (children.map (·.box)).getLast? = some c := by
      cases children with
      | nil => cases hb
      | cons c children => exact ⟨_, List.getLast?_eq_getLast_of_ne_nil (by simp)⟩
    have hlast : p.marginStop g (children.length - 1) = 0 := by
      have hnone : g.interior[children.length - 1]? = none := by
        rw [← hg, interior_gapsOf, List.getElem?_eq_none_iff, length_gaps, List.length_map]
      rw [MainPlan.marginStop, statedGap, hnone]
      simp
    rw [gapsOf_eq owner axis children hb hc] at hg
    subst hg
    refine ⟨p.sized_items _ axis _, fun i hi x hx => ?_, fun i hi x hx => ?_⟩
    · rw [MainPlan.line, MainPlan.items, List.head?_mapIdx, hb] at hi
      obtain rfl := Option.some.inj (hb.symm.trans hx)
      cases hi
      simp only [MainPlan.line]
      omega
    · rw [MainPlan.line, MainPlan.items, List.getLast?_mapIdx, hc, List.length_map] at hi
      obtain rfl := Option.some.inj (hc.symm.trans hx)
      cases hi
      simp only [MainPlan.line, hlast]
      omega

theorem getElem_joints_items (p : MainPlan) (g : Gaps) (boxes : List Box) {k : Nat}
    (h : k < (joints (p.items g axis boxes)).length) :
    (joints (p.items g axis boxes))[k] = if p.gap.isSome = true then 0 else statedGap p.plan g k := by
  have hk : k + 1 < (p.items g axis boxes).length := by
    have := length_joints (p.items g axis boxes)
    omega
  rw [getElem_joints h hk, ← p.marginStop_add_marginStart g k]
  simp [MainPlan.items]

/-- A gap that is stated is stated up to the tolerance. -/
theorem near_gap (hd : (mainPlan owner axis children).plan.distributes = false) {k : Nat}
    (hs : (mainPlan owner axis children).plan ≠ .spacer k) :
    ∀ (hk : k < (joints (lineOf owner axis children).items).length)
      (hk' : k < (Box.gaps axis (children.map (·.box))).length),
      |((joints (lineOf owner axis children).items)[k] : ℚ) + (lineOf owner axis children).gap -
        (Box.gaps axis (children.map (·.box)))[k]| ≤ 1 := by
  intro hk hk'
  have hgap := gap_mainPlan owner axis children
  rw [stated, if_neg (by rw [hd]; exact Bool.false_ne_true)] at hgap
  have hjoint : (joints (lineOf owner axis children).items)[k] =
      if (mainPlan owner axis children).gap.isSome = true then 0 else
        statedGap (mainPlan owner axis children).plan (gapsOf owner axis children) k :=
    getElem_joints_items axis (mainPlan owner axis children) (gapsOf owner axis children) _ hk
  have hlg : (lineOf owner axis children).gap = (mainPlan owner axis children).gap.getD 0 := rfl
  have hinterior : (gapsOf owner axis children).interior[k]? = some (Box.gaps axis (children.map (·.box)))[k] := by
    rw [interior_gapsOf, List.getElem?_eq_getElem]
  rw [hjoint, hlg]
  generalize mainPlan owner axis children = p at hd hs hgap
  cases hc : p.gap with
  | none =>
    have hstated : statedGap p.plan (gapsOf owner axis children) k = (Box.gaps axis (children.map (·.box)))[k] := by
      rw [statedGap, if_neg (by simp [hd, hs]), hinterior]
      rfl
    simp [hstated]
  | some v =>
    have hclose := (commonGap_eq_some (hgap.symm.trans hc)).2 _ (mem_statedGaps.2 ⟨hs, hinterior⟩)
    rw [if_pos Option.isSome_some, Option.getD_some, Int.cast_zero, zero_add]
    exact abs_le_of_close hclose

/-- A plan that packs the children states all gaps. -/
theorem spread_lineOf (hd : (mainPlan owner axis children).plan.distributes = false)
    (hs : ∀ k, (mainPlan owner axis children).plan ≠ .spacer k) :
    Spread 1 (lineOf owner axis children).gap axis (lineOf owner axis children).items (children.map (·.box)) := by
  have hsized := (fit_lineOf owner axis children).sized
  exact List.forall₂_iff_get.2 ⟨by rw [length_joints, length_gaps, hsized.length_eq],
    fun k hk hk' => near_gap owner axis children hd (hs k) hk hk'⟩

/-- A plan that distributes the free space states no gap. -/
theorem even_lineOf (hd : (mainPlan owner axis children).plan.distributes = true) {gap : Int}
    (hu : (gapsOf owner axis children).uniform? = some gap) :
    (lineOf owner axis children).Even axis (children.map (·.box)) gap := by
  have hgap := gap_mainPlan owner axis children
  rw [stated, if_pos hd] at hgap
  refine ⟨congrArg (·.getD 0) hgap, fun m (hm : m ∈ joints (MainPlan.items _ _ axis _)) => ?_, ?_⟩
  · obtain ⟨k, hk, rfl⟩ := List.mem_iff_getElem.1 hm
    have hstated : statedGap (mainPlan owner axis children).plan (gapsOf owner axis children) k = 0 := if_pos (.inl hd)
    rw [getElem_joints_items, hstated, ite_self]
  · obtain ⟨rest, hrest, hclose⟩ := uniform?_eq_some hu
    refine ⟨rest, (interior_gapsOf owner axis children).symm.trans hrest, fun v hv => ?_⟩
    rw [abs_sub_comm]
    exact abs_le_of_close (hclose v hv)

end FlexRecovery.Resolve
