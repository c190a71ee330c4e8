import FlexRecovery.Proofs.Flexbox.Planned

/-!
Along the direction of an owner the tokens reproduce the design: laid out as a line of a flexbox, each child starts
where its box does, up to the tolerance for what was rounded away on the way to it.
-/

namespace FlexRecovery.Resolve

open Flexbox

variable (owner : Node) (axis : Axis) (children : List Node)

/-- The last child sticks out of its owner by at most the tolerance. -/
theorem neg_one_le_stop (hin : ∀ c ∈ children, c.box.within owner.box axis = true) :
    -1 ≤ (gapsOf owner axis children).stop := by
  cases children with
  | nil => exact neg_one_lt_zero.le
  | cons a children =>
    have hlast := List.getLast?_eq_getLast_of_ne_nil (List.cons_ne_nil a children)
    have hc : ((a :: children).map (·.box)).getLast? = some ((a :: children).getLast (by simp)).box := by
      rw [List.getLast?_map, hlast]
      rfl
    have hle := (of_decide_eq_true (hin _ (List.mem_of_getLast? hlast))).2
    rw [gapsOf_eq owner axis _ rfl hc]
    rw [Tuning.tolerance] at hle
    dsimp only
    omega

/-- A plan that fits its gaps is close to the boxes that they lie between. -/
theorem near_planned {p : MainPlan} {g : Gaps} {closes : Bool} {outer : Box} {boxes : List Box} (hne : boxes ≠ [])
    (hplan : Planned g p.plan) (hs : ∀ k, p.plan ≠ .spacer k)
    (hpads : (p.padStart, p.padStop) = mainPadding p.plan g closes) (hstop : -1 ≤ g.stop)
    (hfit : (p.line g outer axis boxes).Fit axis boxes (g.start - max p.padStart 0 - p.marginStart g 0)
      (g.stop - max p.padStop 0))
    (hspread : p.plan.distributes = false →
      Spread 1 (p.line g outer axis boxes).gap axis (p.line g outer axis boxes).items boxes)
    (heven : p.plan.distributes = true → ∀ gap, g.uniform? = some gap →
      (p.line g outer axis boxes).Even axis boxes gap) :
    Near (2 * boxes.length) axis (p.line g outer axis boxes).starts boxes := by
  have hone : (1 : ℚ) ≤ boxes.length := by exact_mod_cast List.length_pos_iff.2 hne
  have hmono {δ : ℚ} (hnear : Near δ axis (p.line g outer axis boxes).starts boxes) (hδ : δ ≤ 2 * boxes.length) :
      Near (2 * boxes.length) axis (p.line g outer axis boxes).starts boxes := hnear.imp fun _ _ h => h.trans hδ
  have hplain (h : p.padStart = 0) : p.marginStart g 0 = 0 := by simp [MainPlan.marginStart, h]
  obtain ⟨plan, padStart, padStop, gap, tokens⟩ := p
  dsimp only at hplan hs hspread heven hfit
  cases hplan with
  | start =>
    obtain ⟨rfl, -⟩ := Prod.mk.inj hpads
    have hbefore : g.start - max g.start 0 - MainPlan.marginStart ⟨.start, g.start, padStop, gap, tokens⟩ g 0 = 0 := by
      simp only [MainPlan.marginStart, reduceCtorEq, if_false]
      omega
    rw [hbefore] at hfit
    exact hmono (hfit.near_start rfl (hspread rfl)) (by linarith)
  | stop =>
    obtain ⟨rfl, rfl⟩ := Prod.mk.inj hpads
    have hafter : |((g.stop - max g.stop 0 : Int) : ℚ)| ≤ 1 := by exact_mod_cast abs_le.2 ⟨by omega, by omega⟩
    exact hmono (hfit.near_stop hne rfl (hspread rfl) hafter) (by linarith)
  | center h =>
    obtain ⟨rfl, rfl⟩ := Prod.mk.inj hpads
    rw [max_self, sub_zero, sub_zero, hplain rfl, sub_zero] at hfit
    have hclose := abs_le_of_close h
    rw [abs_sub_comm] at hclose
    exact hmono (hfit.near_center hne rfl (hspread rfl) hclose) (by linarith)
  | between hg h0 =>
    obtain ⟨rfl, rfl⟩ := Prod.mk.inj hpads
    have hbefore : g.start - max g.start 0 - MainPlan.marginStart ⟨.between, g.start, g.stop, gap, tokens⟩ g 0 = 0 := by
      simp only [MainPlan.marginStart, reduceCtorEq, if_false]
      omega
    have hafter : |((g.stop - max g.stop 0 : Int) : ℚ)| ≤ 1 := by exact_mod_cast abs_le.2 ⟨by omega, by omega⟩
    rw [hbefore] at hfit
    exact hmono ((heven rfl _ hg).near_between hfit h0 rfl hafter) (by linarith)
  | around hg h0 hb he =>
    obtain ⟨rfl, rfl⟩ := Prod.mk.inj hpads
    rw [max_self, sub_zero, sub_zero, hplain rfl, sub_zero] at hfit
    have hb := abs_le_of_close hb
    have he := abs_le_of_close he
    push_cast at hb he
    exact hmono ((heven rfl _ hg).near_around hfit h0 rfl hb he) (by linarith)
  | evenly hg h0 hb he =>
    obtain ⟨rfl, rfl⟩ := Prod.mk.inj hpads
    rw [max_self, sub_zero, sub_zero, hplain rfl, sub_zero] at hfit
    exact hmono ((heven rfl _ hg).near_evenly hfit h0 rfl (abs_le_of_close hb) (abs_le_of_close he)) (by linarith)
  | spacer => exact absurd rfl (hs _)

theorem near_lineOf (hne : children ≠ []) (hin : ∀ c ∈ children, c.box.within owner.box axis = true)
    (hs : ∀ k, (mainPlan owner axis children).plan ≠ .spacer k) :
    Near (2 * children.length) axis (lineOf owner axis children).starts (children.map (·.box)) := by
  have hboxes : children.map (·.box) ≠ [] := by simpa using hne
  rw [← List.length_map (·.box)]
  exact near_planned axis hboxes (planned_mainPlan owner axis children) hs rfl
    (neg_one_le_stop owner axis children hin) (fit_lineOf owner axis children)
    (fun hd => spread_lineOf owner axis children hd hs) fun hd _ => even_lineOf owner axis children hd

/-- The tokens that place children along the direction of their owner, if there is no spacer among them, state a line
of a flexbox in which each child starts within twice the tolerance for each of them from its box. -/
theorem justified_in_place {owner : Node} {axis : Axis} {flow : List Tree} (hd : owner.direction = some axis)
    (hne : flow ≠ []) (hin : ∀ t ∈ flow, t.box.within owner.box axis = true)
    (hs : ∀ k, (mainPlan owner axis (flow.map (·.node))).plan ≠ .spacer k) (j : Journal) :
    let p := mainPlan owner axis (flow.map (·.node))
    justifyChildren owner flow j = ((owner.pushAll (p.ownTokens axis), worded (p.childTokens axis) flow), j) ∧
    ∃ l : Line, l.Written axis owner.box (flow.map Tree.box) (p.ownTokens axis) (p.childTokens axis) ∧
      List.Forall₂ (fun x t => |x - (t.box.start axis : ℚ)| ≤ 2 * flow.length * Tuning.tolerance) l.starts flow := by
  intro p
  have hboxes : (flow.map (·.node)).map (·.box) = flow.map Tree.box := List.map_map
  have hwritten := written_line owner axis (flow.map (·.node))
  have hnear := near_lineOf owner axis _ (by simpa using hne) (List.forall_mem_map.2 hin) hs
  rw [hboxes] at hwritten hnear
  refine ⟨?_, _, hwritten, ?_⟩
  · rw [justifyChildren_eq hd hne]
    dsimp only
    split
    · next k hk => exact absurd hk (hs k)
    · rfl
  · rw [Near, List.forall₂_map_right_iff, List.length_map] at hnear
    simpa [Tuning.tolerance] using hnear

/-- Three boxes with about ten pixels before, between and after them. -/
def shelf : Tree where
  node := { box := ⟨0, 0, 100, 20⟩, width := some .fixed, direction := some .row }
  flow := [10, 40, 71].map fun x => ⟨{ box := ⟨x, 0, 20, 20⟩ }, [], []⟩

theorem justified_in_place_shelf : (∀ t ∈ shelf.flow, t.box.within shelf.box .row = true) ∧
    ∃ l : Line, l.Written .row shelf.box (shelf.flow.map Tree.box) ["justify-evenly"] [[], [], []] ∧
      List.Forall₂ (fun x t => |x - (t.box.start .row : ℚ)| ≤ 2 * shelf.flow.length * Tuning.tolerance) l.starts
        shelf.flow := by
  have hin : ∀ t ∈ shelf.flow, t.box.within shelf.box .row = true := by simp only [shelf, List.forall_mem_map]; decide
  have hp : (mainPlan shelf.node .row (shelf.flow.map (·.node))).plan = .evenly := by decide
  have hne : shelf.flow ≠ [] := by simp [shelf]
  have hd : shelf.node.direction = some .row := rfl
  exact ⟨hin, (justified_in_place hd hne hin (by simp [hp]) {}).2⟩

end FlexRecovery.Resolve
