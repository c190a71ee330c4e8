import FlexRecovery.Proofs.Walking

/-!
What finishing an owner writes: tokens of the owner, tokens of each of its children, and at most one spacer between
two of them. The children keep everything else, their sizes among it.
-/

namespace FlexRecovery

open Node Tree

namespace Node

theorem pushAll_nil (n : Node) : n.pushAll [] = n := by cases n; rfl

theorem pushAll_pushAll (n : Node) (ts us : List String) : (n.pushAll ts).pushAll us = n.pushAll (ts ++ us) := by
  simp only [pushAll, Classes.pushAll, List.foldl_append]

@[simp] theorem sizing_pushAll (n : Node) (ts : List String) (axis : Axis) :
    (n.pushAll ts).sizing axis = n.sizing axis := by cases axis <;> rfl

end Node

namespace Resolve

/-- Each tree with tokens of its own at the root. -/
def worded (tokens : List (List String)) (flow : List Tree) : List Tree :=
  List.zipWith (fun ts t => t.mapNode (·.pushAll ts)) tokens flow

/-- The same tree with further tokens at the root. -/
def Worded (t u : Tree) : Prop := ∃ ts, u = t.mapNode (·.pushAll ts)

theorem Worded.refl (t : Tree) : Worded t t := ⟨[], by rw [mapNode, pushAll_nil]; cases t; rfl⟩

theorem Worded.trans {t u v : Tree} (h : Worded t u) (h' : Worded u v) : Worded t v := by
  obtain ⟨ts, rfl⟩ := h
  obtain ⟨us, rfl⟩ := h'
  exact ⟨ts ++ us, by simp only [mapNode, pushAll_pushAll]⟩

theorem Worded.sizing {t u : Tree} (h : Worded t u) (axis : Axis) : u.node.sizing axis = t.node.sizing axis := by
  obtain ⟨ts, rfl⟩ := h
  exact sizing_pushAll t.node ts axis

theorem worded_refl (ts : List Tree) : List.Forall₂ Worded ts ts := List.forall₂_same.2 fun t _ => .refl t

theorem worded_trans {ts us vs : List Tree} (h : List.Forall₂ Worded ts us) (h' : List.Forall₂ Worded us vs) :
    List.Forall₂ Worded ts vs :=
  forall₂_trans h h' fun _ _ _ => Worded.trans

theorem forall₂_worded {tokens : List (List String)} {flow : List Tree} (h : tokens.length = flow.length) :
    List.Forall₂ Worded flow (worded tokens flow) := by
  induction flow generalizing tokens with
  | nil =>
    rw [worded, List.zipWith_nil_right]
    exact .nil
  | cons t flow ih =>
    cases tokens with
    | nil => cases h
    | cons ts tokens => exact .cons ⟨ts, rfl⟩ (ih (Nat.succ.inj h))

/-- What an owner states across its direction. -/
def CrossPlan.ownTokens (p : CrossPlan) (cross : Axis) : List String :=
  p.align.token :: (padToken (startLetter cross) p.padStart ++ padToken (stopLetter cross) p.padStop)

/-- What its children state across it. -/
def CrossPlan.childTokens (p : CrossPlan) (cross : Axis) : List (List String) :=
  p.children.map (·.map (CrossToken.text cross))

/-- What an owner states along its direction. -/
def MainPlan.ownTokens (p : MainPlan) (axis : Axis) : List String :=
  p.plan.token :: (padToken (startLetter axis) p.padStart ++ padToken (stopLetter axis) p.padStop ++
    (p.gap.map (gapToken axis)).toList)

/-- What its children state along it. -/
def MainPlan.childTokens (p : MainPlan) (axis : Axis) : List (List String) :=
  p.children.map (·.map (MainToken.text axis))

theorem length_childTokens_crossPlan (owner : Node) (cross : Axis) (children : List Node) :
    ((crossPlan owner cross children).childTokens cross).length = children.length := by
  simp [CrossPlan.childTokens, crossPlan]

theorem length_childTokens_mainPlan (owner : Node) (axis : Axis) (children : List Node) :
    ((mainPlan owner axis children).childTokens axis).length = children.length := by
  simp [MainPlan.childTokens, mainPlan]

theorem map_zip_eq_worded {α : Type} (tokens : α → List String) (as : List α) (flow : List Tree) :
    ((as.zip flow).map fun (a, t) => t.mapNode (·.pushAll (tokens a))) = worded (as.map tokens) flow := by
  rw [worded, List.zipWith_map_left, ← List.map_uncurry_zip_eq_zipWith]
  rfl

variable {owner : Node} {flow : List Tree} {direction : Axis}

theorem alignChildren_eq (hd : owner.direction = some direction) (hne : flow ≠ []) :
    alignChildren owner flow =
      let p := crossPlan owner direction.cross (flow.map node)
      ({ owner with align := some p.align }.pushAll (p.ownTokens direction.cross),
        worded (p.childTokens direction.cross) flow) := by
  unfold alignChildren
  rw [hd]
  dsimp only
  rw [if_neg (by simpa using hne)]
  exact Prod.ext rfl (map_zip_eq_worded _ _ flow)

theorem justifyChildren_eq (hd : owner.direction = some direction) (hne : flow ≠ []) (j : Journal) :
    justifyChildren owner flow j =
      let p := mainPlan owner direction (flow.map node)
      let placed := worded (p.childTokens direction) flow
      match p.plan with
      | .spacer k => ((owner.pushAll (p.ownTokens direction), (insertSpacer owner.box direction k placed j).1),
          (insertSpacer owner.box direction k placed j).2)
      | _ => ((owner.pushAll (p.ownTokens direction), placed), j) := by
  unfold justifyChildren
  rw [hd]
  dsimp only
  rw [if_neg (by simpa using hne), map_zip_eq_worded]
  cases hp : (mainPlan owner direction (flow.map (·.node))).plan <;> simp only [MainPlan.ownTokens, hp] <;> rfl

/-- The children with further tokens, and perhaps a spacer behind one of them. -/
inductive Spaced : List Tree → List Tree → Prop where
  | plain {ts us} (h : List.Forall₂ Worded ts us) : Spaced ts us
  | spacer {ts us vs} (h : List.Forall₂ Worded ts (us ++ vs)) (hu : us ≠ []) {s : Node}
      (hs : ∀ axis, s.sizing axis ≠ some .fixed) (hp : s.hasRole .page = false) :
      Spaced ts (us ++ ⟨s, [], []⟩ :: vs)

theorem Spaced.worded {ts us vs : List Tree} (h : List.Forall₂ Worded ts us) (h' : Spaced us vs) : Spaced ts vs := by
  cases h' with
  | plain h' => exact .plain (worded_trans h h')
  | spacer h' hu hs hp => exact .spacer (worded_trans h h') hu hs hp

theorem worded_map (tokens : Node → List String) (ts : List Tree) :
    List.Forall₂ Worded ts (ts.map (mapNode fun n => n.pushAll (tokens n))) :=
  List.forall₂_map_right_iff.2 (List.forall₂_same.2 fun t _ => ⟨tokens t.node, rfl⟩)

theorem Spaced.map {ts us : List Tree} (h : Spaced ts us) (tokens : Node → List String) :
    Spaced ts (us.map (mapNode fun n => n.pushAll (tokens n))) := by
  cases h with
  | plain h => exact .plain (worded_trans h (worded_map tokens _))
  | @spacer us vs h hu s hs hp =>
    have hr := worded_trans h (worded_map tokens (us ++ vs))
    rw [List.map_append] at hr
    rw [List.map_append, List.map_cons]
    exact .spacer hr (by simpa using hu) (fun axis => by rw [sizing_pushAll]; exact hs axis) hp

theorem spaced_insertSpacer (box : Box) (axis : Axis) (k : Nat) {ts us : List Tree} (h : List.Forall₂ Worded ts us)
    (j : Journal) : Spaced ts (insertSpacer box axis k us j).1 := by
  unfold insertSpacer
  cases us[k]? with
  | none => exact .plain h
  | some before =>
    cases ha : us[k + 1]? with
    | none => exact .plain h
    | some after =>
      obtain ⟨hk, -⟩ := List.getElem?_eq_some_iff.1 ha
      rw [← List.take_append_drop (k + 1) us] at h
      refine .spacer h ?_ (fun x => ?_) ?_
      · rw [ne_eq, ← List.length_eq_zero_iff, List.length_take]
        omega
      · cases axis <;> cases x <;> simp [spacerNode, setSizing, sizing, Axis.cross]
      · cases axis <;> rfl

theorem spaced_alignChildren (owner : Node) (flow : List Tree) :
    List.Forall₂ Worded flow (alignChildren owner flow).2 := by
  cases hd : owner.direction with
  | none =>
    unfold alignChildren
    rw [hd]
    exact worded_refl flow
  | some direction =>
    by_cases hne : flow = []
    · subst hne
      unfold alignChildren
      rw [hd]
      exact .nil
    · rw [alignChildren_eq hd hne]
      refine forall₂_worded ?_
      rw [length_childTokens_crossPlan, List.length_map]

theorem spaced_justifyChildren (owner : Node) (flow : List Tree) (j : Journal) :
    Spaced flow (justifyChildren owner flow j).1.2 := by
  cases hd : owner.direction with
  | none =>
    unfold justifyChildren
    rw [hd]
    exact .plain (worded_refl flow)
  | some direction =>
    by_cases hne : flow = []
    · subst hne
      unfold justifyChildren
      rw [hd]
      exact .plain .nil
    · have hw := forall₂_worded ((length_childTokens_mainPlan owner direction (flow.map node)).trans
        (List.length_map _))
      rw [justifyChildren_eq hd hne]
      dsimp only
      split
      · exact spaced_insertSpacer _ _ _ hw j
      · exact .plain hw

/-- Settling looks at the same in both. -/
structure Settling (n n' : Node) : Prop where
  width : n'.width = n.width
  height : n'.height = n.height
  page : n'.hasRole .page = n.hasRole .page

theorem Settling.trans {a b c : Node} (h : Settling a b) (h' : Settling b c) : Settling a c :=
  ⟨h'.width.trans h.width, h'.height.trans h.height, h'.page.trans h.page⟩

theorem Settling.sizing {n n' : Node} (h : Settling n n') (axis : Axis) : n'.sizing axis = n.sizing axis := by
  cases axis
  · exact h.width
  · exact h.height

theorem settling_pushAll (n : Node) (ts : List String) : Settling n (n.pushAll ts) := ⟨rfl, rfl, rfl⟩

theorem settling_alignChildren (n : Node) (flow : List Tree) : Settling n (alignChildren n flow).1 := by
  unfold alignChildren
  split
  · exact ⟨rfl, rfl, rfl⟩
  · split <;> exact ⟨rfl, rfl, rfl⟩

theorem settling_justifyChildren (n : Node) (flow : List Tree) (j : Journal) :
    Settling n (justifyChildren n flow j).1.1 := by
  cases hd : n.direction with
  | none =>
    unfold justifyChildren
    rw [hd]
    exact ⟨rfl, rfl, rfl⟩
  | some direction =>
    by_cases hne : flow = []
    · subst hne
      unfold justifyChildren
      rw [hd]
      exact ⟨rfl, rfl, rfl⟩
    · rw [justifyChildren_eq hd hne]
      dsimp only
      split <;> exact settling_pushAll n _

/-- Once its sizes are settled, an owner keeps them while it is finished, and so do its children. -/
theorem spaced_finish (n : Node) (flow : List Tree) (j : Journal) :
    Settling (settleAuto n flow) (finish n flow j).1.1 ∧ Spaced flow (finish n flow j).1.2 := by
  have hsizes {n m : Node} (hm : Settling n m) {us : List Tree} (hf : Spaced flow us) :
      Settling n (if isButton m (withSizes m us) then m.addRole .button else m) ∧ Spaced flow (withSizes m us) := by
    constructor
    · split
      · exact hm.trans ⟨rfl, rfl, hasRole_addMark m rfl rfl⟩
      · exact hm
    · unfold withSizes
      split
      · exact hf
      · exact hf.map _
  unfold finish
  cases (settleAuto n flow).direction with
  | none => exact ⟨⟨rfl, rfl, rfl⟩, .plain (worded_refl flow)⟩
  | some direction =>
    have hn := settling_pushAll (settleAuto n flow) ["flex", directionToken direction]
    by_cases h : ((settleAuto n flow).pushAll ["flex", directionToken direction]).hasRole .listWrap = true
    · simp only [h, if_true]
      exact hsizes hn (.plain (worded_refl flow))
    · simp only [h]
      have ha := settling_alignChildren ((settleAuto n flow).pushAll ["flex", directionToken direction]) flow
      have hf := spaced_alignChildren ((settleAuto n flow).pushAll ["flex", directionToken direction]) flow
      have hj := settling_justifyChildren
        (alignChildren ((settleAuto n flow).pushAll ["flex", directionToken direction]) flow).1
        (alignChildren ((settleAuto n flow).pushAll ["flex", directionToken direction]) flow).2 j
      have hs := spaced_justifyChildren
        (alignChildren ((settleAuto n flow).pushAll ["flex", directionToken direction]) flow).1
        (alignChildren ((settleAuto n flow).pushAll ["flex", directionToken direction]) flow).2 j
      exact hsizes ((hn.trans ha).trans hj) (hs.worded hf)

end Resolve

end FlexRecovery
