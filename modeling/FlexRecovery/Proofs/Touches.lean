import FlexRecovery.Proofs.Styled
import FlexRecovery.Proofs.Words

/-!
What finishing an owner does to a node, whether it is the owner or one of its children: sizes and the alignment are
settled, tokens of the layout are added, and the node may turn out to be a button.
-/

namespace FlexRecovery

open Node Tree

namespace Resolve

/-- One thing that is settled or added. -/
inductive Touch : Node → Node → Prop where
  | sizing (n axis s) : Touch n (n.setSizing axis s)
  | align (n a) : Touch n { n with align := a }
  | word (n) {t} (h : Opens (stems ++ fittings) t) : Touch n (n.push t)
  | button (n) : Touch n (n.addRole .button)

abbrev Touches : Node → Node → Prop := Relation.ReflTransGen Touch

theorem Touches.box {n n' : Node} (h : Touches n n') : n'.box = n.box := by
  induction h with
  | refl => rfl
  | tail _ h ih =>
    refine Eq.trans ?_ ih
    cases h with
    | sizing axis s => cases axis <;> rfl
    | _ => rfl

theorem Touches.chrome {n n' : Node} (h : Touches n n') : n'.roles.isChrome = n.roles.isChrome := by
  induction h with
  | refl => rfl
  | tail _ h ih =>
    refine Eq.trans ?_ ih
    cases h with
    | sizing axis s => cases axis <;> rfl
    | button => exact (isChrome_addRole _ _).trans (Bool.or_false _)
    | _ => rfl

theorem touches_pushAll (n : Node) {ts : List String} (h : ∀ t ∈ ts, IsWord t) : Touches n (n.pushAll ts) := by
  induction ts generalizing n with
  | nil =>
    rw [show n.pushAll [] = n by cases n; rfl]
  | cons t ts ih =>
    obtain ⟨ht, hts⟩ := List.forall_mem_cons.1 h
    exact .head (.word n (ht.mono (List.subset_append_left _ _))) (ih (n.push t) hts)

theorem touches_settleAuto (n : Node) (flow : List Tree) : Touches n (settleAuto n flow) := by
  have axis (n : Node) (axis : Axis) : Touches n (settleAxis flow n axis) := by
    unfold settleAxis
    split
    · exact .single (.sizing n axis .fixed)
    · exact .refl
  unfold settleAuto
  split
  · exact .refl
  · exact (axis n .row).trans (axis _ .column)

/-- The same tree with a touched root. -/
def Retouched (t u : Tree) : Prop := ∃ n, Touches t.node n ∧ u = ⟨n, t.flow, t.attached⟩

theorem retouched_mapNode {f : Node → Node} (t : Tree) (hf : Touches t.node (f t.node)) : Retouched t (t.mapNode f) :=
  ⟨_, hf, rfl⟩

theorem Retouched.refl (t : Tree) : Retouched t t := ⟨t.node, .refl, by cases t; rfl⟩

theorem Retouched.trans {t u v : Tree} (h : Retouched t u) (h' : Retouched u v) : Retouched t v := by
  obtain ⟨n, hn, rfl⟩ := h
  obtain ⟨n', hn', rfl⟩ := h'
  exact ⟨n', hn.trans hn', rfl⟩

theorem Retouched.box {t u : Tree} (h : Retouched t u) : u.box = t.box := by
  obtain ⟨n, hn, rfl⟩ := h
  exact hn.box

theorem retouched_refl (ts : List Tree) : List.Forall₂ Retouched ts ts := List.forall₂_same.2 fun t _ => .refl t

theorem retouched_trans {ts us vs : List Tree} (h : List.Forall₂ Retouched ts us) (h' : List.Forall₂ Retouched us vs) :
    List.Forall₂ Retouched ts vs :=
  forall₂_trans h h' fun _ _ _ => Retouched.trans

/-- Each child gets tokens of its own. -/
theorem retouched_zip {α : Type} (tokens : α → List String) (h : ∀ a, ∀ t ∈ tokens a, IsWord t) {as : List α}
    {ts : List Tree} (hl : as.length = ts.length) :
    List.Forall₂ Retouched ts ((as.zip ts).map fun (a, t) => t.mapNode (·.pushAll (tokens a))) := by
  induction ts generalizing as with
  | nil => simp
  | cons t ts ih =>
    cases as with
    | nil => cases hl
    | cons a as => exact .cons (retouched_mapNode t (touches_pushAll _ (h a))) (ih (Nat.succ.inj hl))

theorem touches_alignChildren (n : Node) (flow : List Tree) :
    Touches n (alignChildren n flow).1 ∧ List.Forall₂ Retouched flow (alignChildren n flow).2 := by
  unfold alignChildren
  split
  · exact ⟨.refl, retouched_refl flow⟩
  · next direction _ =>
    split
    · exact ⟨.refl, retouched_refl flow⟩
    · refine ⟨.head (.align n _) (touches_pushAll _ (isWord_crossPlan _ _)), ?_⟩
      refine retouched_zip (fun ts : List CrossToken => ts.map (CrossToken.text direction.cross))
        (fun ts => List.forall_mem_map.2 fun t _ => isWord_crossToken _ t) ?_
      simp [crossPlan]

/-- A spacer that takes up the space between two boxes. -/
def Fills (owner : Box) (axis : Axis) (before after : Box) (s : Tree) : Prop :=
  before.stop axis < after.start axis ∧
    ∃ index n, Touches (spacerNode owner axis index before after) n ∧ s = ⟨n, [], []⟩

/-- Touched children of an owner, and perhaps a spacer between two of them. -/
inductive Laid (owner : Box) : List Tree → List Tree → Prop where
  | plain {ts us} (h : List.Forall₂ Retouched ts us) : Laid owner ts us
  | spaced {ts us vs} (h : List.Forall₂ Retouched ts (us ++ vs)) {axis before after s} (hu : before ∈ us)
      (hv : after ∈ vs) (hs : Fills owner axis before.box after.box s) : Laid owner ts (us ++ s :: vs)

theorem Laid.of_retouched {owner : Box} {ts us vs : List Tree} (h : List.Forall₂ Retouched ts us)
    (h' : Laid owner us vs) : Laid owner ts vs := by
  cases h' with
  | plain h' => exact .plain (retouched_trans h h')
  | spaced h' hu hv hs => exact .spaced (retouched_trans h h') hu hv hs

theorem widest?_eq_some {g : Gaps} {k : Nat} {w : Int} (h : g.widest? = some (k, w)) : g.interior[k]? = some w := by
  have key : ∀ p, g.widest? = some p → g.interior[p.1]? = some p.2 := by
    unfold Gaps.widest?
    refine List.foldlRecOn (motive := fun best => ∀ p : Nat × Int, best = some p → g.interior[p.1]? = some p.2) _ _
      (fun p hp => by cases hp) fun best hb q hq p hp => ?_
    have hq := List.mem_zipIdx_iff_getElem?.1 hq
    dsimp only at hp
    split at hp
    · split at hp
      · obtain rfl := Option.some.inj hp
        exact hb _ rfl
      · obtain rfl := Option.some.inj hp
        exact hq
    · obtain rfl := Option.some.inj hp
      exact hq
  exact key (k, w) h

theorem not_spacer_of_distribution? {g : Gaps} {p : Plan} (h : distribution? g = some p) (k : Nat) : p ≠ .spacer k := by
  unfold distribution? at h
  split at h
  · cases h
  · split at h
    · cases h
    · split at h
      · cases h
        simp
      · split at h
        · cases h
          simp
        · split at h
          · cases h
            simp
          · cases h

theorem spacer?_eq_some {g : Gaps} {sizing : Option Sizing} {p : Plan} (h : spacer? g sizing = some p) :
    ∃ k w, p = .spacer k ∧ g.interior[k]? = some w ∧ 0 < w := by
  unfold spacer? at h
  split at h
  · cases hw : g.widest? with
    | none =>
      rw [hw] at h
      cases h
    | some q =>
      obtain ⟨k, w⟩ := q
      rw [hw] at h
      dsimp only at h
      split at h
      · next hpos => exact ⟨k, w, (Option.some.inj h).symm, widest?_eq_some hw, hpos⟩
      · cases h
  · cases h

/-- A spacer goes into a gap that is not empty. -/
theorem pos_of_spacer {g : Gaps} {sizing : Option Sizing} {isOpenEnd : Bool} {k : Nat}
    (h : classify g sizing isOpenEnd = .spacer k) : ∃ w, g.interior[k]? = some w ∧ 0 < w := by
  unfold classify at h
  split at h
  · cases h
  · cases hd : distribution? g with
    | some p =>
      rw [hd] at h
      exact absurd h (not_spacer_of_distribution? hd k)
    | none =>
      rw [hd] at h
      dsimp only at h
      split at h
      · cases h
      · cases hs : spacer? g sizing with
        | some p =>
          rw [hs] at h
          obtain ⟨k', w, rfl, hw⟩ := spacer?_eq_some hs
          cases h
          exact ⟨w, hw⟩
        | none =>
          rw [hs] at h
          dsimp only at h
          split at h <;> cases h

theorem getElem?_gaps {axis : Axis} {bs : List Box} {k : Nat} {w : Int} (h : (Box.gaps axis bs)[k]? = some w) :
    ∃ a b, bs[k]? = some a ∧ bs[k + 1]? = some b ∧ w = b.start axis - a.stop axis := by
  induction bs generalizing k with
  | nil => cases h
  | cons a bs ih =>
    cases bs with
    | nil => cases h
    | cons b bs =>
      cases k with
      | zero =>
        rw [Box.gaps, List.getElem?_cons_zero] at h
        exact ⟨a, b, rfl, rfl, (Option.some.inj h).symm⟩
      | succ k => exact ih h

/-- The gap that a spacer fills lies between two neighbours. -/
theorem gap_of_spacer {n : Node} {axis : Axis} {children : List Node} {k : Nat}
    (h : (mainPlan n axis children).plan = .spacer k) :
    ∃ a b, children[k]? = some a ∧ children[k + 1]? = some b ∧ a.box.stop axis < b.box.start axis := by
  have hplan : classify (Gaps.along (children.map (·.box)) n.box axis) (n.sizing axis) (isOpen n axis) = .spacer k := by
    unfold mainPlan at h
    dsimp only at h
    split at h
    · cases h
    · exact h
  obtain ⟨w, hw, hpos⟩ := pos_of_spacer hplan
  have hgaps : (Box.gaps axis (children.map (·.box)))[k]? = some w := by
    unfold Gaps.along at hw
    split at hw
    · exact hw
    · cases hw
  obtain ⟨a, b, ha, hb, rfl⟩ := getElem?_gaps hgaps
  rw [List.getElem?_map, Option.map_eq_some_iff] at ha hb
  obtain ⟨a, ha, rfl⟩ := ha
  obtain ⟨b, hb, rfl⟩ := hb
  exact ⟨a, b, ha, hb, by omega⟩

theorem map_box_retouched {ts us : List Tree} (h : List.Forall₂ Retouched ts us) : us.map Tree.box = ts.map Tree.box := by
  induction h with
  | nil => rfl
  | cons h _ ih => rw [List.map_cons, List.map_cons, h.box, ih]

theorem laid_insertSpacer (owner : Box) {axis : Axis} {k : Nat} {ts us : List Tree}
    (h : List.Forall₂ Retouched ts us) {a b : Node} (ha : (ts.map (·.node))[k]? = some a)
    (hb : (ts.map (·.node))[k + 1]? = some b) (hab : a.box.stop axis < b.box.start axis) (j : Journal) :
    Laid owner ts (insertSpacer owner axis k us j).1 := by
  have hboxes {i : Nat} {c : Node} (hc : (ts.map (·.node))[i]? = some c) : ∃ x, us[i]? = some x ∧ x.box = c.box := by
    rw [List.getElem?_map, Option.map_eq_some_iff] at hc
    obtain ⟨t, ht, rfl⟩ := hc
    have hx : (us.map Tree.box)[i]? = some t.box := by
      rw [map_box_retouched h, List.getElem?_map, ht]
      rfl
    rw [List.getElem?_map, Option.map_eq_some_iff] at hx
    exact hx
  obtain ⟨x, hx, hxa⟩ := hboxes ha
  obtain ⟨y, hy, hyb⟩ := hboxes hb
  rw [← hxa, ← hyb] at hab
  unfold insertSpacer
  rw [hx, hy]
  rw [← List.take_append_drop (k + 1) us] at h
  have hxu : x ∈ us.take (k + 1) := List.mem_of_getElem? (i := k) (by rw [List.getElem?_take, if_pos (by omega), hx])
  have hyv : y ∈ us.drop (k + 1) := List.mem_of_getElem? (i := 0) (by rw [List.getElem?_drop, Nat.add_zero, hy])
  exact .spaced h hxu hyv ⟨hab, _, _, .refl, rfl⟩

theorem laid_justifyChildren (n : Node) (flow : List Tree) (j : Journal) :
    Touches n (justifyChildren n flow j).1.1 ∧ Laid n.box flow (justifyChildren n flow j).1.2 := by
  unfold justifyChildren
  cases n.direction with
  | none => exact ⟨.refl, .plain (retouched_refl flow)⟩
  | some axis =>
    by_cases he : flow.isEmpty = true
    · simp only [he, if_true]
      exact ⟨.refl, .plain (retouched_refl flow)⟩
    · simp only [he]
      let p := mainPlan n axis (flow.map (·.node))
      have hn := isWord_mainPlan p axis
      have hr := retouched_zip (fun ts : List MainToken => ts.map (MainToken.text axis))
        (fun ts => List.forall_mem_map.2 fun t _ => isWord_mainToken axis t)
        (show p.children.length = flow.length by simp [p, mainPlan])
      cases hp : (mainPlan n axis (flow.map (·.node))).plan with
      | spacer k =>
        obtain ⟨a, b, ha, hb, hab⟩ := gap_of_spacer hp
        have hs := laid_insertSpacer n.box hr ha hb hab j
        exact ⟨touches_pushAll n (by rw [← hp]; exact hn), hs⟩
      | _ => exact ⟨touches_pushAll n (by rw [← hp]; exact hn), .plain hr⟩

theorem Laid.map {owner : Box} {f : Node → Node} (hf : ∀ n, Touches n (f n)) {ts us : List Tree} (h : Laid owner ts us) :
    Laid owner ts (us.map (mapNode f)) := by
  have hmap (us : List Tree) : List.Forall₂ Retouched us (us.map (mapNode f)) :=
    List.forall₂_map_right_iff.2 (List.forall₂_same.2 fun t _ => retouched_mapNode t (hf t.node))
  cases h with
  | plain h => exact .plain (retouched_trans h (hmap us))
  | @spaced us vs h axis before after s hu hv hs =>
    obtain ⟨hab, i, n, hn, rfl⟩ := hs
    have hr := retouched_trans h (hmap (us ++ vs))
    rw [List.map_append] at hr
    rw [List.map_append, List.map_cons]
    have hbox (t : Tree) : (t.mapNode f).box = t.box := (hf t.node).box
    have hs : Fills owner axis (before.mapNode f).box (after.mapNode f).box (mapNode f ⟨n, [], []⟩) := by
      rw [hbox, hbox]
      exact ⟨hab, i, f n, hn.trans (hf n), rfl⟩
    exact .spaced hr (List.mem_map_of_mem hu) (List.mem_map_of_mem hv) hs

/-- What holds of the children and is kept by a touch holds of all that are laid, if it holds of a spacer between
two of them. -/
theorem Laid.forall {owner : Box} {G : Tree → Prop} (touch : ∀ t u, Retouched t u → G t → G u)
    (spacer : ∀ axis before after s, G before → G after → Fills owner axis before.box after.box s → G s)
    {ts us : List Tree} (h : Laid owner ts us) (ht : ∀ t ∈ ts, G t) : ∀ u ∈ us, G u := by
  have key {vs : List Tree} (h : List.Forall₂ Retouched ts vs) : ∀ u ∈ vs, G u := by
    intro u hu
    obtain ⟨t, hmem, hr⟩ := exists_of_mem_right h hu
    exact touch t u hr (ht t hmem)
  cases h with
  | plain h => exact key h
  | spaced h hu hv hs =>
    obtain ⟨hus, hvs⟩ := List.forall_mem_append.1 (key h)
    exact List.forall_mem_append.2 ⟨hus, List.forall_mem_cons.2 ⟨spacer _ _ _ _ (hus _ hu) (hvs _ hv) hs, hvs⟩⟩

/-- The owner and its children, finished. -/
theorem laid_finish (n : Node) (flow : List Tree) (j : Journal) :
    Touches n (finish n flow j).1.1 ∧ Laid n.box flow (finish n flow j).1.2 := by
  have hsizes {m : Node} (hm : Touches n m) {us : List Tree} (hf : Laid n.box flow us) :
      Touches n (if isButton m (withSizes m us) then m.addRole .button else m) ∧ Laid n.box flow (withSizes m us) := by
    constructor
    · split
      · exact hm.tail (.button m)
      · exact hm
    · unfold withSizes
      split
      · exact hf
      · exact hf.map fun n => touches_pushAll n
          (List.forall_mem_append.2 ⟨isWord_sizeTokens _ _ n .row, isWord_sizeTokens _ _ n .column⟩)
  have hn := touches_settleAuto n flow
  unfold finish
  cases (settleAuto n flow).direction with
  | none => exact ⟨hn, .plain (retouched_refl flow)⟩
  | some direction =>
    have hn := hn.trans (touches_pushAll _ (isWord_flex direction))
    by_cases h : ((settleAuto n flow).pushAll ["flex", directionToken direction]).hasRole .listWrap = true
    · simp only [h, if_true]
      exact hsizes hn (.plain (retouched_refl flow))
    · simp only [h]
      obtain ⟨ha, hf⟩ := touches_alignChildren ((settleAuto n flow).pushAll ["flex", directionToken direction]) flow
      obtain ⟨hj, hf'⟩ := laid_justifyChildren
        (alignChildren ((settleAuto n flow).pushAll ["flex", directionToken direction]) flow).1
        (alignChildren ((settleAuto n flow).pushAll ["flex", directionToken direction]) flow).2 j
      have hna := hn.trans ha
      rw [Touches.box hna] at hf'
      exact hsizes (hna.trans hj) (hf'.of_retouched hf)

/-- All further tokens are those of an owner. -/
def Told (n n' : Node) : Prop := ∀ t ∈ n'.classes.toList, t ∈ n.classes.toList ∨ Opens ownerStems t

theorem told_of_eq {n n' : Node} (h : n'.classes = n.classes) : Told n n' := fun _ ht => .inl (h ▸ ht)

theorem Told.trans {a b c : Node} (h : Told a b) (h' : Told b c) : Told a c := fun t ht =>
  (h' t ht).elim (h t) .inr

theorem told_pushAll (n : Node) {ts : List String} (h : ∀ t ∈ ts, Opens ownerStems t) : Told n (n.pushAll ts) :=
  fun t ht => (Classes.mem_pushAll.1 ht).imp_right fun hm => h t hm.1

theorem told_settleAuto (n : Node) (flow : List Tree) : Told n (settleAuto n flow) := by
  have axis (n : Node) (axis : Axis) : Told n (settleAxis flow n axis) := by
    unfold settleAxis
    split
    · cases axis <;> exact told_of_eq rfl
    · exact told_of_eq rfl
  unfold settleAuto
  split
  · exact told_of_eq rfl
  · exact (axis n .row).trans (axis _ .column)

theorem told_alignChildren (n : Node) (flow : List Tree) : Told n (alignChildren n flow).1 := by
  unfold alignChildren
  split
  · exact told_of_eq rfl
  · split
    · exact told_of_eq rfl
    · exact Told.trans (b := { n with align := _ }) (told_of_eq rfl) (told_pushAll _ (opens_crossPlan _ _))

theorem told_justifyChildren (n : Node) (flow : List Tree) (j : Journal) : Told n (justifyChildren n flow j).1.1 := by
  unfold justifyChildren
  cases n.direction with
  | none => exact told_of_eq rfl
  | some axis =>
    by_cases he : flow.isEmpty = true
    · simp only [he, if_true]
      exact told_of_eq rfl
    · simp only [he]
      have hn := told_pushAll n (opens_mainPlan (mainPlan n axis (flow.map (·.node))) axis)
      cases hp : (mainPlan n axis (flow.map (·.node))).plan <;> rw [hp] at hn <;> exact hn

/-- An owner is told how its members are laid out, and nothing else. -/
theorem told_finish (n : Node) (flow : List Tree) (j : Journal) : Told n (finish n flow j).1.1 := by
  have hbutton (m : Node) (us : List Tree) : Told m (if isButton m us then m.addRole .button else m) := by
    split <;> exact told_of_eq rfl
  have hn := told_settleAuto n flow
  unfold finish
  cases (settleAuto n flow).direction with
  | none => exact hn
  | some direction =>
    have hn := hn.trans (told_pushAll _ (opens_flex direction))
    by_cases h : ((settleAuto n flow).pushAll ["flex", directionToken direction]).hasRole .listWrap = true
    · simp only [h, if_true]
      exact hn.trans (hbutton _ _)
    · simp only [h]
      exact ((hn.trans (told_alignChildren _ flow)).trans (told_justifyChildren _ _ j)).trans (hbutton _ _)

end Resolve

end FlexRecovery
