import FlexRecovery.Proofs.Grounding
import FlexRecovery.Proofs.Paths
import FlexRecovery.Proofs.Settling
import FlexRecovery.Proofs.Wording

/-!
Sizes are settled in one walk: an owner is settled from children that are settled already, and nothing that comes
after it touches a size again. Settling any nodes of a resolved tree once more therefore changes nothing.
-/

namespace FlexRecovery

open Node Tree

/-! ### Only the root is the page -/

/-- A member of some owner is not the page. -/
def Unpaged (_ : Link) (n : Node) : Prop := n.hasRole .page = false

namespace Draft

open Journaled

theorem roles_styled (t : LayerTraits) (tag : Tag) (box : Box) (opacity : Float32) :
    Gives (·.roles = {}) (styled t tag box opacity) := fun _ => rfl

theorem roles_slice (t : LayerTraits) (box : Box) (opacity : Float32) : Gives (·.roles = {}) (slice t box opacity) := by
  unfold slice
  cases t.bitmap <;> exact fun _ => rfl

theorem roles_text (t : LayerTraits) (rs : List TextRun) (box : Box) (opacity : Float32) :
    Gives (·.roles = {}) (text t rs box opacity) := by
  have haligned (n : Node) : (aligned rs n).roles = n.roles := by
    unfold aligned
    cases rs.findSome? (·.align) <;> rfl
  have hworded (n : Node) : Gives (·.roles = n.roles) (worded t box opacity rs n) := by
    rcases rs with _ | ⟨r, _ | ⟨r', rs⟩⟩ <;> exact fun _ => rfl
  have hlined (multiLine : Bool) (n : Node) : (lined multiLine n).roles = n.roles := by cases multiLine <;> rfl
  rw [text_eq]
  refine (roles_styled t .text box opacity).bind fun n hn => (hworded _).bind fun m hm => gives_pure ?_
  rw [hlined, hm, haligned]
  exact hn

theorem unpaged_of_roles {n : Node} (h : n.roles = {}) (l : Link) : Unpaged l n := by
  rw [Unpaged, hasRole, h]
  rfl

theorem unpaged_chrome (cv : Canvas) (t : LayerTraits) (box : Box) (opacity : Float32) (l : Link) :
    Gives (Unpaged l) (chrome cv t box opacity) := by
  intro j
  let r : Role := if close box.left cv.page.left && close box.top cv.page.top then .header else .safeArea
  have hr : Role.page ≠ r := by
    simp only [r]
    split <;> simp
  have h : ((styled t .view box opacity j).1.addRole r).hasRole .page = false := by
    rw [hasRole_addRole, beq_false_of_ne hr, Bool.or_false]
    exact unpaged_of_roles (roles_styled t .view box opacity j) l
  exact h

theorem drawing_unpaged : Drawing Unpaged where
  node := by
    intro cv onPage t box opacity
    have key {x : Journaled Node} (h : ∀ l, Gives (Unpaged l) x) :
        Gives (fun n => Unpaged .attached n ∧ (isChrome onPage t = false → Unpaged .flow n)) x :=
      fun j => ⟨h .attached j, fun _ => h .flow j⟩
    have hroles {x : Journaled Node} (h : Gives (·.roles = {}) x) (l : Link) : Gives (Unpaged l) x :=
      fun j => unpaged_of_roles (h j) l
    unfold Draft.node
    split
    · exact key (unpaged_chrome cv t box opacity)
    · split
      · exact key (hroles (roles_text t _ box opacity))
      · exact key (hroles fun _ => rfl)
      · exact key (hroles (roles_slice t box opacity))
      · exact key (hroles (roles_styled t .view box opacity))
  marked := fun _ _ _ hm h => hm.page.trans h

end Draft

namespace Stacking

theorem stackable_unpaged : Stackable Unpaged where
  numbered := by
    intro n k h
    rcases numbered_or n k with e | e <;> rw [e] <;> exact h
  owning := by
    intro l n flow h
    rcases owning_or n flow with e | e <;> rw [e] <;> exact h

end Stacking

namespace Regroup

theorem robust_unpaged : Robust Unpaged where
  reads := fun _ _ _ _ _ _ hp h => hp.trans h
  absorb := by
    intro l lower upper h h'
    rw [Unpaged, hasRole_absorb lower upper (by simp), h, h', Bool.or_false]
  promoted := by
    intro l n h
    rw [Unpaged, hasRole, roles_promoted]
    exact h
  leaves := fun _ h => h
  container := by
    intro roles n k hn ts _ _
    rw [Unpaged, ← Bool.not_eq_true, hasRole_iff]
    exact fun hp => absurd (hn.grouping _ hp) (by decide)

end Regroup

theorem unpaged_regrouped (o : Options) (d : Document) : (Recovery.regrouped o d).1.Standing Unpaged :=
  (Recovery.standing_regrouped Regroup.robust_unpaged
    (standing_cleaned o (fun _ => Stacking.stackable_unpaged) (Draft.drawing_unpaged.ofPage o d {}))).1

/-! ### What settling leaves -/

namespace Resolve

/-- No axis follows content that is fixed along it. -/
def Settled (t : Tree) : Prop :=
  t.node.hasRole .page = false → t.flow ≠ [] → ∀ axis, t.node.sizing axis = some .auto →
    ∃ c ∈ t.flow, c.node.sizing axis ≠ some .fixed

theorem settled_leaf (n : Node) : Settled ⟨n, [], []⟩ := fun _ h => absurd rfl h

theorem settleAxis_eq_self {n : Node} {flow : List Tree} {axis : Axis}
    (h : n.sizing axis = some .auto → ∃ c ∈ flow, c.node.sizing axis ≠ some .fixed) : settleAxis flow n axis = n := by
  unfold settleAxis
  refine if_neg fun hc => ?_
  obtain ⟨ha, hall⟩ := Bool.and_eq_true_iff.1 hc
  obtain ⟨c, hmem, hne⟩ := h (by simpa using ha)
  exact hne (by simpa using List.all_eq_true.1 hall c hmem)

theorem settleAuto_eq_self {t : Tree} (h : Settled t) : settleAuto t.node t.flow = t.node := by
  unfold settleAuto
  split
  · rfl
  · next hc =>
    obtain ⟨hp, hne⟩ : t.node.hasRole .page = false ∧ t.flow ≠ [] := by simpa using hc
    rw [settleAxis_eq_self (h hp hne .row), settleAxis_eq_self (h hp hne .column)]

/-- An axis that still follows its content has content that is not fixed. -/
theorem exists_of_settleAxis {n : Node} {flow : List Tree} {axis : Axis}
    (h : (settleAxis flow n axis).sizing axis = some .auto) : ∃ c ∈ flow, c.node.sizing axis ≠ some .fixed := by
  unfold settleAxis at h
  split at h
  · rw [sizing_setSizing] at h
    cases h
  · next hc =>
    rw [h, Bool.and_eq_true, not_and, List.all_eq_true] at hc
    simpa using hc (by simp)

theorem sizing_settleAxis_cross (n : Node) (flow : List Tree) (axis : Axis) :
    (settleAxis flow n axis).sizing axis.cross = n.sizing axis.cross := by
  unfold settleAxis
  split
  · cases axis <;> rfl
  · rfl

theorem hasRole_settleAuto (n : Node) (flow : List Tree) (r : Role) : (settleAuto n flow).hasRole r = n.hasRole r := by
  have axis (n : Node) (axis : Axis) : (settleAxis flow n axis).hasRole r = n.hasRole r := by
    unfold settleAxis
    split
    · cases axis <;> rfl
    · rfl
  unfold settleAuto
  split
  · rfl
  · rw [axis, axis]

theorem settled_settleAuto (n : Node) (flow attached : List Tree) : Settled ⟨settleAuto n flow, flow, attached⟩ := by
  intro hp hne axis ha
  rw [hasRole_settleAuto] at hp
  unfold settleAuto at ha
  rw [if_neg (by simpa using ⟨hp, hne⟩)] at ha
  cases axis with
  | row =>
    have h := sizing_settleAxis_cross (settleAxis flow n .row) flow .column
    exact exists_of_settleAxis (h.symm.trans ha)
  | column => exact exists_of_settleAxis ha

/-! ### Nothing is settled twice -/

theorem Spaced.exists {ts us : List Tree} (h : Spaced ts us) {t : Tree} (ht : t ∈ ts) : ∃ u ∈ us, Worded t u := by
  cases h with
  | plain h => exact exists_of_mem_right h.flip ht
  | spacer h =>
    obtain ⟨u, hu, hw⟩ := exists_of_mem_right h.flip ht
    refine ⟨u, ?_, hw⟩
    rcases List.mem_append.1 hu with hu | hu
    · exact List.mem_append_left _ hu
    · exact List.mem_append_right _ (List.mem_cons_of_mem _ hu)

theorem Spaced.ne_nil {ts us : List Tree} (h : Spaced ts us) (hu : us ≠ []) : ts ≠ [] := by
  rintro rfl
  cases h with
  | plain h => exact hu (List.forall₂_nil_left_iff.1 h)
  | spacer h hne => exact hne (List.append_eq_nil_iff.1 (List.forall₂_nil_left_iff.1 h)).1

/-- What holds of the children and does not read their tokens holds of all that come out, if it holds of a spacer. -/
theorem Spaced.forall {ts us : List Tree} {G : Tree → Prop} (hG : ∀ t ts, G t → G (t.mapNode (·.pushAll ts)))
    (hs : ∀ s : Node, s.hasRole .page = false → G ⟨s, [], []⟩) (h : Spaced ts us) (ht : ∀ t ∈ ts, G t) :
    ∀ u ∈ us, G u := by
  have key {us : List Tree} (h : List.Forall₂ Worded ts us) : ∀ u ∈ us, G u := by
    intro u hu
    obtain ⟨t, hmem, tokens, rfl⟩ := exists_of_mem_right h hu
    exact hG t tokens (ht t hmem)
  cases h with
  | plain h => exact key h
  | spacer h _ _ hp =>
    obtain ⟨hus, hvs⟩ := List.forall_mem_append.1 (key h)
    exact List.forall_mem_append.2 ⟨hus, List.forall_mem_cons.2 ⟨hs _ hp, hvs⟩⟩

theorem Settled.spaced {n n' : Node} {ts us as bs : List Tree} (h : Settled ⟨n, ts, as⟩) (hn : Settling n n')
    (hu : Spaced ts us) : Settled ⟨n', us, bs⟩ := by
  intro hp hne axis ha
  obtain ⟨c, hc, hfix⟩ := h (hn.page ▸ hp) (hu.ne_nil hne) axis ((hn.sizing axis).symm.trans ha)
  obtain ⟨c', hc', hw⟩ := hu.exists hc
  refine ⟨c', hc', ?_⟩
  rw [hw.sizing]
  exact hfix

/-- A finished owner has nothing left to settle. -/
theorem settled_finish (n : Node) (flow attached : List Tree) (j : Journal) :
    Settled ⟨(finish n flow j).1.1, (finish n flow j).1.2, attached⟩ :=
  (settled_settleAuto n flow []).spaced (spaced_finish n flow j).1 (spaced_finish n flow j).2

/-- A tree in which nothing is left to settle, under a root that is the page or not. -/
structure Steady (isPage : Bool) (t : Tree) : Prop where
  page : t.node.hasRole .page = isPage
  settled : t.Every Settled
  unpaged : t.Standing Unpaged

theorem Steady.worded {isPage : Bool} {t : Tree} (h : Steady isPage t) (tokens : List String) :
    Steady isPage (t.mapNode (·.pushAll tokens)) := by
  obtain ⟨n, flow, attached⟩ := t
  obtain ⟨hs, hm⟩ := every_iff.1 h.settled
  exact ⟨h.page, every_iff.2 ⟨hs.spaced (settling_pushAll _ _) (.plain (worded_refl _)), hm⟩, h.unpaged.rooted _⟩

theorem steady_leaf {n : Node} (h : n.hasRole .page = false) : Steady false ⟨n, [], []⟩ :=
  ⟨h, every_iff.2 ⟨settled_leaf n, by simp [Tree.members]⟩, standing_iff.2 ⟨by simp, by simp⟩⟩

theorem Steady.seated {t : Tree} (h : Steady false t) (l : Link) : Seated Unpaged l t := ⟨h.page, h.unpaged⟩

/-- An owner over steady members. -/
theorem Steady.owner {n : Node} {flow attached : List Tree} {isPage : Bool} (hp : n.hasRole .page = isPage)
    (hs : Settled ⟨n, flow, attached⟩) (hf : ∀ t ∈ flow, Steady false t) (ha : ∀ t ∈ attached, Steady false t) :
    Steady isPage ⟨n, flow, attached⟩ where
  page := hp
  settled := every_iff.2 ⟨hs, List.forall_mem_append.2 ⟨fun t ht => (hf t ht).settled, fun t ht => (ha t ht).settled⟩⟩
  unpaged := standing_iff.2 ⟨fun t ht => (hf t ht).seated _, fun t ht => (ha t ht).seated _⟩

/-- An owner is finished over steady children. -/
theorem steady_finish {n : Node} {flow : List Tree} {isPage : Bool} (hp : n.hasRole .page = isPage)
    (hf : ∀ t ∈ flow, Steady false t) (j : Journal) :
    (finish n flow j).1.1.hasRole .page = isPage ∧ ∀ t ∈ (finish n flow j).1.2, Steady false t := by
  obtain ⟨hn, hs⟩ := spaced_finish n flow j
  refine ⟨?_, hs.forall (fun t ts ht => ht.worded ts) (fun s hp => steady_leaf hp) hf⟩
  rw [hn.page, hasRole_settleAuto, hp]

theorem Touches.page {n n' : Node} (h : Touches n n') : n'.hasRole .page = n.hasRole .page := by
  induction h with
  | refl => rfl
  | tail _ h ih =>
    refine Eq.trans ?_ ih
    cases h with
    | sizing axis s => cases axis <;> rfl
    | button => exact hasRole_addMark _ rfl rfl
    | _ => rfl

theorem Fits.page {owner : Box} {n n' : Node} (h : Fits owner n n') : n'.hasRole .page = n.hasRole .page := by
  rcases h with h | ⟨axis, h⟩
  · exact Touches.page h
  · exact (Touches.page h).trans rfl

variable (o : Options)

theorem steady_resolveFlow {ts : List Tree} (ih : ∀ t ∈ ts, ∀ isPage, ∀ n : Node, n.hasRole .page = isPage →
      t.Standing Unpaged → ∀ j, Steady isPage (resolve o n t j).1) (ht : ∀ t ∈ ts, Seated Unpaged .flow t)
    {owner : Node} {ss : List Slot} (hs : List.Forall₂ (Slotting o owner) (ts.map node) ss) (j : Journal) :
    ∀ r ∈ (resolveFlow o ss ts j).1, Steady false r := by
  induction ts generalizing ss j with
  | nil =>
    cases hs
    rw [show resolveFlow o [] [] j = ([], j) from rfl]
    simp
  | cons t ts ihs =>
    obtain ⟨htt, hts⟩ := List.forall_mem_cons.1 ht
    have ihs := @ihs (fun u hu => ih u (List.mem_cons_of_mem _ hu)) hts
    have iht (n : Node) (hn : n.hasRole .page = false) (j : Journal) := ih t (by simp) false n hn htt.below j
    rw [List.map_cons] at hs
    obtain ⟨s, ss, hslot, hss, rfl⟩ := List.forall₂_cons_left_iff.1 hs
    cases hslot with
    | @bare n hn => exact List.forall_mem_cons.2 ⟨iht n (hn.page.trans htt.node) j, ihs hss _⟩
    | @wrapped n hn _ index box =>
      let w := overflowWrapper owner index box
      obtain ⟨n', hn', -, hslots⟩ := slots_wrapper o (wrapper_overflowWrapper owner index box) n j
      have hpage : n'.hasRole .page = false := (hn'.hasRole (by simp)).trans (hn.page.trans htt.node)
      have hw : w.hasRole .page = false := rfl
      rw [run_resolveFlow_wrapped hslots]
      dsimp only
      obtain ⟨hp, hf⟩ := steady_finish hw (List.forall_mem_singleton.2 (iht n' hpage j)) (resolve o n' t j).2
      exact List.forall_mem_cons.2 ⟨.owner hp (settled_finish _ _ _ _) hf (by simp), ihs hss _⟩

theorem steady_resolveAttached {ts : List Tree} (ih : ∀ t ∈ ts, ∀ isPage, ∀ n : Node, n.hasRole .page = isPage →
      t.Standing Unpaged → ∀ j, Steady isPage (resolve o n t j).1) (ht : ∀ t ∈ ts, Seated Unpaged .attached t)
    (owner : Box) (j : Journal) : ∀ r ∈ (resolveAttached o owner ts j).1, Steady false r := by
  let Steadying : Settlement := fun t n r => t ∈ ts → n.hasRole .page = false → Steady false r
  have hpinnings : List.Forall₂ (Pinning Steadying owner) ts (resolveAttached o owner ts j).1 :=
    pinnings_resolveAttached o owner (fun t ht' n j _ hn => ih t ht' false n hn (ht t ht').below j) j
  intro r hr
  obtain ⟨t, hmem, hp⟩ := exists_of_mem_right hpinnings hr
  cases hp with
  | chrome _ h => exact h hmem (ht t hmem).node
  | pinned _ h =>
    have hn := touches_pinPrepared owner t.node
    exact (h hmem ((Touches.page hn).trans (ht t hmem).node)).worded _

/-- Whatever is resolved is steady. -/
theorem steady_resolve (t : Tree) : ∀ isPage, ∀ n : Node, n.hasRole .page = isPage → t.Standing Unpaged →
    ∀ j, Steady isPage (resolve o n t j).1 := by
  induction t using induction_members with
  | _ t ih =>
    intro isPage n hn ht j
    obtain ⟨m, flow, attached⟩ := t
    rw [run_resolve]
    dsimp only
    have hf := steady_resolveFlow o (fun t ht => ih t (List.mem_append_left _ ht)) ht.flow
      (slotting_slots o n (flow.map node) j) (slots o n (flow.map node) j).2
    obtain ⟨hp, hfin⟩ := steady_finish hn hf (resolveFlow o (slots o n (flow.map node) j).1 flow
      (slots o n (flow.map node) j).2).2
    have hown (n : Node) : Settling n (containing n attached) := by
      unfold containing
      split <;> exact ⟨rfl, rfl, rfl⟩
    refine .owner ((hown _).page.trans hp) ?_ hfin
      (steady_resolveAttached o (fun t ht => ih t (List.mem_append_right _ ht)) ht.attached _ _)
    exact (settled_finish _ _ [] _).spaced (hown _) (.plain (worded_refl _))

end Resolve

namespace Tree

/-- Settles the node at the end of a path once more. -/
def settleAt (t : Tree) (path : List Step) : Tree :=
  match t.at? path with
  | some s => t.replaceAt (s.mapNode (Resolve.settleAuto · s.flow)) path
  | none => t

theorem setMember_self {t m : Tree} {s : Step} (h : t.member? s = some m) : t.setMember s m = t := by
  obtain ⟨n, flow, attached⟩ := t
  obtain ⟨link, i⟩ := s
  cases link
  · obtain ⟨hi, rfl⟩ := List.getElem?_eq_some_iff.1 h
    simp only [setMember, List.set_getElem_self]
  · obtain ⟨hi, rfl⟩ := List.getElem?_eq_some_iff.1 h
    simp only [setMember, List.set_getElem_self]

theorem replaceAt_self {t s : Tree} {path : List Step} (h : t.at? path = some s) : t.replaceAt s path = t := by
  induction path generalizing t with
  | nil => exact (Option.some.inj h).symm
  | cons a path ih =>
    obtain ⟨m, hm, h⟩ := at?_cons h
    rw [replaceAt, hm]
    dsimp only
    rw [ih h, setMember_self hm]

theorem mem_subtrees_of_at? {t s : Tree} {path : List Step} (h : t.at? path = some s) : s ∈ t.subtrees := by
  induction path generalizing t with
  | nil =>
    cases h
    exact self_mem_subtrees s
  | cons a path ih =>
    obtain ⟨m, hm, h⟩ := at?_cons h
    exact mem_subtrees.2 (.inr ⟨m, mem_of_member? hm, ih h⟩)

theorem settleAt_eq_self {t : Tree} (h : t.Every Resolve.Settled) (path : List Step) : t.settleAt path = t := by
  unfold settleAt
  split
  · next s hs =>
    obtain ⟨n, flow, attached⟩ := s
    rw [mapNode, Resolve.settleAuto_eq_self (h _ (mem_subtrees_of_at? hs))]
    exact replaceAt_self hs
  · rfl

end Tree

namespace Recovery

/-- Settling any nodes of a resolved tree once more, in any order and any number of times, changes nothing: below
the page no axis is left to follow content that is fixed along it. -/
theorem settled_throughout (o : Options) (d : Document) :
    (∀ paths : List (List Step), paths.foldl settleAt (resolved o d).1 = (resolved o d).1) ∧
    ∀ u ∈ (resolved o d).1.subtrees, ∀ s ∈ u.members, s.flow ≠ [] → ∀ axis, s.node.sizing axis = some .auto →
      ∃ c ∈ s.flow, c.node.sizing axis ≠ some .fixed := by
  have h : Resolve.Steady _ (resolved o d).1 :=
    Resolve.steady_resolve o _ _ (regrouped o d).1.node rfl (unpaged_regrouped o d) (regrouped o d).2
  refine ⟨fun paths => ?_, fun u hu s hs => ?_⟩
  · induction paths with
    | nil => rfl
    | cons path paths ih =>
      rw [List.foldl_cons, settleAt_eq_self h.settled]
      exact ih
  · obtain ⟨hf, ha⟩ := h.unpaged u hu
    exact h.settled s (mem_subtrees_of_mem_members hs hu) ((List.mem_append.1 hs).elim (hf s) (ha s))

end Recovery

end FlexRecovery
