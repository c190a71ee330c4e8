import FlexRecovery.Proofs.Flexbox.Anchored
import FlexRecovery.Proofs.Positions

/-!
Where things are placed on their owners. Before a tree is resolved only chrome is told where it lies, and an owner is
never told while it is resolved, so what is pinned in the end says nothing but its pins.
-/

namespace FlexRecovery

open Flexbox Node

/-- An owner is not told where it lies. -/
theorem Resolve.not_opens_pin {t : String} (h : Opens ownerStems t) : ¬Opens pinStems t :=
  (by decide : Apart ownerStems pinStems).not_opens h

namespace Node

theorem Loose.of_eq {n n' : Node} (h : n.Loose) (hc : n'.classes = n.classes) : n'.Loose := by
  rw [Loose, hc]
  exact h

theorem Loose.pushAll {n : Node} (h : n.Loose) {ts : List String} (ht : ∀ t ∈ ts, ¬Opens Resolve.pinStems t) :
    (n.pushAll ts).Loose := fun t hm => (Classes.mem_pushAll.1 hm).elim (h t) fun hm => ht t hm.1

theorem Loose.push {n : Node} (h : n.Loose) {t : String} (ht : ¬Opens Resolve.pinStems t) : (n.push t).Loose :=
  h.pushAll (List.forall_mem_singleton.2 ht)

/-- What is asked of members before they are placed: only chrome is told where it lies, and flow children are not
chrome. -/
structure Unpinned (l : Tree.Link) (n : Node) : Prop where
  loose : n.roles.isChrome = false → n.Loose
  chrome : l = .flow → n.roles.isChrome = false

end Node

/-! ### Before a tree is resolved -/

namespace Draft

open Journaled

theorem chrome_chrome (cv : Canvas) (t : LayerTraits) (box : Box) (opacity : Float32) :
    Gives (fun n => n.roles.isChrome = true) (chrome cv t box opacity) := by
  refine .bind (P := fun _ => True) (fun _ => trivial) fun n _ => gives_pure ?_
  refine (isChrome_addRole n _).trans (Bool.or_eq_true_iff.2 (.inr ?_))
  split <;> rfl

theorem Plain.loose {n : Node} (h : Plain n) : n.Loose := fun t ht =>
  (by decide +kernel : Apart drawnStems Resolve.pinStems).not_opens (h.drawn t ht)

theorem drawing_unpinned : Drawing Unpinned where
  node := by
    intro cv onPage t box opacity
    have hplain {x : Journaled Node} (h : Gives Plain x) :
        Gives (fun n => Unpinned .attached n ∧ (isChrome onPage t = false → Unpinned .flow n)) x :=
      fun j => ⟨⟨fun _ => (h j).loose, by simp⟩, fun _ => ⟨fun _ => (h j).loose, fun _ => (h j).chrome⟩⟩
    unfold Draft.node
    split
    · next hc =>
      intro j
      have chrome := chrome_chrome cv t box opacity j
      exact ⟨⟨fun h => by simp [chrome] at h, by simp⟩, fun h => by simp [hc] at h⟩
    · split
      · exact hplain (plain_text t _ box opacity)
      · exact hplain (plain_image t box opacity)
      · exact hplain (plain_slice t box opacity)
      · exact hplain (plain_styled t .view box opacity)
  marked := fun _ _ _ hm h =>
    ⟨fun hc => (h.loose (hm.chrome.symm.trans hc)).of_eq hm.classes, fun hl => hm.chrome.trans (h.chrome hl)⟩

end Draft

namespace Stacking

theorem not_opens_level (l : Nat) : ¬Opens Resolve.pinStems (level l) :=
  (by decide : Apart ["z-["] Resolve.pinStems).not_opens (((by decide : Opens ["z-["] "z-[").append _).append _)

theorem stackable_unpinned : Stackable Unpinned where
  numbered := by
    intro n l hn
    rcases numbered_or n l with e | e <;> rw [e]
    · exact hn
    · exact ⟨fun hc => ((hn.loose hc).push (not_opens_level l)).push (by decide), hn.chrome⟩
  owning := by
    intro l n flow hn
    rcases owning_or n flow with e | e <;> rw [e]
    · exact hn
    · exact ⟨fun hc => (hn.loose hc).push (not_opens_level _), hn.chrome⟩

end Stacking

namespace Regroup

/-- Folding adds no token that neither node has. -/
theorem mem_absorb_or {lower upper : Node} {t : String} (h : t ∈ (lower.absorb upper).classes.toList) :
    t ∈ lower.classes.toList ∨ t ∈ upper.classes.toList := by
  have kept (ps : List String) (cs : Classes) (ht : t ∈ (ps.foldl Classes.erasePrefix cs).toList) : t ∈ cs.toList := by
    induction ps generalizing cs with
    | nil => exact ht
    | cons p ps ih => exact List.mem_of_mem_filter (ih _ ht)
  unfold absorb at h
  refine (Classes.mem_pushAll.1 h).imp (fun h => ?_) And.left
  split at h
  · exact kept _ _ h
  · exact h

theorem loose_container {roles : List Role} {n : Node} {k : Nat} (h : Container roles n k) : n.Loose :=
  fun t ht => Resolve.not_opens_pin (opens_container h t ht)

theorem robust_unpinned : Robust Unpinned where
  reads := fun _ _ _ _ hc hr _ h => ⟨fun hn => (h.loose (hr.symm.trans hn)).of_eq hc, fun hl => hr.trans (h.chrome hl)⟩
  absorb := by
    intro l lower upper h h'
    have hupper := h'.chrome rfl
    have hchrome : (lower.absorb upper).roles.isChrome = lower.roles.isChrome := by
      rw [isChrome_absorb, hupper, Bool.or_false]
    refine ⟨fun hc t ht => ?_, fun hl => hchrome.trans (h.chrome hl)⟩
    exact (mem_absorb_or ht).elim (h.loose (hchrome.symm.trans hc) t) (h'.loose hupper t)
  promoted := by
    intro l n h
    have htokens : ∀ t ∈ ["bg-cover", "bg-no-repeat"], ¬Opens Resolve.pinStems t := by decide
    have hchrome : n.promoted.roles.isChrome = n.roles.isChrome := congrArg Roles.isChrome (roles_promoted n)
    refine ⟨fun hc => ?_, fun hl => hchrome.trans (h.chrome hl)⟩
    have hn := h.loose (hchrome.symm.trans hc)
    unfold Node.promoted
    split
    · exact hn.of_eq rfl
    · exact (hn.pushAll htokens).of_eq rfl
  leaves := fun n h => ⟨h.loose, by simp⟩
  container := fun _ _ _ h _ _ _ => ⟨fun _ => loose_container h, fun _ => h.chrome⟩

end Regroup

theorem Recovery.unpinned_regrouped (o : Options) (d : Document) : (regrouped o d).1.Standing Unpinned :=
  (standing_regrouped Regroup.robust_unpinned
    (standing_cleaned o (fun _ => Stacking.stackable_unpinned) (Draft.drawing_unpinned.ofPage o d {}))).1

/-! ### While it is resolved -/

/-- What is placed on a node is put back where it was. Chrome is placed elsewhere. -/
def Tree.Anchored (t : Tree) : Prop :=
  ∀ m ∈ t.attached, m.node.roles.isChrome = false →
    ∀ axis, Restores axis t.box m.box m.node.classes.toList (m.node.sizing axis)

namespace Resolve

theorem Touches.isSized {n n' : Node} (h : Touches n n') (hn : n.IsSized) : n'.IsSized := by
  induction h with
  | refl => exact hn
  | tail _ h ih =>
    cases h with
    | sizing axis s =>
      cases axis
      · exact ⟨rfl, ih.2⟩
      · exact ⟨ih.1, rfl⟩
    | _ => exact ih

theorem classes_pinPrepared (owner : Box) (n : Node) : (pinPrepared owner n).classes = n.classes := by
  have fill (n : Node) (axis : Axis) : (fillPinned owner n axis).classes = n.classes := by
    unfold fillPinned
    split
    · rfl
    · cases axis <;> rfl
  exact (fill _ .column).trans (fill n .row)

theorem loose_containing {n n' : Node} (h : n.Loose) (ht : Told n n') (attached : List Tree) :
    (containing n' attached).Loose := by
  have hn : n'.Loose := fun t hm => (ht t hm).elim (h t) not_opens_pin
  unfold containing
  split
  · exact hn.push (by decide)
  · exact hn

/-- What a tree without pins is resolved to. -/
structure Anchors (n : Node) (r : Tree) : Prop where
  chrome : r.node.roles.isChrome = n.roles.isChrome
  loose : n.Loose → r.node.Loose
  sized : n.IsSized → r.node.IsSized
  below : r.Every Tree.Anchored

/-- Another node with the same box in place of the root. -/
theorem anchored_rooted {t : Tree} (h : t.Every Tree.Anchored) {n : Node} (hb : n.box = t.box) :
    Tree.Every Tree.Anchored ⟨n, t.flow, t.attached⟩ := by
  obtain ⟨ht, hms⟩ := Tree.every_iff.1 h
  refine Tree.every_iff.2 ⟨?_, hms⟩
  rw [Tree.Anchored, show Tree.box ⟨n, t.flow, t.attached⟩ = t.box from hb]
  exact ht

theorem anchored_laid {owner : Box} {ts us : List Tree} (h : Laid owner ts us) (ht : ∀ t ∈ ts, t.Every Tree.Anchored) :
    ∀ u ∈ us, u.Every Tree.Anchored := by
  refine h.forall (fun t u hr ht => ?_) (fun _ _ _ s _ _ hs => ?_) ht
  · obtain ⟨n, hn, rfl⟩ := hr
    exact anchored_rooted ht hn.box
  · obtain ⟨-, index, n, -, rfl⟩ := hs
    exact Tree.every_iff.2 ⟨by simp [Tree.Anchored], by simp [Tree.members]⟩

def Anchoring : Settlement := fun t n r => t.Standing Unpinned → Anchors n r

theorem anchored_seat {o : Options} {owner : Node} {t r : Tree} (h : Seat Anchoring o owner t r)
    (ht : t.Standing Unpinned) : r.Every Tree.Anchored := by
  cases h with
  | bare hn h => exact (h ht).below
  | wrapped ho hn index box hn' h hw hl =>
    have hus := anchored_laid hl (List.forall_mem_singleton.2 (h ht).below)
    exact Tree.every_iff.2 ⟨by simp [Tree.Anchored], by simpa [Tree.members] using hus⟩

theorem anchored_pinning {owner : Box} {t r : Tree} (h : Pinning Anchoring owner t r)
    (ht : Tree.Seated Unpinned .attached t) : r.Every Tree.Anchored ∧ (r.node.roles.isChrome = false →
      ∀ axis, Restores axis owner r.box r.node.classes.toList (r.node.sizing axis)) := by
  cases h with
  | chrome hc h =>
    have hr := h ht.below
    exact ⟨hr.below, fun hn => by simp [hr.chrome, hc] at hn⟩
  | @pinned r hc h =>
    have hr := h ht.below
    have loose := hr.loose ((ht.node.loose hc).of_eq (classes_pinPrepared owner t.node))
    have sized := hr.sized (isSized_pinPrepared owner t.node)
    refine ⟨anchored_rooted hr.below rfl, fun _ axis => ?_⟩
    cases axis with
    | row => exact restores_pinned .row loose sized.1
    | column => exact restores_pinned .column loose sized.2

theorem anchoring_resolve (o : Options) (t : Tree) (n : Node) (j : Journal) : Anchoring t n (resolve o n t j).1 := by
  refine settle_induction o (fun {t n fs n' us rs} hf hn hown hl ha ht => ?_) t n j
  have hbox : (containing n' t.attached).box = n.box := (box_containing _ _).trans hn.box
  have hattached : ∀ r ∈ rs, r.Every Tree.Anchored ∧ (r.node.roles.isChrome = false →
      ∀ axis, Restores axis n.box r.box r.node.classes.toList (r.node.sizing axis)) := by
    intro r hr
    obtain ⟨m, hm, hp⟩ := exists_of_mem_right ha hr
    exact anchored_pinning hp (ht.attached m hm)
  have hflow : ∀ u ∈ us, u.Every Tree.Anchored := by
    refine anchored_laid hl fun r hr => ?_
    obtain ⟨m, hm, hs⟩ := exists_of_mem_right hf hr
    exact anchored_seat hs (ht.flow m hm).below
  refine ⟨?_, fun h => loose_containing h hown _, fun h => ?_, Tree.every_iff.2 ⟨fun r hr => ?_, fun u hu => ?_⟩⟩
  · rw [← hn.chrome]
    unfold containing
    split <;> rfl
  · have hsized := Touches.isSized hn h
    unfold containing
    split <;> exact hsized
  · rw [show Tree.box ⟨containing n' t.attached, us, rs⟩ = n.box from hbox]
    exact (hattached r hr).2
  · exact (List.mem_append.1 hu).elim (hflow u) fun hr => (hattached u hr).1

end Resolve

namespace Recovery

/-- Whatever is placed on its owner in a resolved tree is put back there: read against the box of the owner, its tokens
give both edges of a constrained node, the place and the extent of a fixed one up to the tolerance, and of one that
follows its content the edge that is nearer to its owner's. -/
theorem anchored_throughout (o : Options) (d : Document) : (resolved o d).1.Every Tree.Anchored :=
  (Resolve.anchoring_resolve o _ _ _ (unpinned_regrouped o d)).below

theorem anchored_throughout_card :
    let t := (resolved { detached := ["a", "b"] } badgeOnCard).1
    t.subtrees.any (fun s => s.attached.any fun m => !m.node.roles.isChrome) = true ∧ t.Every Tree.Anchored :=
  ⟨by decide +kernel, anchored_throughout _ _⟩

end Recovery

end FlexRecovery
