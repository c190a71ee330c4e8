import FlexRecovery.Proofs.Touches
import FlexRecovery.Proofs.Walking

/-!
The walk that resolves a tree, with what every node gets on the way: a child is settled by its owner and touched
until it is finished itself, and what is attached is pinned to the box of its owner.
-/

namespace FlexRecovery.Resolve

open Node Tree

/-- A child as its owner settles it; some are first given the span of the owner along an axis. -/
def Fits (owner : Box) (n n' : Node) : Prop :=
  Touches n n' ∨ ∃ axis, Touches { n with box := n.box.withSpan axis (owner.start axis) (owner.stop axis) } n'

theorem Fits.touch {owner : Box} {n n' n'' : Node} (h : Fits owner n n') (h' : Touches n' n'') : Fits owner n n'' := by
  rcases h with h | ⟨axis, h⟩
  · exact .inl (h.trans h')
  · exact .inr ⟨axis, h.trans h'⟩

/-- A child and its slot. Wrappers are made if overflow is to be bounded. -/
inductive Slotting (o : Options) (owner : Node) : Node → Slot → Prop where
  | bare {n n'} (h : Fits owner.box n n') : Slotting o owner n ⟨n', none⟩
  | wrapped {n n'} (h : Fits owner.box n n') (hb : o.boundOverflow = true) (index box) :
      Slotting o owner n ⟨n', some (overflowWrapper owner index box)⟩

variable {o : Options} {owner : Node}

theorem Slotting.fits {n : Node} {s : Slot} (h : Slotting o owner n s) : Fits owner.box n s.node := by
  cases h with
  | bare h => exact h
  | wrapped h => exact h

theorem touches_setSizing (n : Node) (axis : Axis) (s : Sizing) : Touches n (n.setSizing axis s) :=
  .single (.sizing n axis s)

theorem touches_push (n : Node) {t : String} (h : Opens (stems ++ fittings) t) : Touches n (n.push t) :=
  .single (.word n h)

theorem fits_sized (o : Options) (owner : Node) (x : Axis) (n : Node) : Fits owner.box n (sized o owner x n) := by
  have fill (n : Node) (axis : Axis) : Touches n (fillSizing n axis) := by
    unfold fillSizing
    split
    · exact .refl
    · exact touches_setSizing n _ _
  have hdefinite (n : Node) : Touches n (definite owner n) := by
    unfold definite
    split
    · exact touches_setSizing n .row .fixed
    · exact .refl
  have hstretched (n : Node) : Touches n (stretched owner x.cross n) := by
    unfold stretched
    split
    · exact touches_setSizing n _ _
    · exact .refl
  have hwidened : Fits owner.box n (widened owner.box x.cross n) := by
    unfold widened
    split
    · exact .inr ⟨x.cross, touches_setSizing _ _ _⟩
    · exact .inl .refl
  unfold sized
  split
  · exact .inl ((touches_setSizing n .row .fixed).trans (touches_setSizing _ .column .fixed))
  · exact hwidened.touch ((((fill _ .row).trans (fill _ .column)).trans (hdefinite _)).trans (hstretched _))

section slots

theorem touches_scrolling (o : Options) (n : Node) : Touches n (scrolling o n) := by
  have hx : Opens (stems ++ fittings) "overflow-x-auto" := by decide
  have hy : Opens (stems ++ fittings) "overflow-y-auto" := by decide
  unfold scrolling
  split
  · exact .refl
  · split
    · exact touches_push n hx
    · split
      · exact touches_push n hy
      · exact .refl

theorem touches_clamped (o : Options) (n : Node) : Touches n (clamped o n) := by
  have hc : Opens (stems ++ fittings) "line-clamp-" := by decide
  unfold clamped
  split
  · split
    · exact touches_push n (hc.append _)
    · exact .refl
  · exact .refl

/-- What becomes of a text with more or less space than it takes. -/
theorem slotting_bounded (ho : o.boundOverflow = true) (direction : Axis) {n n' : Node} (hn : Fits owner.box n n')
    (next : Option Node) (j : Journal) : Slotting o owner n (bounded owner direction n' next j).1 := by
  have hfull : Opens (stems ++ fittings) "max-w-full" := by decide
  have hbound (v : Int) := (isWord_maxWidth v).mono (List.subset_append_left stems fittings)
  unfold bounded
  split
  · exact .bare hn
  · split
    · exact .bare (hn.touch (touches_push n' (hbound _)))
    · split
      · exact .bare (hn.touch (touches_push n' (hbound _)))
      · exact .wrapped (hn.touch (touches_push n' hfull)) ho _ _

theorem slotting_slot (o : Options) (owner : Node) (direction : Axis) {n n' : Node} (hn : Fits owner.box n n')
    (next : Option Node) (j : Journal) : Slotting o owner n (slot o owner direction n' next j).1 := by
  have htruncate : Opens (stems ++ fittings) "truncate" := by decide
  have hn := hn.touch (touches_scrolling o n')
  unfold slot
  split
  · exact .bare (hn.touch (touches_clamped o _))
  · split
    · exact .bare hn
    · split
      · exact .bare (hn.touch (touches_push _ htruncate))
      · next hb =>
        rw [Bool.or_eq_true, not_or] at hb
        exact slotting_bounded (by simpa using hb.1) direction (hn.touch (touches_push _ htruncate)) next j

theorem slotting_slotsFrom (o : Options) (owner : Node) (direction : Axis) {ns ns' : List Node}
    (h : List.Forall₂ (Fits owner.box) ns ns') (j : Journal) :
    List.Forall₂ (Slotting o owner) ns (slotsFrom o owner direction ns' j).1 := by
  induction h generalizing j with
  | nil => exact .nil
  | cons hn _ ih => exact .cons (slotting_slot o owner direction hn _ j) (ih _)

theorem slotting_slots (o : Options) (owner : Node) (ns : List Node) (j : Journal) :
    List.Forall₂ (Slotting o owner) ns (slots o owner ns j).1 := by
  unfold slots
  cases owner.direction with
  | none => exact List.forall₂_map_right_iff.2 (List.forall₂_same.2 fun n _ => .bare (.inl .refl))
  | some direction =>
    exact slotting_slotsFrom o owner direction
      (List.forall₂_map_right_iff.2 (List.forall₂_same.2 fun n _ => fits_sized o owner direction n)) j

end slots

/-- A tree that is to be resolved, the node that it has then, and what it is resolved to. -/
abbrev Settlement := Tree → Node → Tree → Prop

variable {P : Settlement}

/-- A flow child and what it is resolved to; a text that overflows is settled once more in its wrapper. -/
inductive Seat (P : Settlement) (o : Options) (owner : Node) : Tree → Tree → Prop where
  | bare {t n r} (hn : Fits owner.box t.node n) (h : P t n r) : Seat P o owner t r
  | wrapped {t n n' r w us} (ho : o.boundOverflow = true) (hn : Fits owner.box t.node n) (index box)
      (hn' : Fits (overflowWrapper owner index box).box n n') (h : P t n' r)
      (hw : Touches (overflowWrapper owner index box) w) (hl : Laid box [r] us) : Seat P o owner t ⟨w, us, []⟩

/-- An attached tree and what it is resolved to. -/
inductive Pinning (P : Settlement) (owner : Box) : Tree → Tree → Prop where
  | chrome {t r} (hc : t.node.roles.isChrome = true) (h : P t t.node r) : Pinning P owner t r
  | pinned {t r} (hc : t.node.roles.isChrome = false) (h : P t (pinPrepared owner t.node) r) :
      Pinning P owner t (r.mapNode (Resolve.pinned owner))

theorem seats_resolveFlow (o : Options) (owner : Node) {ts : List Tree}
    (ih : ∀ t ∈ ts, ∀ n, ∀ j : Journal, P t n (resolve o n t j).1) {ss : List Slot}
    (hs : List.Forall₂ (Slotting o owner) (ts.map node) ss) (j : Journal) :
    List.Forall₂ (Seat P o owner) ts (resolveFlow o ss ts j).1 := by
  induction ts generalizing ss j with
  | nil =>
    cases hs
    rw [show resolveFlow o [] [] j = ([], j) from rfl]
    exact .nil
  | cons t ts ihs =>
    have ihs := @ihs fun u hu => ih u (List.mem_cons_of_mem _ hu)
    have iht := ih t List.mem_cons_self
    rw [List.map_cons] at hs
    obtain ⟨s, ss, hslot, hss, rfl⟩ := List.forall₂_cons_left_iff.1 hs
    cases hslot with
    | @bare n' hn => exact .cons (.bare hn (iht n' j)) (ihs hss (resolve o n' t j).2)
    | @wrapped n' hn ho index box =>
      let w := overflowWrapper owner index box
      obtain ⟨s, _, hs, hnil, hinner⟩ := List.forall₂_cons_left_iff.1 (slotting_slots o w [n'] j)
      obtain rfl := List.forall₂_nil_left_iff.1 hnil
      have hslots : slots o w [n'] j = ([s], (slots o w [n'] j).2) := Prod.ext hinner rfl
      have hrun : resolveFlow o (⟨n', some w⟩ :: ss) (t :: ts) j =
          (slots o w [n'] >>= fun inner => resolve o (inner.head?.elim n' (·.node)) t >>= fun c =>
            finish w [c] >>= fun f => resolveFlow o ss ts >>= fun rs => pure (⟨f.1, f.2, []⟩ :: rs)) j := by
        rw [resolveFlow]
        rfl
      rw [hrun, Journaled.run_bind, hslots]
      obtain ⟨hw, hl⟩ := laid_finish w [(resolve o s.node t (slots o w [n'] j).2).1]
        (resolve o s.node t (slots o w [n'] j).2).2
      exact .cons (.wrapped ho hn index box hs.fits (iht s.node _) hw hl) (ihs hss _)

theorem touches_pinPrepared (owner : Box) (n : Node) : Touches n (pinPrepared owner n) := by
  have fill (n : Node) (axis : Axis) : Touches n (fillPinned owner n axis) := by
    unfold fillPinned
    split
    · exact .refl
    · exact touches_setSizing n _ _
  exact (fill n .row).trans (fill _ .column)

theorem pinnings_resolveAttached (o : Options) (owner : Box) {ts : List Tree}
    (ih : ∀ t ∈ ts, ∀ n, ∀ j : Journal, P t n (resolve o n t j).1) (j : Journal) :
    List.Forall₂ (Pinning P owner) ts (resolveAttached o owner ts j).1 := by
  induction ts generalizing j with
  | nil =>
    rw [show resolveAttached o owner [] j = ([], j) from rfl]
    exact .nil
  | cons t ts ihs =>
    have ihs := @ihs fun u hu => ih u (List.mem_cons_of_mem _ hu)
    have iht := ih t List.mem_cons_self
    cases h : t.node.roles.isChrome with
    | true =>
      have hrun : resolveAttached o owner (t :: ts) j =
          (resolve o t.node t >>= fun r => resolveAttached o owner ts >>= fun rs => pure (r :: rs)) j := by
        rw [resolveAttached, if_pos h]
      rw [hrun]
      exact .cons (.chrome h (iht t.node j)) (ihs _)
    | false =>
      have hrun : resolveAttached o owner (t :: ts) j =
          (resolve o (pinPrepared owner t.node) t >>= fun r =>
            resolveAttached o owner ts >>= fun rs => pure (r.mapNode (Resolve.pinned owner) :: rs)) j := by
        rw [resolveAttached, if_neg (by simp [h])]
        rfl
      rw [hrun]
      exact .cons (.pinned h (iht _ j)) (ihs _)

theorem box_containing (n : Node) (attached : List Tree) : (containing n attached).box = n.box := by
  unfold containing
  split <;> rfl

/-- What follows for an owner from its members holds of whatever is resolved. -/
theorem settle_induction (o : Options)
    (owner : ∀ {t n fs n' us rs}, List.Forall₂ (Seat P o n) t.flow fs → Touches n n' → Told n n' →
      Laid n.box fs us → List.Forall₂ (Pinning P n.box) t.attached rs →
      P t n ⟨containing n' t.attached, us, rs⟩) (t : Tree) :
    ∀ n, ∀ j : Journal, P t n (resolve o n t j).1 := by
  induction t using induction_members with
  | _ t ih =>
    intro n j
    obtain ⟨m, flow, attached⟩ := t
    have hf := seats_resolveFlow o n (fun t ht => ih t (List.mem_append_left _ ht))
      (slotting_slots o n (flow.map node) j) (slots o n (flow.map node) j).2
    rw [run_resolve]
    dsimp only
    obtain ⟨hn, hl⟩ := laid_finish n (resolveFlow o (slots o n (flow.map node) j).1 flow
      (slots o n (flow.map node) j).2).1 (resolveFlow o (slots o n (flow.map node) j).1 flow
      (slots o n (flow.map node) j).2).2
    refine owner hf hn (told_finish _ _ _) hl ?_
    rw [box_containing, Touches.box hn]
    exact pinnings_resolveAttached o n.box (fun t ht => ih t (List.mem_append_right _ ht)) _

end FlexRecovery.Resolve
