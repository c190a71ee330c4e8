import FlexRecovery.Proofs.Finishing

/-!
The walk that resolves a tree, one owner at a time: its children get their slots, are resolved and finished with
it, and what is placed on it comes last. Whatever follows for an owner from its members holds of every tree that
is resolved.
-/

namespace FlexRecovery.Resolve

open Node Tree

/-- A tree with that node in place of its own, and a tree that it may be resolved to, with the number of nodes
that are created before and after. -/
abbrev Becoming := Tree → Node → Nat → Tree → Nat → Prop

variable {P : Becoming}

/-- The children in their slots, resolved one after the other. A text in a wrapper is settled once more. -/
inductive FlowBy (P : Becoming) : List Tree → List Slot → Nat → List Tree → Nat → Prop where
  | nil (c) : FlowBy P [] [] c [] c
  | bare {t n c r c'} (h : P t n c r c') {ts ss rs c''} (hs : FlowBy P ts ss c' rs c'') :
      FlowBy P (t :: ts) (⟨n, none⟩ :: ss) c (r :: rs) c''
  | wrapped {w n n'} (hn : Styled w.direction n n') (hz : n'.IsSized) {t c r c1} (h : P t n' c r c1) {w'}
      (hw : Styled none w w') {us c2} (hd : Dressed [r] c1 us c2) {ts ss rs c'} (hs : FlowBy P ts ss c2 rs c') :
      FlowBy P (t :: ts) (⟨n, some w⟩ :: ss) c (⟨w', us, []⟩ :: rs) c'

/-- What is placed on an owner. Chrome keeps the sizes that it has. -/
inductive AttachedBy (P : Becoming) : List Tree → Nat → List Tree → Nat → Prop where
  | nil (c) : AttachedBy P [] c [] c
  | member {t n} (hn : t.node.Styled none n) (hz : t.node.roles.isChrome = true ∨ n.IsSized) {c r c'}
      (h : P t n c r c') {u} (hu : Restyled r u) {ts rs c''} (hs : AttachedBy P ts c' rs c'') :
      AttachedBy P (t :: ts) c (u :: rs) c''

/-- An owner, when its members become what `P` says. -/
inductive OwnerBy (P : Becoming) : Becoming where
  | mk {t n ss fs n' us rs c c1 c2 c3 c4} (hs : Slotted n.direction (t.flow.map node) c ss c1)
      (hf : FlowBy P t.flow ss c1 fs c2) (hn : Styled none n n') (hd : Dressed fs c2 us c3)
      (ha : AttachedBy P t.attached c3 rs c4) : OwnerBy P t n c ⟨n', us, rs⟩ c4

theorem run_resolve (o : Options) (n m : Node) (flow attached : List Tree) (j : Journal) :
    resolve o n ⟨m, flow, attached⟩ j =
      let ss := slots o n (flow.map node) j
      let rs := resolveFlow o ss.1 flow ss.2
      let f := finish n rs.1 rs.2
      let n' := containing f.1.1 attached
      let ps := resolveAttached o n'.box attached f.2
      (⟨n', f.1.2, ps.1⟩, ps.2) := by
  rw [resolve]
  rfl

theorem run_resolveFlow_wrapped {o : Options} {n n' w : Node} {j : Journal}
    (h : slots o w [n] j = ([{ node := n' }], j)) (ss : List Slot) (t : Tree) (ts : List Tree) :
    resolveFlow o (⟨n, some w⟩ :: ss) (t :: ts) j =
      let f := finish w [(resolve o n' t j).1] (resolve o n' t j).2
      let rs := resolveFlow o ss ts f.2
      (⟨f.1.1, f.1.2, []⟩ :: rs.1, rs.2) := by
  have hr : resolveFlow o (⟨n, some w⟩ :: ss) (t :: ts) j =
      (slots o w [n] >>= fun inner => resolve o (inner.head?.elim n (·.node)) t >>= fun c =>
        finish w [c] >>= fun f => resolveFlow o ss ts >>= fun rs => pure (⟨f.1, f.2, []⟩ :: rs)) j := by
    rw [resolveFlow]
    rfl
  rw [hr, Journaled.run_bind, h]
  rfl

theorem flowBy_resolveFlow (o : Options) {ts : List Tree}
    (ih : ∀ t ∈ ts, ∀ n, ∀ j : Journal, P t n j.created (resolve o n t j).1 (resolve o n t j).2.created)
    {d : Option Axis} {c c' : Nat} {ss : List Slot} (hs : Slotted d (ts.map node) c ss c') (j : Journal) :
    FlowBy P ts ss j.created (resolveFlow o ss ts j).1 (resolveFlow o ss ts j).2.created := by
  induction ts generalizing c ss j with
  | nil =>
    cases hs
    rw [show resolveFlow o [] [] j = ([], j) from rfl]
    exact .nil _
  | cons t ts ihs =>
    have ihs := @ihs fun u hu => ih u (List.mem_cons_of_mem _ hu)
    cases hs with
    | @bare _ n' _ _ _ _ ss _ h => exact .bare (ih t (by simp) n' j) (ihs h (resolve o n' t j).2)
    | @wrapped _ n' _ _ w _ hw _ ss _ h =>
      obtain ⟨n'', hn, hz, hslot⟩ := slots_wrapper o hw n' j
      obtain ⟨hw', hd⟩ := dressed_finish w [(resolve o n'' t j).1] (resolve o n'' t j).2
      rw [run_resolveFlow_wrapped hslot]
      exact .wrapped hn hz (ih t (by simp) n'' j) hw' hd
        (ihs h (finish w [(resolve o n'' t j).1] (resolve o n'' t j).2).2)

theorem attachedBy_resolveAttached (o : Options) {ts : List Tree}
    (ih : ∀ t ∈ ts, ∀ n, ∀ j : Journal, P t n j.created (resolve o n t j).1 (resolve o n t j).2.created) (owner : Box)
    (j : Journal) :
    AttachedBy P ts j.created (resolveAttached o owner ts j).1 (resolveAttached o owner ts j).2.created := by
  induction ts generalizing j with
  | nil =>
    rw [show resolveAttached o owner [] j = ([], j) from rfl]
    exact .nil _
  | cons t ts ihs =>
    have ihs := @ihs fun u hu => ih u (List.mem_cons_of_mem _ hu)
    by_cases h : t.node.roles.isChrome = true
    · have hrun : resolveAttached o owner (t :: ts) j =
          (resolve o t.node t >>= fun r => resolveAttached o owner ts >>= fun rs => pure (r :: rs)) j := by
        rw [resolveAttached, if_pos h]
      rw [hrun]
      exact .member (.refl _) (.inl h) (ih t (by simp) t.node j) (.refl _) (ihs (resolve o t.node t j).2)
    · have hrun : resolveAttached o owner (t :: ts) j =
          (resolve o (pinPrepared owner t.node) t >>= fun r =>
            resolveAttached o owner ts >>= fun rs => pure (r.mapNode (pinned owner) :: rs)) j := by
        rw [resolveAttached, if_neg h]
        rfl
      rw [hrun]
      exact .member (styled_pinPrepared owner t.node) (.inr (isSized_pinPrepared owner t.node))
        (ih t (by simp) _ j) (restyled_mapNode (styled_pinned owner) _)
        (ihs (resolve o (pinPrepared owner t.node) t j).2)

/-- What follows for an owner from its members holds of whatever is resolved. -/
theorem resolve_induction (o : Options) (owner : ∀ {t n c r c'}, OwnerBy P t n c r c' → P t n c r c') (t : Tree) :
    ∀ n, ∀ j : Journal, P t n j.created (resolve o n t j).1 (resolve o n t j).2.created := by
  induction t using induction_members with
  | _ t ih =>
    intro n j
    obtain ⟨m, flow, attached⟩ := t
    have hs := slotted_slots o n (flow.map node) j
    have hf := flowBy_resolveFlow o (fun t ht => ih t (List.mem_append_left _ ht)) hs (slots o n (flow.map node) j).2
    rw [run_resolve]
    dsimp only at hf ⊢
    obtain ⟨hn, hd⟩ := dressed_finish n (resolveFlow o (slots o n (flow.map node) j).1 flow
      (slots o n (flow.map node) j).2).1 (resolveFlow o (slots o n (flow.map node) j).1 flow
      (slots o n (flow.map node) j).2).2
    exact owner (.mk hs hf (hn.trans (styled_containing _ attached)) hd
      (attachedBy_resolveAttached o (fun t ht => ih t (List.mem_append_right _ ht)) _ _))

end FlexRecovery.Resolve
