import FlexRecovery.Proofs.Stages

/-!
Resolving puts spacers and wrappers into a tree and changes its shape in no other way: without them every node
stands where it stood, settled, and in the same box unless it is a container across its owner's direction.
-/

namespace FlexRecovery

open Node

namespace Tree

mutual

/-- The tree without its spacers, and with a text in the place of each wrapper. -/
def stripped : Tree → Tree
  | ⟨n, flow, attached⟩ => ⟨n, strippedAll flow, strippedAll attached⟩

def strippedAll : List Tree → List Tree
  | [] => []
  | t :: ts => spliced t ++ strippedAll ts

/-- What stands in the place of a member. -/
def spliced : Tree → List Tree
  | ⟨n, flow, attached⟩ =>
    if n.hasRole .spacer && flow.isEmpty && attached.isEmpty then []
    else if n.hasRole .overflow && flow.length == 1 && attached.isEmpty then strippedAll flow
    else [⟨n, strippedAll flow, strippedAll attached⟩]

end

mutual

/-- The same tree, under an owner with that direction, and each node in it settled. -/
def Matches : Option Axis → Tree → Tree → Prop
  | owner, ⟨n, flow, attached⟩, ⟨n', flow', attached'⟩ =>
    n.Styled owner n' ∧ MatchesAll n.direction flow flow' ∧ MatchesAll none attached attached'

def MatchesAll : Option Axis → List Tree → List Tree → Prop
  | _, [], [] => True
  | owner, t :: ts, u :: us => Matches owner t u ∧ MatchesAll owner ts us
  | _, _, _ => False

end

variable {d : Option Axis} {t u v : Tree} {ts us vs : List Tree}

theorem matchesAll_iff : MatchesAll d ts us ↔ List.Forall₂ (Matches d) ts us := by
  induction ts generalizing us with
  | nil => cases us <;> simp [MatchesAll]
  | cons t ts ih => cases us <;> simp [MatchesAll, ih]

theorem matches_iff : Matches d t u ↔ t.node.Styled d u.node ∧
    List.Forall₂ (Matches t.node.direction) t.flow u.flow ∧ List.Forall₂ (Matches none) t.attached u.attached := by
  obtain ⟨n, flow, attached⟩ := t
  obtain ⟨n', flow', attached'⟩ := u
  rw [Matches, matchesAll_iff, matchesAll_iff]

theorem strippedAll_append (ts us : List Tree) : strippedAll (ts ++ us) = strippedAll ts ++ strippedAll us := by
  induction ts with
  | nil => rfl
  | cons t ts ih => rw [List.cons_append, strippedAll, strippedAll, ih, List.append_assoc]

/-- Any other node stays. -/
theorem spliced_other (hs : t.node.hasRole .spacer = false) (ho : t.node.hasRole .overflow = false) :
    spliced t = [stripped t] := by
  obtain ⟨n, flow, attached⟩ := t
  simp only [spliced, stripped, hs, ho, Bool.false_and, if_neg Bool.false_ne_true]

theorem spliced_wrapper {w : Node} (h : w.hasRole .overflow = true) (t : Tree) : spliced ⟨w, [t], []⟩ = spliced t := by
  simp [spliced, h, strippedAll]

end Tree

namespace Resolve

open Tree

variable {d : Option Axis} {t u v : Tree} {ts us vs : List Tree}

theorem restyled_spliced (h : Restyled t u) : List.Forall₂ Restyled (spliced t) (spliced u) := by
  obtain ⟨n, hn, rfl⟩ := h
  obtain ⟨m, flow, attached⟩ := t
  simp only [spliced, hn.hasRole (r := .spacer) (by simp), hn.hasRole (r := .overflow) (by simp)]
  split
  · exact .nil
  · split
    · exact restyled_refl _
    · exact .cons ⟨n, hn, rfl⟩ .nil

theorem restyled_strippedAll (h : List.Forall₂ Restyled ts us) :
    List.Forall₂ Restyled (strippedAll ts) (strippedAll us) := by
  induction h with
  | nil => exact .nil
  | cons h _ ih => exact List.rel_append (restyled_spliced h) ih

/-- A spacer leaves nothing behind. -/
theorem Dressed.stripped {c c' : Nat} (h : Dressed ts c us c') :
    List.Forall₂ Restyled (strippedAll ts) (strippedAll us) := by
  cases h with
  | plain h => exact restyled_strippedAll h
  | @spaced us vs h hu hv s c hs =>
    have hnil : spliced ⟨s, [], []⟩ = [] := by simp [spliced, hs.role]
    rw [strippedAll_append, strippedAll, hnil, List.nil_append, ← strippedAll_append]
    exact restyled_strippedAll h

/-- No spacer comes next to an only child. -/
theorem Dressed.single {c c' : Nat} (h : Dressed [t] c us c') : ∃ u, us = [u] ∧ Restyled t u := by
  cases h with
  | plain h =>
    cases h with
    | cons h hnil =>
      cases hnil
      exact ⟨_, rfl, h⟩
  | @spaced us vs h hu hv =>
    have hl := h.length_eq
    rw [List.length_singleton, List.length_append] at hl
    have hu := List.length_pos_iff.2 hu
    have hv := List.length_pos_iff.2 hv
    omega

theorem Matches.restyled (h : Matches d t u) (hr : Restyled u v) : Matches d t v := by
  obtain ⟨n, hn, rfl⟩ := hr
  obtain ⟨ht, hf, ha⟩ := matches_iff.1 h
  exact matches_iff.2 ⟨ht.trans (hn.under d), hf, ha⟩

theorem matches_restyled (h : List.Forall₂ (Matches d) ts us) (hr : List.Forall₂ Restyled us vs) :
    List.Forall₂ (Matches d) ts vs := by
  induction h generalizing vs with
  | nil =>
    cases hr
    exact .nil
  | cons h _ ih =>
    cases hr with
    | cons hr hrs => exact .cons (Matches.restyled h hr) (ih hrs)

/-- A node of a tree that is still to be resolved. -/
structure Plain (t : Tree) : Prop where
  pending : t.node.Pending
  text : t.node.isText = true → t.node.direction = none

/-- Without what was put into it, the tree is what it was. -/
structure Unchanged (t : Tree) (n : Node) (r : Tree) : Prop where
  node : n.Styled none r.node
  flow : t.Every Plain → List.Forall₂ (Matches n.direction) t.flow (strippedAll r.flow)
  attached : t.Every Plain → List.Forall₂ (Matches none) t.attached (strippedAll r.attached)

/-- `Unchanged` for any number of created nodes. -/
abbrev Unchanging : Becoming := fun t n _ r _ => Unchanged t n r

/-- The node that a member has become is no spacer and no wrapper, so it stays when these go. -/
theorem Unchanged.spliced {n : Node} {r : Tree} (h : Unchanged t n r) (ht : t.Every Plain) (hn : t.node.Styled d n) :
    spliced r = [stripped r] ∧ Matches d t (stripped r) := by
  have hplain := (every_iff.1 ht).1.pending
  have hr := hn.trans (h.node.under d)
  refine ⟨spliced_other ?_ ?_, matches_iff.2 ?_⟩
  · rw [hr.hasRole (by simp), hplain.spacer]
  · rw [hr.hasRole (by simp), hplain.overflow]
  · obtain ⟨m, flow, attached⟩ := r
    exact ⟨hr, hn.direction ▸ h.flow ht, h.attached ht⟩

theorem FlowBy.matches {ss : List Slot} {rs : List Tree} {b b' c c' : Nat} (h : FlowBy Unchanging ts ss b rs b')
    (hs : Slotted d (ts.map node) c ss c') (ht : ∀ t ∈ ts, t.Every Plain) :
    List.Forall₂ (Matches d) ts (strippedAll rs) := by
  induction h generalizing c with
  | nil => exact .nil
  | bare h _ ih =>
    cases hs with
    | bare hn _ hs =>
      obtain ⟨he, hm⟩ := h.spliced (ht _ (by simp)) hn
      rw [strippedAll, he]
      exact .cons hm (ih hs fun u hu => ht u (List.mem_cons_of_mem _ hu))
  | @wrapped w n n' hn' hz t c r c1 h w' hw' us c2 hd ts ss rs c3 _ ih =>
    cases hs with
    | wrapped hn htext hw hs =>
      have hplain := ht t (by simp)
      -- a text has no direction, so its wrapper does not widen it
      have hdir := hn.direction.trans ((every_iff.1 hplain).1.text htext)
      obtain ⟨he, hm⟩ := h.spliced hplain (hn.trans ((hn'.undirected hdir).under d))
      obtain ⟨u, rfl, hu⟩ := hd.single
      have hw' : w'.hasRole .overflow = true := (hw'.hasRole (by simp)).trans hw.overflow
      have hru := restyled_spliced hu
      rw [he] at hru
      rw [strippedAll, spliced_wrapper hw']
      exact List.rel_append (matches_restyled (.cons hm .nil) hru)
        (ih hs fun u hu => ht u (List.mem_cons_of_mem _ hu))

theorem AttachedBy.matches {rs : List Tree} {c c' : Nat} (h : AttachedBy Unchanging ts c rs c')
    (ht : ∀ t ∈ ts, t.Every Plain) : List.Forall₂ (Matches none) ts (strippedAll rs) := by
  induction h with
  | nil => exact .nil
  | member hn _ h hu _ ih =>
    obtain ⟨he, hm⟩ := h.spliced (ht _ (by simp)) hn
    have hru := restyled_spliced hu
    rw [he] at hru
    rw [strippedAll]
    exact List.rel_append (matches_restyled (.cons hm .nil) hru)
      (ih fun u hu => ht u (List.mem_cons_of_mem _ hu))

theorem OwnerBy.unchanged {n : Node} {r : Tree} {c c' : Nat} (h : OwnerBy Unchanging t n c r c') :
    Unchanged t n r := by
  obtain ⟨hs, hf, hn, hd, ha⟩ := h
  refine ⟨hn, fun ht => ?_, fun ht => ha.matches fun u hu => (every_iff.1 ht).2 u (List.mem_append_right _ hu)⟩
  exact matches_restyled (hf.matches hs fun u hu => (every_iff.1 ht).2 u (List.mem_append_left _ hu)) hd.stripped

theorem matches_resolve (o : Options) {t : Tree} (h : t.Every Plain) (j : Journal) :
    Matches none t (stripped (tree o t j).1) :=
  ((resolve_induction (P := Unchanging) o OwnerBy.unchanged t t.node j).spliced h (.refl _)).2

end Resolve

namespace Recovery

open Tree

theorem plain_regrouped (o : Options) (d : Document) : (regrouped o d).1.Every Resolve.Plain := fun s hs =>
  ⟨pending_regrouped o d s hs, fun ht => by
    have hm := (arranged_regrouped o d).modest s hs
    have hc : s.node.isContent = true := by
      rw [isText, beq_iff_eq] at ht
      simp [isContent, ht]
    simpa using (hm.content hc).2⟩

/-- With any options a regrouped tree is resolved in place. -/
theorem resolved_in_place (o o' : Options) (d : Document) :
    Matches none (regrouped o d).1 (stripped (Resolve.tree o' (regrouped o d).1 (regrouped o d).2).1) :=
  Resolve.matches_resolve o' (plain_regrouped o d) _

end Recovery

end FlexRecovery
