import FlexRecovery.Proofs.Stages

/-!
Where the rules between the steps can be broken. Regrouping does not come to what is placed on an image, so a
container is left there without a direction. Drafted siblings are clear of each other below every node that
is laid out, and a container that is made around some of them may still meet the others.
-/

namespace FlexRecovery

open Tree Consistency Ledger

namespace Regroup

variable {k : Nat}

/-- An image of the tree lies over it, or it is one. -/
def Covered (t s : Tree) : Prop := ∃ u ∈ t.subtrees, u.node.isImage = true ∧ s ∈ u.subtrees

theorem Covered.of_member {t m s : Tree} (hm : m ∈ t.members) (h : Covered m s) : Covered t s := by
  obtain ⟨u, hu, hi, hs⟩ := h
  exact ⟨u, mem_subtrees.2 (.inr ⟨m, hm, hu⟩), hi, hs⟩

/-- A text has no members. -/
theorem good_of_text {t : Tree} (h : Modest k t) (ht : t.node.isText = true) : Good k t ∧ t.members = [] := by
  have hc : t.node.isContent = true := by
    rw [Node.isText, beq_iff_eq] at ht
    simp [Node.isContent, ht]
  obtain ⟨hf, hd⟩ := h.content hc
  refine ⟨⟨h.layer, ?_, fun _ => ?_⟩, ?_⟩
  · simp [hd, hf]
  · rw [hf]
    exact .nil
  · rw [Tree.members, hf, h.text ht]
    rfl

/-- Only what is placed on images has not been regrouped. -/
theorem Arranged.good_or_covered {t : Tree} (h : Arranged k t) : ∀ s ∈ t.subtrees, Good k s ∨ Covered t s := by
  induction h with
  | @content t hc hs =>
    intro s hmem
    have ht := hs t (self_mem_subtrees t)
    cases htag : t.node.tag with
    | view => simp [Node.isContent, htag] at hc
    | span => exact absurd htag ht.span
    | image => exact .inr ⟨t, self_mem_subtrees t, by simp [Node.isImage, htag], hmem⟩
    | text =>
      obtain ⟨hg, hm⟩ := good_of_text ht (by simp [Node.isText, htag])
      rcases mem_subtrees.1 hmem with rfl | ⟨m, hmem, -⟩
      · exact .inl hg
      · rw [hm] at hmem
        cases hmem
  | view hc hg hm ih =>
    intro s hmem
    rcases mem_subtrees.1 hmem with rfl | ⟨m, hmem, hs⟩
    · exact .inl hg
    · exact (ih m hmem s hs).imp_right (Covered.of_member hmem)

theorem directionFault?_eq_none {t : Tree} :
    directionFault? t = none ↔ (t.node.direction.isSome = true ↔ t.flow ≠ []) := by
  unfold directionFault? isLeaf
  cases hd : t.node.direction <;> cases hf : t.flow <;> simp

/-- The direction rule is broken by a container on an image that was left without a direction, and by nothing
else. -/
theorem Arranged.directed_iff {t : Tree} (h : Arranged k t) :
    (∀ s ∈ t.subtrees, directionFault? s = none) ↔
      ∀ s ∈ t.subtrees, Covered t s → s.flow ≠ [] → s.node.direction.isSome = true := by
  constructor
  · intro hall s hs _ hf
    exact (directionFault?_eq_none.1 (hall s hs)).2 hf
  · intro hcov s hs
    apply directionFault?_eq_none.2
    rcases h.good_or_covered s hs with hg | hc
    · exact hg.directed
    · exact ⟨(h.modest s hs).shared, hcov s hs hc⟩

/-- Two flow children of one owner that were not laid out as drafted siblings: their owner was laid out in one
line, or lies on an image, or one of the two was made after the draft. -/
def Exempt (k : Nat) (t s a b : Tree) : Prop :=
  isPreset s.node = true ∨ Covered t s ∨ k ≤ a.node.index ∨ k ≤ b.node.index

/-- The sibling rule holds exactly when it holds of the exempt pairs. -/
theorem Arranged.separated_iff {t : Tree} (h : Arranged k t) :
    (∀ s ∈ t.subtrees, siblingFault? s.flow = none) ↔
      ∀ s ∈ t.subtrees, s.flow.Pairwise fun a b => Exempt k t s a b → pairFault? a b = none := by
  constructor
  · intro hall s hs
    refine (siblingFault?_eq_none.1 (hall s hs)).imp ?_
    intro a b hp _
    exact hp
  · intro hex s hs
    apply siblingFault?_eq_none.2
    by_cases hcov : Covered t s
    · exact (hex s hs).imp fun hp => hp (.inr (.inl hcov))
    · by_cases hpre : isPreset s.node = true
      · exact (hex s hs).imp fun hp => hp (.inl hpre)
      · have hg : Good k s := (h.good_or_covered s hs).resolve_right hcov
        have hclear := hg.clear (by simpa using hpre)
        refine ((hex s hs).and hclear).imp fun {a b} hp => ?_
        by_cases hnew : k ≤ a.node.index ∨ k ≤ b.node.index
        · exact hp.1 (.inr (.inr hnew))
        · exact pairFault?_of_clear (hp.2 (by omega) (by omega))

theorem structureFault?_eq_none {t : Tree} : structureFault? t = none ↔
    (∀ s ∈ t.subtrees, directionFault? s = none) ∧ ∀ s ∈ t.subtrees, siblingFault? s.flow = none := by
  unfold structureFault?
  simp only [List.findSome?_eq_none_iff, Option.orElse_eq_orElse, Option.orElse_eq_or, Option.or_eq_none_iff]
  constructor
  · intro h
    exact ⟨fun s hs => (h s hs).1, fun s hs => (h s hs).2⟩
  · rintro ⟨hd, hs⟩ s hmem
    exact ⟨hd s hmem, hs s hmem⟩

end Regroup

namespace Recovery

open Regroup

variable (o : Options) (d : Document)

theorem arranged_resolved : Arranged (draftSize o d) (resolved o d).1 :=
  (resolved_resolved o d).arranged (arranged_regrouped o d)

theorem directed_throughout :
    ((∀ s ∈ (regrouped o d).1.subtrees, directionFault? s = none) ↔ ∀ s ∈ (regrouped o d).1.subtrees,
      Covered (regrouped o d).1 s → s.flow ≠ [] → s.node.direction.isSome = true) ∧
    ((∀ s ∈ (resolved o d).1.subtrees, directionFault? s = none) ↔ ∀ s ∈ (resolved o d).1.subtrees,
      Covered (resolved o d).1 s → s.flow ≠ [] → s.node.direction.isSome = true) :=
  ⟨(arranged_regrouped o d).directed_iff, (arranged_resolved o d).directed_iff⟩

/-- A draft without images is laid out everywhere. -/
theorem directed_of_no_image (h : ∀ n ∈ (drafted o d).1.nodes, n.isImage = false) :
    ∀ s ∈ (resolved o d).1.subtrees, directionFault? s = none := by
  obtain ⟨g, hg⟩ := turns_regrouped o d
  have hs := (Steps.later hg).trans (steps_resolved o d g)
  refine (arranged_resolved o d).directed_iff.2 ?_
  rintro s - ⟨u, hu, hi, -⟩
  obtain ⟨n, hn, hi⟩ := Steps.images (fun _ _ h => h) hs u.node (mem_census.2 ⟨u, hu, rfl⟩) hi
  rw [h n (Multiset.mem_coe.1 hn)] at hi
  cases hi

/-- What a recovery stops with. -/
def refusal? : Except Failure Recovery → Option String
  | .ok _ => none
  | .error f => some f.message

/-- A layer without paint. -/
def plainLayer (name : String) (kind : LayerKind) (left top width height : Float32) (children : List Layer) : Layer :=
  ⟨⟨⟨name⟩, kind, none, 1, ⟨left, top, width, height⟩, [], {}, [], none, none⟩, children⟩

/-- A strip along the edge of an image becomes its border, and what lies on the strip is never laid out. -/
def stripOnImage : Document :=
  ⟨400, 400, plainLayer "page" .artboard 0 0 400 400
    [plainLayer "i" .image 0 0 200 100 [],
      plainLayer "s" .group 0 98 400 2 [plainLayer "c" .shape 300 98 10 2 []]]⟩

theorem undirected_strip : (¬∀ s ∈ (regrouped {} stripOnImage).1.subtrees, directionFault? s = none) ∧
    refusal? (ofDocument {} stripOnImage) = some "Invariant violated at #s: container without a direction" := by
  constructor
  · decide +kernel
  · decide +kernel

theorem separated_throughout :
    ((∀ s ∈ (regrouped o d).1.subtrees, siblingFault? s.flow = none) ↔ ∀ s ∈ (regrouped o d).1.subtrees,
      s.flow.Pairwise fun a b => Exempt (draftSize o d) (regrouped o d).1 s a b → pairFault? a b = none) ∧
    ((∀ s ∈ (resolved o d).1.subtrees, siblingFault? s.flow = none) ↔ ∀ s ∈ (resolved o d).1.subtrees,
      s.flow.Pairwise fun a b => Exempt (draftSize o d) (resolved o d).1 s a b → pairFault? a b = none) :=
  ⟨(arranged_regrouped o d).separated_iff, (arranged_resolved o d).separated_iff⟩

/-- The container around the two upper boxes contains the lower one, which neither of them touches. -/
def boxUnderRow : Document :=
  ⟨400, 400, plainLayer "page" .artboard 0 0 400 400
    [plainLayer "p" .group 0 0 100 100 [], plainLayer "q" .group 110 40 50 70 [],
      plainLayer "b" .group 0 109 50 1 []]⟩

theorem nested_box : (¬∀ s ∈ (regrouped {} boxUnderRow).1.subtrees, siblingFault? s.flow = none) ∧
    refusal? (ofDocument {} boxUnderRow) =
      some "Invariant violated at <generated 4>: sibling #b is nested by geometry" := by
  constructor
  · decide +kernel
  · decide +kernel

/-- A recovery gets past the checks of structure exactly when both rules hold where they may be broken. -/
theorem consistent_throughout :
    (structureFault? (regrouped o d).1 = none ↔
      (∀ s ∈ (regrouped o d).1.subtrees,
        Covered (regrouped o d).1 s → s.flow ≠ [] → s.node.direction.isSome = true) ∧
      ∀ s ∈ (regrouped o d).1.subtrees,
        s.flow.Pairwise fun a b => Exempt (draftSize o d) (regrouped o d).1 s a b → pairFault? a b = none) ∧
    (structureFault? (resolved o d).1 = none ↔
      (∀ s ∈ (resolved o d).1.subtrees,
        Covered (resolved o d).1 s → s.flow ≠ [] → s.node.direction.isSome = true) ∧
      ∀ s ∈ (resolved o d).1.subtrees,
        s.flow.Pairwise fun a b => Exempt (draftSize o d) (resolved o d).1 s a b → pairFault? a b = none) := by
  have key {t : Tree} (h : Arranged (draftSize o d) t) := structureFault?_eq_none.trans
    (and_congr h.directed_iff h.separated_iff)
  exact ⟨key (arranged_regrouped o d), key (arranged_resolved o d)⟩

end Recovery

end FlexRecovery
