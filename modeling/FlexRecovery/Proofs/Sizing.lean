import FlexRecovery.Proofs.Faults

/-!
Each node gets its sizes from its owner: a child when its owner lays it out, what is placed on an owner when it
is placed. Only the children of an owner without a direction are left without, and the direction rule finds these
first.
-/

namespace FlexRecovery

open Node Tree Regroup Consistency

namespace Resolve

variable {d : Option Axis} {t u : Tree} {ts us : List Tree}

/-- The members that an owner has to give sizes to have them. -/
structure Measured (t : Tree) : Prop where
  flow : t.node.direction.isSome = true → ∀ m ∈ t.flow, m.node.IsSized
  attached : ∀ m ∈ t.attached, m.node.IsSized

theorem measured_leaf (n : Node) : Measured ⟨n, [], []⟩ := ⟨by simp, by simp⟩

theorem every_measured_restyled (h : Restyled t u) (ht : t.Every Measured) : u.Every Measured := by
  obtain ⟨n, hn, rfl⟩ := h
  obtain ⟨hm, hms⟩ := every_iff.1 ht
  refine every_iff.2 ⟨⟨fun hd => hm.flow ?_, hm.attached⟩, hms⟩
  rw [← hn.direction]
  exact hd

theorem Restyled.isSized (h : Restyled t u) (ht : t.node.IsSized) : u.node.IsSized := by
  obtain ⟨n, hn, rfl⟩ := h
  exact hn.isSized ht

theorem Dressed.isSized {c c' : Nat} (h : Dressed ts c us c') (ht : ∀ t ∈ ts, t.node.IsSized) :
    ∀ u ∈ us, u.node.IsSized :=
  h.forall (fun _ _ => Restyled.isSized) (fun _ _ _ hs => hs.sized) (Nat.zero_le c) ht

theorem Dressed.measured {c c' : Nat} (h : Dressed ts c us c') (ht : ∀ t ∈ ts, t.Every Measured) :
    ∀ u ∈ us, u.Every Measured :=
  h.forall (fun _ _ => every_measured_restyled)
    (fun s _ _ _ => every_iff.2 ⟨measured_leaf s, by simp [Tree.members]⟩) (Nat.zero_le c) ht

/-- A pending tree is resolved to a measured one. -/
structure Measures (t : Tree) (n : Node) (r : Tree) : Prop where
  node : n.Styled none r.node
  measured : t.Every (·.node.Pending) → r.Every Measured

/-- `Measures` for any number of created nodes. -/
abbrev Measuring : Becoming := fun t n _ r _ => Measures t n r

theorem FlowBy.measured {ss : List Slot} {rs : List Tree} {b b' c c' : Nat} (h : FlowBy Measuring ts ss b rs b')
    (hs : Slotted d (ts.map node) c ss c') (ht : ∀ t ∈ ts, t.Every (·.node.Pending)) :
    (d.isSome = true → ∀ r ∈ rs, r.node.IsSized) ∧ ∀ r ∈ rs, r.Every Measured := by
  induction h generalizing c with
  | nil => simp
  | bare h _ ih =>
    cases hs with
    | bare hn hz hs =>
      obtain ⟨hsized, hmeasured⟩ := ih hs fun u hu => ht u (List.mem_cons_of_mem _ hu)
      exact ⟨fun hd => List.forall_mem_cons.2 ⟨h.node.isSized (hz hd), hsized hd⟩,
        List.forall_mem_cons.2 ⟨h.measured (ht _ (by simp)), hmeasured⟩⟩
  | wrapped hn' hz h hw' hd _ ih =>
    cases hs with
    | wrapped hn htext hw hs =>
      obtain ⟨hsized, hmeasured⟩ := ih hs fun u hu => ht u (List.mem_cons_of_mem _ hu)
      have hus := hd.isSized (List.forall_mem_singleton.2 (h.node.isSized hz))
      have hum := hd.measured (List.forall_mem_singleton.2 (h.measured (ht _ (by simp))))
      refine ⟨fun hd => List.forall_mem_cons.2 ⟨hw'.isSized hw.sized, hsized hd⟩,
        List.forall_mem_cons.2 ⟨every_iff.2 ⟨⟨fun _ => hus, by simp⟩, ?_⟩, hmeasured⟩⟩
      simpa [Tree.members] using hum

theorem AttachedBy.measured {rs : List Tree} {c c' : Nat} (h : AttachedBy Measuring ts c rs c')
    (ht : ∀ t ∈ ts, t.Every (·.node.Pending)) : (∀ r ∈ rs, r.node.IsSized) ∧ ∀ r ∈ rs, r.Every Measured := by
  induction h with
  | nil => simp
  | @member t n hn hz _ _ _ h u hu _ _ _ _ ih =>
    obtain ⟨hsized, hmeasured⟩ := ih fun u hu => ht u (List.mem_cons_of_mem _ hu)
    have hpending := ht t (by simp)
    -- chrome was sized in the draft, everything else is sized where it is placed
    have hsize : n.IsSized := hz.elim (fun hc => hn.isSized ((every_iff.1 hpending).1.chrome hc)) id
    exact ⟨List.forall_mem_cons.2 ⟨hu.isSized (h.node.isSized hsize), hsized⟩,
      List.forall_mem_cons.2 ⟨every_measured_restyled hu (h.measured hpending), hmeasured⟩⟩

theorem OwnerBy.measures {n : Node} {r : Tree} {c c' : Nat} (h : OwnerBy Measuring t n c r c') : Measures t n r := by
  obtain ⟨hs, hf, hn, hd, ha⟩ := h
  refine ⟨hn, fun ht => ?_⟩
  obtain ⟨-, hms⟩ := every_iff.1 ht
  obtain ⟨hsized, hflow⟩ := hf.measured hs fun u hu => hms u (List.mem_append_left _ hu)
  obtain ⟨hasized, hattached⟩ := ha.measured fun u hu => hms u (List.mem_append_right _ hu)
  refine every_iff.2 ⟨⟨fun hdir => hd.isSized (hsized ?_), hasized⟩, fun u hu => ?_⟩
  · rw [← hn.direction]
    exact hdir
  · exact (List.mem_append.1 hu).elim (hd.measured hflow u) (hattached u)

theorem measures_resolve (o : Options) (t : Tree) (n : Node) (j : Journal) : Measures t n (resolve o n t j).1 :=
  resolve_induction (P := Measuring) o OwnerBy.measures t n j

theorem sizingFault?_eq_none : sizingFault? t = none ↔ ∀ s ∈ t.subtrees, s.node.IsSized := by
  unfold sizingFault?
  rw [List.findSome?_eq_none_iff]
  refine forall₂_congr fun s _ => ?_
  cases hw : s.node.width <;> cases hh : s.node.height <;> simp [IsSized, hw, hh]

/-- A root with sizes over owners that hand them on: whoever has none is a child of an owner without a direction,
and these lie on images. -/
theorem sized_iff {k : Nat} (ha : Arranged k t) (hz : t.node.IsSized) (hm : t.Every Measured) :
    (∀ s ∈ t.subtrees, s.node.IsSized) ↔
      ∀ s ∈ t.subtrees, Covered t s → s.node.direction = none → ∀ m ∈ s.flow, m.node.IsSized := by
  constructor
  · intro hall s hs _ _ m hmem
    exact hall m (mem_subtrees_of_mem_members (List.mem_append_left _ hmem) hs)
  · intro hcov s hs
    rcases exists_owner hs with rfl | ⟨u, hu, hmem⟩
    · exact hz
    · rcases List.mem_append.1 hmem with hmem | hmem
      · cases hd : u.node.direction with
        | some _ => exact (hm u hu).flow (by simp [hd]) s hmem
        | none =>
          rcases ha.good_or_covered u hu with hg | hc
          · have hne : u.flow ≠ [] := List.ne_nil_of_mem hmem
            rw [← hg.directed, hd] at hne
            cases hne
          · exact hcov u hu hc hd s hmem
      · exact (hm u hu).attached s hmem

end Resolve

namespace Recovery

open Resolve

variable (o : Options) (d : Document)

theorem measured_resolved : (resolved o d).1.Every Measured :=
  (measures_resolve o (regrouped o d).1 (regrouped o d).1.node (regrouped o d).2).measured (pending_regrouped o d)

theorem isSized_resolved : (resolved o d).1.node.IsSized :=
  (measures_resolve o (regrouped o d).1 (regrouped o d).1.node (regrouped o d).2).node.isSized (isSized_regrouped o d)

/-- Sizes are missing at most below an image that was left without a direction, and never in a tree that has
passed the checks of structure. -/
theorem sized_throughout :
    (sizingFault? (resolved o d).1 = none ↔ ∀ s ∈ (resolved o d).1.subtrees,
      Covered (resolved o d).1 s → s.node.direction = none → ∀ m ∈ s.flow, m.node.IsSized) ∧
    (structureFault? (resolved o d).1 = none → sizingFault? (resolved o d).1 = none) := by
  have key := sizingFault?_eq_none.trans
    (sized_iff (arranged_resolved o d) (isSized_resolved o d) (measured_resolved o d))
  refine ⟨key, fun h => key.2 fun s hs _ hd m hm => ?_⟩
  have hdir := directionFault?_eq_none.1 ((structureFault?_eq_none.1 h).1 s hs)
  have hne : s.flow ≠ [] := List.ne_nil_of_mem hm
  rw [← hdir, hd] at hne
  cases hne

/-- What lies on the strip has no sizes. -/
theorem unsized_strip : (¬∀ s ∈ (resolved {} stripOnImage).1.subtrees, s.node.IsSized) ∧
    (sizingFault? (resolved {} stripOnImage).1).map (·.message) =
      some "Invariant violated at #c: width spec left unresolved" := by
  constructor
  · decide +kernel
  · decide +kernel

end Recovery

end FlexRecovery
