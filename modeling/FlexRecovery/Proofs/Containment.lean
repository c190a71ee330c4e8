import FlexRecovery.Proofs.Faults

/-!
Flow children lie in the box of their owner. A draft and its cleaning leave no slack at all; regrouping moves
members over boxes that are the same up to the tolerance, and the tolerance adds up where containers were folded.
-/

namespace FlexRecovery

open Node Tree Box

namespace Recovery

variable (o : Options) (d : Document)

theorem frames_drafted : (cleaned o (drafted o d).1).Every (Flowing Frames) :=
  frames_cleaned o (Draft.frames_ofPage o d {})

theorem holds_regrouped : ∃ folded : Multiset Node,
    Sheds Kept (cleaned o (drafted o d).1).census (draftSize o d) folded (regrouped o d).1.census
      (regrouped o d).2.created ∧
    (regrouped o d).1.Holds (folded.map Node.box) := by
  obtain ⟨g, hs, hh⟩ := (within_regrouped o d).slides
  have hdraft : (cleaned o (drafted o d).1).Holds 0 :=
    (frames_drafted o d).mono fun s hs m hm => reaches_of_contains (hs m hm).contains 0
  have h := hh 0 hdraft
  rw [zero_add] at h
  exact ⟨g, hs, h⟩

/-- A flow child sticks out of its owner by at most a pixel, and by another one for each container that was
folded. It is contained when no folded container had nearly the box of the owner and yet another one. -/
theorem contained_throughout : ∃ folded : Multiset Node,
    Sheds Kept (cleaned o (drafted o d).1).census (draftSize o d) folded (regrouped o d).1.census
      (regrouped o d).2.created ∧
    ∀ s ∈ (regrouped o d).1.subtrees, ∀ m ∈ s.flow,
      (∀ e, m.box.outset e ≤ s.box.outset e + (1 + folded.card)) ∧
      ((∀ n ∈ folded, s.box.same n.box = true → n.box = s.box) → s.box.contains m.box = true) := by
  obtain ⟨folded, hs, hh⟩ := holds_regrouped o d
  refine ⟨folded, hs, fun s hs m hm => ⟨fun e => ?_, fun hsame => ?_⟩⟩
  · have he := (hh s hs m hm).outset_le e
    rw [Multiset.card_map] at he
    exact he
  · refine (hh s hs m hm).contains fun b hb => ?_
    obtain ⟨n, hn, rfl⟩ := Multiset.mem_map.1 hb
    exact hsame n hn

/-- The image moves into the one container and that folds into the other, a pixel each time. -/
def drift : Document :=
  ⟨400, 400, plainLayer "page" .artboard 0 0 400 400
    [plainLayer "t" .image 10 10 100 40 [], plainLayer "y" .group 12 10 98 40 [],
      plainLayer "u" .group 11 10 99 40 []]⟩

theorem drifted_image : ¬∀ s ∈ (regrouped {} drift).1.subtrees, ∀ m ∈ s.flow, s.box.contains m.box = true := by
  decide +kernel

end Recovery

end FlexRecovery
