import FlexRecovery.Proofs.Journaled
import FlexRecovery.Proofs.Reach
import FlexRecovery.Tree

/-! The span of a hull along an axis: from the first leading edge in it to the last trailing one. -/

namespace FlexRecovery

namespace Side

/-- The side with the leading edge along an axis. -/
def leading : Axis → Side
  | .row => left
  | .column => top

/-- The side with the trailing edge along an axis. -/
def trailing : Axis → Side
  | .row => right
  | .column => bottom

end Side

namespace Box

variable {b c : Box} {bs : List Box}

theorem outset_leading (b : Box) (axis : Axis) : b.outset (.leading axis) = -b.start axis := by
  cases axis <;> rfl

theorem outset_trailing (b : Box) (axis : Axis) : b.outset (.trailing axis) = b.stop axis := by
  cases axis <;> rfl

theorem Around.start_le (h : b.Around bs) (hc : c ∈ bs) (axis : Axis) : b.start axis ≤ c.start axis := by
  have := h.frames c hc (.leading axis)
  rw [outset_leading, outset_leading] at this
  omega

theorem Around.stop_le (h : b.Around bs) (hc : c ∈ bs) (axis : Axis) : c.stop axis ≤ b.stop axis := by
  have := h.frames c hc (.trailing axis)
  rwa [outset_trailing, outset_trailing] at this

theorem Around.exists_start (h : b.Around bs) (axis : Axis) : ∃ c ∈ bs, c.start axis = b.start axis := by
  obtain ⟨c, hc, he⟩ := h.tight (.leading axis)
  rw [outset_leading, outset_leading] at he
  exact ⟨c, hc, by omega⟩

theorem Around.exists_stop (h : b.Around bs) (axis : Axis) : ∃ c ∈ bs, c.stop axis = b.stop axis := by
  obtain ⟨c, hc, he⟩ := h.tight (.trailing axis)
  rw [outset_trailing, outset_trailing] at he
  exact ⟨c, hc, he⟩

/-- The smallest box around all members is the smallest one around the boxes of their parts. -/
theorem Around.of_forall₂ {ps : List (List Box)} {cs : List Box} (h : b.Around ps.flatten)
    (hcs : List.Forall₂ (fun p c => c.Around p) ps cs) : b.Around cs := by
  have frames : ∀ c ∈ cs, b.Frames c := by
    intro c hc e
    obtain ⟨p, hp, hc⟩ := exists_of_forall₂ hcs.flip c hc
    obtain ⟨d, hd, he⟩ := hc.tight e
    rw [← he]
    exact h.frames d (List.mem_flatten.2 ⟨p, hp, hd⟩) e
  refine ⟨frames, fun e => ?_⟩
  obtain ⟨d, hd, he⟩ := h.tight e
  obtain ⟨p, hp, hd⟩ := List.mem_flatten.1 hd
  obtain ⟨c, hc, hp⟩ := exists_of_forall₂ hcs p hp
  exact ⟨c, hc, le_antisymm (frames c hc e) (he ▸ hp.frames d hd e)⟩

theorem Around.parts {ps : List (List Box)} (h : b.Around ps.flatten) (hne : ∀ p ∈ ps, p ≠ []) :
    b.Around (ps.map hull) :=
  h.of_forall₂ (List.forall₂_map_right_iff.2 (List.forall₂_same.2 fun p hp => around_hull (hne p hp)))

/-- Two spans share no more than the tolerance if the one that starts first, or the other one, ends before the
other has begun in earnest. -/
theorem overlap_le_iff (h : b.start axis ≤ c.start axis) : b.overlap c axis ≤ Tuning.tolerance ↔
    b.stop axis ≤ c.start axis + 1 ∨ c.stop axis ≤ c.start axis + 1 := by
  unfold overlap Tuning.tolerance
  omega

end Box

namespace Tree

theorem around_hull {ts : List Tree} (h : ts ≠ []) : (hull ts).Around (ts.map box) := Box.around_hull (by simpa using h)

/-- Boxes on a sheet, the upper ones last. -/
def sheet (boxes : List Box) : Tree :=
  ⟨{ box := ⟨0, 0, 400, 400⟩ }, boxes.map fun box => ⟨{ box }, [], []⟩, []⟩

end Tree

end FlexRecovery
