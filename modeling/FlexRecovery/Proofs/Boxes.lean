import FlexRecovery.Consistency
import FlexRecovery.Proofs.Rounding

/-! How boxes lie to one another. -/

namespace FlexRecovery

theorem close_comm (a b : Int) : close a b = close b a := by
  rw [Bool.eq_iff_iff, close_iff, close_iff]
  omega

namespace Box

theorem same_comm (a b : Box) : a.same b = b.same a := by
  unfold same
  rw [close_comm a.left, close_comm a.top, close_comm a.right, close_comm a.bottom]

theorem within_iff {inner outer : Box} {axis : Axis} : inner.within outer axis = true ↔
    outer.start axis - 1 ≤ inner.start axis ∧ inner.stop axis ≤ outer.stop axis + 1 := by
  unfold within Tuning.tolerance
  exact decide_eq_true_iff

theorem within_of_strictlyContains {outer inner : Box} (h : outer.strictlyContains inner = true) (axis : Axis) :
    inner.within outer axis = true := by
  simp only [strictlyContains, contains, Bool.and_eq_true] at h
  cases axis
  · exact h.1.1.1
  · exact h.1.1.2

theorem overlap_comm (a b : Box) (axis : Axis) : a.overlap b axis = b.overlap a axis := by
  unfold overlap
  omega

theorem intrudes_of_intrudesFully {small large : Box} (h : small.intrudesFully large = true) (axis : Axis) :
    small.intrudes large axis = true := by
  simp only [intrudesFully, Bool.and_eq_true] at h
  cases axis
  · exact h.1
  · exact h.2

/-- A box that shares at most half of its span intrudes nowhere. -/
theorem not_intrudesFully {small large : Box} (axis : Axis)
    (h : 2 * small.overlap large axis ≤ (small.extent axis : Int)) : small.intrudesFully large = false := by
  rw [Bool.eq_false_iff]
  intro hi
  have hs := intrudes_of_intrudesFully hi axis
  simp only [intrudes, Bool.and_eq_true, decide_eq_true_eq] at hs
  have := Number.two_mul_toSingle_le h
  omega

/-- Neither box strictly contains the other or intrudes into it on both axes. -/
structure Clear (a b : Box) : Prop where
  outside : a.strictlyContains b = false
  outside' : b.strictlyContains a = false
  apart : a.intrudesFully b = false
  apart' : b.intrudesFully a = false

theorem Clear.symm {a b : Box} (h : Clear a b) : Clear b a := ⟨h.outside', h.outside, h.apart', h.apart⟩

/-- A shorter span that is not covered, and shares at most half of itself, lies clear. -/
theorem clear_of_span {long short : Box} {axis : Axis} (hl : short.extent axis ≤ long.extent axis)
    (hw : short.within long axis = false) (ho : 2 * short.overlap long axis ≤ (short.extent axis : Int)) :
    Clear long short where
  outside := by
    rw [Bool.eq_false_iff]
    intro h
    rw [within_of_strictlyContains h axis] at hw
    cases hw
  outside' := by
    rw [Bool.eq_false_iff]
    intro h
    have hc := within_iff.1 (within_of_strictlyContains h axis)
    rw [Bool.eq_false_iff, ne_eq, within_iff] at hw
    rw [stop_eq, stop_eq] at hc hw
    omega
  apart := by
    apply not_intrudesFully axis
    rw [overlap_comm]
    omega
  apart' := not_intrudesFully axis ho

end Box

namespace Consistency

theorem pairFault?_eq_none {a b : Tree} :
    pairFault? a b = none ↔ isNested a.box b.box = false ∧ isIntruding a.box b.box = false := by
  unfold pairFault?
  cases isNested a.box b.box <;> cases isIntruding a.box b.box <;> simp

theorem pairFault?_of_clear {a b : Tree} (h : Box.Clear a.box b.box) : pairFault? a b = none := by
  rw [pairFault?_eq_none, isNested, h.outside, h.outside', isIntruding]
  refine ⟨rfl, ?_⟩
  split
  · exact h.apart
  · exact h.apart'

/-- No pair of siblings is faulty, in the order of the list. -/
theorem siblingFault?_eq_none {ts : List Tree} :
    siblingFault? ts = none ↔ ts.Pairwise fun a b => pairFault? a b = none := by
  induction ts with
  | nil => simp [siblingFault?]
  | cons a ts ih =>
    rw [siblingFault?, List.pairwise_cons, ← ih, Option.orElse_eq_orElse, Option.orElse_eq_or, Option.or_eq_none_iff,
      List.findSome?_eq_none_iff]

end Consistency

end FlexRecovery
